import Mathlib.Data.List.Basic
import Mathlib.Data.List.Nodup
import Mathlib.Tactic.Common

/-!
# A least-recently-used key set

The standard bounded LRU, as the list of its keys from the least to the most
recently used one.  The list has no duplicates, and that is a field: promoting
and inserting are the same operation, move-to-end.

`Follows` relates an LRU to the history of its uses: every key occurs in the
history, and the keys stand in the order of their last occurrences
(`LastBefore`).  Using a key keeps it, and so does taking keys away; hence the
key at the head is the one whose last use is oldest.
-/

namespace Foundation

universe u

/-- Keys in order of use, the oldest first, at most `maxLength` of them. -/
structure Lru (K : Type u) where
  maxLength : ℕ
  keys : List K
  nodup : keys.Nodup

namespace Lru

variable {K : Type u} [DecidableEq K]

/-- The LRU without keys. -/
def empty (maxLength : ℕ) : Lru K := ⟨maxLength, [], List.nodup_nil⟩

/-- Remove and return the oldest key. -/
def popOldest (lru : Lru K) : Option K × Lru K :=
  (lru.keys.head?, { lru with keys := lru.keys.tail, nodup := lru.nodup.tail })

/-- Remove a key. -/
def remove (lru : Lru K) (k : K) : Lru K :=
  { lru with keys := lru.keys.erase k, nodup := lru.nodup.erase k }

private theorem nodup_moveToEnd {ks : List K} (h : ks.Nodup) (k : K) :
    (ks.erase k ++ [k]).Nodup := by
  refine List.nodup_append.mpr ⟨h.erase k, List.nodup_singleton k, ?_⟩
  intro a ha b hb heq
  rw [List.mem_singleton.mp hb] at heq
  exact h.not_mem_erase (heq ▸ ha)

/-- Make `k` the most recently used key, inserting it if needed; over the limit,
the oldest keys are dropped. -/
def getOrInsert (lru : Lru K) (k : K) : Lru K :=
  { lru with
    keys := (lru.keys.erase k ++ [k]).drop ((lru.keys.erase k ++ [k]).length - lru.maxLength)
    nodup := (nodup_moveToEnd lru.nodup k).sublist (List.drop_sublist _ _) }

omit [DecidableEq K] in
@[simp] theorem keys_empty (maxLength : ℕ) : (empty maxLength : Lru K).keys = [] := rfl

@[simp] theorem maxLength_getOrInsert (lru : Lru K) (k : K) :
    (lru.getOrInsert k).maxLength = lru.maxLength := rfl

@[simp] theorem maxLength_remove (lru : Lru K) (k : K) :
    (lru.remove k).maxLength = lru.maxLength := rfl

omit [DecidableEq K] in
@[simp] theorem maxLength_popOldest (lru : Lru K) :
    lru.popOldest.2.maxLength = lru.maxLength := rfl

theorem mem_remove {lru : Lru K} {k k' : K} :
    k' ∈ (lru.remove k).keys ↔ k' ∈ lru.keys ∧ k' ≠ k := by
  rw [remove, lru.nodup.mem_erase_iff, and_comm]

/-- With room for one more key, nothing is dropped. -/
theorem keys_getOrInsert {lru : Lru K} {k : K}
    (hroom : lru.keys.length < lru.maxLength ∨
      (k ∈ lru.keys ∧ lru.keys.length ≤ lru.maxLength)) :
    (lru.getOrInsert k).keys = lru.keys.erase k ++ [k] := by
  have hlen : (lru.keys.erase k ++ [k]).length ≤ lru.maxLength := by
    rw [List.length_append, List.length_singleton]
    rcases hroom with hlt | ⟨hmem, hle⟩
    · have := List.erase_sublist (l := lru.keys) (a := k) |>.length_le
      omega
    · rw [List.length_erase_of_mem hmem]
      have := List.length_pos_of_mem hmem
      omega
  show (lru.keys.erase k ++ [k]).drop ((lru.keys.erase k ++ [k]).length - lru.maxLength) = _
  rw [Nat.sub_eq_zero_of_le hlen, List.drop_zero]

theorem mem_getOrInsert {lru : Lru K} {k k' : K}
    (hroom : lru.keys.length < lru.maxLength ∨
      (k ∈ lru.keys ∧ lru.keys.length ≤ lru.maxLength)) :
    k' ∈ (lru.getOrInsert k).keys ↔ k' = k ∨ k' ∈ lru.keys := by
  rw [keys_getOrInsert hroom, List.mem_append, List.mem_singleton, lru.nodup.mem_erase_iff]
  by_cases heq : k' = k <;> simp [heq]

/-- Using a new key can be undone if there was room for it. -/
theorem remove_getOrInsert {lru : Lru K} {k : K} (hnew : k ∉ lru.keys)
    (hroom : lru.keys.length < lru.maxLength) : (lru.getOrInsert k).remove k = lru := by
  have hkeys : ((lru.getOrInsert k).remove k).keys = lru.keys := by
    show (lru.getOrInsert k).keys.erase k = lru.keys
    rw [keys_getOrInsert (.inl hroom), List.erase_of_not_mem hnew, List.erase_append_right _ hnew]
    simp
  cases lru
  simp only [remove, getOrInsert] at hkeys ⊢
  congr

theorem length_getOrInsert_le (lru : Lru K) (k : K) :
    (lru.getOrInsert k).keys.length ≤ lru.maxLength := by
  unfold getOrInsert
  rw [List.length_drop]
  omega

end Lru

/-! ## The history of uses -/

section History

variable {K : Type u}

/-- Both occur in the history, and the last `a` comes before the last `b`. -/
def LastBefore (history : List K) (a b : K) : Prop :=
  ∃ before after, history = before ++ a :: after ∧ a ∉ after ∧ b ∈ after

theorem LastBefore.snoc {history : List K} {a b c : K} (h : LastBefore history a b)
    (hne : a ≠ c) : LastBefore (history ++ [c]) a b := by
  obtain ⟨before, after, rfl, hlast, hb⟩ := h
  refine ⟨before, after ++ [c], by simp, ?_, List.mem_append_left _ hb⟩
  simp [hlast, hne]

/-- What occurs in the history comes before a new last use of something else. -/
theorem lastBefore_snoc {history : List K} {a c : K} (ha : a ∈ history) (hne : a ≠ c) :
    LastBefore (history ++ [c]) a c := by
  obtain ⟨after, before, hsplit, hlast⟩ := List.eq_append_cons_of_mem (List.mem_reverse.mpr ha)
  refine ⟨before.reverse, after.reverse ++ [c], ?_, by simp [hlast, hne], by simp⟩
  have hhistory := congrArg List.reverse hsplit
  simp only [List.reverse_reverse, List.reverse_append, List.reverse_cons] at hhistory
  rw [hhistory]
  simp

namespace Lru

/-- The keys stand in the order in which the history used them last. -/
structure Follows (lru : Lru K) (history : List K) : Prop where
  used : ∀ k ∈ lru.keys, k ∈ history
  ordered : lru.keys.Pairwise (LastBefore history)

theorem follows_empty (maxLength : ℕ) : (empty maxLength : Lru K).Follows [] :=
  ⟨nofun, .nil⟩

variable {lru lru' : Lru K} {history : List K}

theorem Follows.sublist (h : lru.Follows history) (hsub : lru'.keys.Sublist lru.keys) :
    lru'.Follows history :=
  ⟨fun k hk => h.used k (hsub.subset hk), h.ordered.sublist hsub⟩

theorem Follows.popOldest (h : lru.Follows history) : lru.popOldest.2.Follows history :=
  h.sublist (List.tail_sublist _)

/-- The oldest key was used before all others. -/
theorem Follows.oldest (h : lru.Follows history) {k : K} {rest : List K}
    (hkeys : lru.keys = k :: rest) : ∀ k' ∈ rest, LastBefore history k k' := by
  have hordered := h.ordered
  rw [hkeys, List.pairwise_cons] at hordered
  exact hordered.1

variable [DecidableEq K]

theorem Follows.getOrInsert (h : lru.Follows history) (k : K) :
    (lru.getOrInsert k).Follows (history ++ [k]) := by
  have hmoved : (lru.keys.erase k ++ [k]).Pairwise (LastBefore (history ++ [k])) := by
    have hne : ∀ k' ∈ lru.keys.erase k, k' ≠ k := fun k' hk' =>
      (lru.nodup.mem_erase_iff.mp hk').1
    refine List.pairwise_append.mpr ⟨?_, List.pairwise_singleton _ k, ?_⟩
    · refine (h.ordered.sublist List.erase_sublist).imp_of_mem ?_
      exact fun ha _ hbefore => hbefore.snoc (hne _ ha)
    · intro k' hk' last hlast
      rw [List.mem_singleton.mp hlast]
      exact lastBefore_snoc (h.used k' (List.erase_subset hk')) (hne k' hk')
  refine ⟨fun k' hk' => ?_, hmoved.sublist (List.drop_sublist _ _)⟩
  rcases List.mem_append.mp ((List.drop_sublist _ _).subset hk') with hold | hnew
  · exact List.mem_append_left _ (h.used k' (List.erase_subset hold))
  · exact List.mem_append_right _ hnew

end Lru

end History

end Foundation
