import ZkRess.Foundation.FiniteMap
import Mathlib.Algebra.BigOperators.Group.Finset.Basic
import Mathlib.Algebra.Order.BigOperators.Group.Finset

/-!
# Maps to sets, and iterating over a set

`SetMap K V` is a finite map from keys to finite sets, used as an index: the
members listed under a key.  `addMember` creates the set on demand, and
`removeMember` drops a key whose set became empty, so a reader of the index sees
members only (`mem_members_addMember`, `mem_members_removeMember`).  `size`
counts the members of all keys; it is the weight that pays for a traversal of
the index.

`SetOrder` is an order in which a hash set may be iterated.  Such an order is
unspecified, so a loop over a set takes one as an argument and every fact about
the loop holds for each of them.
-/

namespace Foundation

universe u v

/-- An order in which the elements of a finite set are visited, each once. -/
structure SetOrder (α : Type u) where
  /-- The elements in visiting order. -/
  toList : Finset α → List α
  nodup : ∀ s, (toList s).Nodup
  mem_toList : ∀ s a, a ∈ toList s ↔ a ∈ s

theorem SetOrder.length_toList {α : Type u} [DecidableEq α] (σ : SetOrder α) (s : Finset α) :
    (σ.toList s).length = s.card := by
  rw [← List.toFinset_card_of_nodup (σ.nodup s)]
  congr 1
  ext a
  rw [List.mem_toFinset, σ.mem_toList]

/-- A finite map from keys to finite sets. -/
abbrev SetMap (K : Type u) (V : Type v) := FiniteMap K (Finset V)

namespace SetMap

variable {K : Type u} {V : Type v} [DecidableEq K]

/-- The members listed under `k`. -/
def members (m : SetMap K V) (k : K) : Finset V := (FiniteMap.get m k).getD ∅

theorem mem_members_iff {m : SetMap K V} {k : K} {v : V} :
    v ∈ members m k ↔ ∃ s, FiniteMap.get m k = some s ∧ v ∈ s := by
  unfold members
  cases FiniteMap.get m k <;> simp

theorem members_of_get {m : SetMap K V} {k : K} {s : Finset V} (h : FiniteMap.get m k = some s) :
    members m k = s := by
  simp [members, h]

theorem members_of_get_none {m : SetMap K V} {k : K} (h : FiniteMap.get m k = none) :
    members m k = ∅ := by
  simp [members, h]

@[simp] theorem members_empty (k : K) : members (∅ : SetMap K V) k = ∅ := by
  simp [members]

theorem members_erase (m : SetMap K V) (k k' : K) :
    members (FiniteMap.erase m k) k' = if k' = k then ∅ else members m k' := by
  unfold members
  rw [FiniteMap.get_erase]
  split <;> rfl

variable [DecidableEq V]

/-- List `v` under `k`. -/
def addMember (m : SetMap K V) (k : K) (v : V) : SetMap K V :=
  FiniteMap.insert m k (insert v (members m k))

/-- Strike `v` under `k`; a key without members is dropped. -/
def removeMember (m : SetMap K V) (k : K) (v : V) : SetMap K V :=
  match FiniteMap.get m k with
  | none => m
  | some s => if s.erase v = ∅ then FiniteMap.erase m k else FiniteMap.insert m k (s.erase v)

theorem mem_members_addMember {m : SetMap K V} {k k' : K} {v v' : V} :
    v' ∈ members (addMember m k v) k' ↔ (k' = k ∧ v' = v) ∨ v' ∈ members m k' := by
  unfold addMember
  rw [mem_members_iff]
  simp only [FiniteMap.get_insert]
  by_cases hk : k' = k
  · subst hk
    simp
  · simp [hk, mem_members_iff]

theorem members_removeMember (m : SetMap K V) (k k' : K) (v : V) :
    members (removeMember m k v) k' = if k' = k then (members m k).erase v else members m k' := by
  unfold removeMember
  cases hget : FiniteMap.get m k with
  | none =>
      by_cases heq : k' = k
      · simp [heq, members_of_get_none hget]
      · simp [heq]
  | some s =>
      rw [members_of_get hget]
      by_cases hempty : s.erase v = ∅
      · simp only [hempty, if_true, members_erase]
      · simp only [hempty, if_false]
        unfold members
        rw [FiniteMap.get_insert]
        split <;> rfl

theorem mem_members_removeMember {m : SetMap K V} {k k' : K} {v v' : V} :
    v' ∈ members (removeMember m k v) k' ↔ v' ∈ members m k' ∧ ¬(k' = k ∧ v' = v) := by
  rw [members_removeMember]
  by_cases hk : k' = k
  · subst hk
    simp [and_comm]
  · simp [hk]

/-- A key that is absent stays absent. -/
theorem get_removeMember_eq_none {m : SetMap K V} {k k' : K} {v : V}
    (h : FiniteMap.get m k' = none) : FiniteMap.get (removeMember m k v) k' = none := by
  unfold removeMember
  split
  · exact h
  · next s hget =>
      have hne : k' ≠ k := by
        rintro rfl
        cases hget.symm.trans h
      split
      · rw [FiniteMap.get_erase, if_neg hne, h]
      · rw [FiniteMap.get_insert_of_ne _ _ hne, h]

omit [DecidableEq V] in
/-- Every key that is present has a member. -/
def Inhabited (m : SetMap K V) : Prop := ∀ k s, FiniteMap.get m k = some s → s.Nonempty

namespace Inhabited

variable {m : SetMap K V}

omit [DecidableEq V] in
theorem empty : Inhabited (∅ : SetMap K V) := by
  intro k s h
  rw [FiniteMap.get_empty] at h
  cases h

omit [DecidableEq V] in
theorem erase (h : Inhabited m) (k : K) : Inhabited (FiniteMap.erase m k) := by
  intro k' s hget
  rw [FiniteMap.get_erase] at hget
  split at hget
  · cases hget
  · exact h k' s hget

theorem addMember (h : Inhabited m) (k : K) (v : V) : Inhabited (SetMap.addMember m k v) := by
  intro k' s hget
  rw [SetMap.addMember, FiniteMap.get_insert] at hget
  split at hget
  · cases hget
    exact Finset.insert_nonempty _ _
  · exact h k' s hget

/-- A set that loses its last member loses its key. -/
theorem removeMember (h : Inhabited m) (k : K) (v : V) :
    Inhabited (SetMap.removeMember m k v) := by
  unfold SetMap.removeMember
  split
  · exact h
  · next s _ =>
      split
      · exact h.erase k
      · next hleft =>
          intro k' s' hget
          rw [FiniteMap.get_insert] at hget
          split at hget
          · cases hget
            exact Finset.nonempty_iff_ne_empty.mpr hleft
          · exact h k' s' hget

/-- Listing a new member can be undone. -/
theorem removeMember_addMember (h : Inhabited m) {k : K} {v : V} (hnew : v ∉ members m k) :
    SetMap.removeMember (SetMap.addMember m k v) k v = m := by
  have hget : FiniteMap.get (SetMap.addMember m k v) k = some (insert v (members m k)) := by
    rw [SetMap.addMember, FiniteMap.get_insert, if_pos rfl]
  unfold SetMap.removeMember
  rw [hget]
  simp only [Finset.erase_insert hnew]
  cases hold : FiniteMap.get m k with
  | none =>
      rw [members_of_get_none hold, if_pos rfl]
      exact FiniteMap.erase_insert_of_get_eq_none hold _
  | some s =>
      rw [members_of_get hold, if_neg (Finset.nonempty_iff_ne_empty.mp (h k s hold))]
      apply FiniteMap.ext_get
      intro k'
      rw [SetMap.addMember, FiniteMap.get_insert, FiniteMap.get_insert]
      by_cases heq : k' = k
      · rw [if_pos heq, heq, hold]
      · rw [if_neg heq, if_neg heq]

end Inhabited

omit [DecidableEq V] in
/-- The number of members of all keys. -/
def size (m : SetMap K V) : ℕ := ∑ k ∈ m.keys, (members m k).card

omit [DecidableEq V] in
theorem size_eq_sum {m : SetMap K V} {ks : Finset K} (h : m.keys ⊆ ks) :
    size m = ∑ k ∈ ks, (members m k).card := by
  refine Finset.sum_subset h fun k _ hk => ?_
  have hnone : FiniteMap.get m k = none := by
    by_contra hne
    exact hk (FiniteMap.mem_keys_iff.mpr (Option.ne_none_iff_exists'.mp hne))
  rw [members_of_get_none hnone, Finset.card_empty]

omit [DecidableEq V] in
/-- An index with fewer members is smaller. -/
theorem size_le_size {m m' : SetMap K V} (h : ∀ k, members m k ⊆ members m' k) :
    size m ≤ size m' := by
  rw [size_eq_sum (Finset.subset_union_left : m.keys ⊆ m.keys ∪ m'.keys),
    size_eq_sum (Finset.subset_union_right : m'.keys ⊆ m.keys ∪ m'.keys)]
  exact Finset.sum_le_sum fun k _ => Finset.card_le_card (h k)

omit [DecidableEq V] in
/-- Dropping a key takes its members off the size. -/
theorem size_erase_add {m : SetMap K V} {k : K} {s : Finset V} (h : FiniteMap.get m k = some s) :
    size (FiniteMap.erase m k) + s.card = size m := by
  have hk : k ∈ m.keys := FiniteMap.mem_keys_iff.mpr ⟨s, h⟩
  have hsub : (FiniteMap.erase m k).keys ⊆ m.keys.erase k := (FiniteMap.keys_erase m k).subset
  rw [size_eq_sum hsub, size, ← Finset.add_sum_erase _ _ hk, members_of_get h, Nat.add_comm]
  congr 1
  refine Finset.sum_congr rfl fun k' hk' => ?_
  rw [members_erase, if_neg (Finset.ne_of_mem_erase hk')]

end SetMap

end Foundation
