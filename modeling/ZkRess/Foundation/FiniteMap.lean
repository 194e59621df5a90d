import Mathlib.Data.Finmap
import Mathlib.Data.Finset.Max
import Mathlib.Data.List.Induction

/-!
# Finite maps with a read-back interface

Mathlib's `Finmap` is the carrier: a finite set of key/value pairs with at most
one pair a key, equal as soon as the lookups are.  This module fixes the
non-dependent instance, spells the three operations in the order a program
writes them (`m.insert k v`, `m.erase k`, `m.get k`), and gives each exactly one
lemma: what `get` reads after it.  Every later fact about a map is derived from
those, so nothing downstream unfolds an operation.

Two operations of ordered maps are added for linearly ordered keys:

* `firstEntry?` — the entry with the least key;
* `popFirstWhile` — the loop "while the first key satisfies `p`, remove it",
  with the entries it removed, in ascending order.

`popFirstWhile_get` and `mem_popFirstWhile` say that for a downward closed `p`
the loop removes exactly the entries that satisfy `p`, and keeps the rest.
-/

namespace Foundation

universe u v

/-- A finite map from `K` to `V`. -/
abbrev FiniteMap (K : Type u) (V : Type v) := Finmap (fun _ : K => V)

namespace FiniteMap

variable {K : Type u} {V : Type v} [DecidableEq K]

/-- The value stored under `k`. -/
def get (m : FiniteMap K V) (k : K) : Option V := Finmap.lookup k m

/-- Store `v` under `k`, replacing what was there. -/
def insert (m : FiniteMap K V) (k : K) (v : V) : FiniteMap K V := Finmap.insert k v m

/-- Drop the entry under `k`, if there is one. -/
def erase (m : FiniteMap K V) (k : K) : FiniteMap K V := Finmap.erase k m

/-- Two maps that read the same are the same. -/
theorem ext_get {m₁ m₂ : FiniteMap K V} (h : ∀ k, m₁.get k = m₂.get k) : m₁ = m₂ :=
  Finmap.ext_lookup h

@[simp] theorem get_empty (k : K) : (∅ : FiniteMap K V).get k = none :=
  Finmap.lookup_empty k

theorem get_insert (m : FiniteMap K V) (k k' : K) (v : V) :
    (m.insert k v).get k' = if k' = k then some v else m.get k' := by
  unfold get insert
  split
  · next heq => rw [heq, Finmap.lookup_insert]
  · next hne => exact Finmap.lookup_insert_of_ne m hne

@[simp] theorem get_insert_self (m : FiniteMap K V) (k : K) (v : V) :
    (m.insert k v).get k = some v := by
  simp [get_insert]

theorem get_insert_of_ne (m : FiniteMap K V) {k k' : K} (v : V) (hne : k' ≠ k) :
    (m.insert k v).get k' = m.get k' := by
  simp [get_insert, hne]

theorem get_erase (m : FiniteMap K V) (k k' : K) :
    (m.erase k).get k' = if k' = k then none else m.get k' := by
  unfold get erase
  split
  · next heq => rw [heq, Finmap.lookup_erase]
  · next hne => exact Finmap.lookup_erase_ne hne

@[simp] theorem get_erase_self (m : FiniteMap K V) (k : K) : (m.erase k).get k = none := by
  simp [get_erase]

theorem get_erase_of_ne (m : FiniteMap K V) {k k' : K} (hne : k' ≠ k) :
    (m.erase k).get k' = m.get k' := by
  simp [get_erase, hne]

/-- Erasing an absent key changes nothing. -/
theorem erase_of_get_eq_none {m : FiniteMap K V} {k : K} (h : m.get k = none) :
    m.erase k = m := by
  refine ext_get fun k' => ?_
  rw [get_erase]
  split
  · next heq => rw [heq, h]
  · rfl

/-- Storing under a new key can be undone. -/
theorem erase_insert_of_get_eq_none {m : FiniteMap K V} {k : K} (h : m.get k = none) (v : V) :
    (m.insert k v).erase k = m := by
  apply ext_get
  intro k'
  rw [get_erase, get_insert]
  by_cases heq : k' = k
  · rw [if_pos heq, heq, h]
  · rw [if_neg heq, if_neg heq]

theorem mem_keys_iff {m : FiniteMap K V} {k : K} : k ∈ m.keys ↔ ∃ v, m.get k = some v := by
  rw [Finmap.mem_keys, Finmap.mem_iff]
  rfl

@[simp] theorem keys_erase (m : FiniteMap K V) (k : K) : (m.erase k).keys = m.keys.erase k :=
  Finmap.keys_erase k m

/-- Distinct keys that are all present are at most as many as the map has. -/
theorem length_le_card_keys {m : FiniteMap K V} {ks : List K} (hnodup : ks.Nodup)
    (hmem : ∀ k ∈ ks, ∃ v, m.get k = some v) : ks.length ≤ m.keys.card := by
  rw [← List.toFinset_card_of_nodup hnodup]
  refine Finset.card_le_card fun k hk => ?_
  exact mem_keys_iff.mpr (hmem k (List.mem_toFinset.mp hk))

/-! ## Removing a set of keys -/

instance : LeftCommutative (fun (k : K) (m : FiniteMap K V) => m.erase k) where
  left_comm _ _ _ := Finmap.erase_erase

/-- Drop the entries of every key in `ks`. -/
def eraseAll (m : FiniteMap K V) (ks : Finset K) : FiniteMap K V :=
  ks.val.foldr (fun (k : K) (m : FiniteMap K V) => m.erase k) m

theorem get_eraseAll (m : FiniteMap K V) (ks : Finset K) (k : K) :
    (m.eraseAll ks).get k = if k ∈ ks then none else m.get k := by
  have aux : ∀ s : Multiset K,
      FiniteMap.get (s.foldr (fun (k : K) (m : FiniteMap K V) => m.erase k) m) k
        = if k ∈ s then none else m.get k := by
    intro s
    induction s using Multiset.induction with
    | empty => simp
    | cons a s ih =>
        rw [Multiset.foldr_cons, get_erase, ih]
        by_cases heq : k = a <;> simp [heq]
  exact aux ks.val

theorem get_foldl_eraseAll {E : Type*} (keys : E → Finset K) (k : K) :
    ∀ (es : List E) (m : FiniteMap K V),
      (es.foldl (fun m e => m.eraseAll (keys e)) m).get k
        = if ∃ e ∈ es, k ∈ keys e then none else m.get k := by
  intro es
  induction es with
  | nil => intro m; simp
  | cons e es ih =>
      intro m
      rw [List.foldl_cons, ih, get_eraseAll]
      by_cases hrest : ∃ e ∈ es, k ∈ keys e
      · simp [hrest]
      · by_cases hk : k ∈ keys e <;> simp [hrest, hk]

/-! ## Writing and withdrawing a list of entries -/

section Lists

variable {E : Type*} (key : E → K) (val : E → V)

/-- Store every element of `es` under its key, in order. -/
def insertList (es : List E) (m : FiniteMap K V) : FiniteMap K V :=
  es.foldl (fun m e => m.insert (key e) (val e)) m

theorem get_insertList_of_forall_ne (k : K) :
    ∀ (es : List E) (m : FiniteMap K V), (∀ e ∈ es, key e ≠ k) →
      (insertList key val es m).get k = m.get k := by
  intro es
  induction es with
  | nil => intro m _; rfl
  | cons e es ih =>
      intro m hne
      have hrest := ih (m.insert (key e) (val e)) fun e' he' => hne e' (List.mem_cons_of_mem _ he')
      rw [insertList, List.foldl_cons]
      exact hrest.trans (get_insert_of_ne m _ (Ne.symm (hne e List.mem_cons_self)))

/-- What is read under `k` was written by some element, or was there before. -/
theorem get_insertList_cases {k : K} {v : V} :
    ∀ {es : List E} {m : FiniteMap K V}, (insertList key val es m).get k = some v →
      (∃ e ∈ es, key e = k ∧ val e = v) ∨
        ((∀ e ∈ es, key e ≠ k) ∧ m.get k = some v) := by
  intro es
  induction es with
  | nil => intro m h; exact .inr ⟨by simp, h⟩
  | cons e es ih =>
      intro m h
      rw [insertList, List.foldl_cons] at h
      rcases ih h with ⟨e', he', hk, hv⟩ | ⟨hne, hget⟩
      · exact .inl ⟨e', List.mem_cons_of_mem _ he', hk, hv⟩
      · rw [get_insert] at hget
        split at hget
        · next heq =>
            cases hget
            exact .inl ⟨e, List.mem_cons_self, heq.symm, rfl⟩
        · next hk =>
            refine .inr ⟨fun e' he' => ?_, hget⟩
            rcases List.mem_cons.mp he' with rfl | he'
            · exact fun heq => hk heq.symm
            · exact hne e' he'

private theorem insertList_present {k : K} :
    ∀ {es : List E} {m : FiniteMap K V}, (∃ v, m.get k = some v) →
      ∃ v, (insertList key val es m).get k = some v := by
  intro es
  induction es with
  | nil => intro m h; exact h
  | cons e es ih =>
      intro m h
      rw [insertList, List.foldl_cons]
      refine ih ?_
      by_cases hk : k = key e
      · exact ⟨val e, hk ▸ get_insert_self m (key e) (val e)⟩
      · rw [get_insert_of_ne m _ hk]
        exact h

/-- There is an entry where one was written, or was before. -/
theorem exists_get_insertList {k : K} {es : List E} {m : FiniteMap K V}
    (h : (∃ e ∈ es, key e = k) ∨ ∃ v, m.get k = some v) :
    ∃ v, (insertList key val es m).get k = some v := by
  rcases h with ⟨e, he, rfl⟩ | hheld
  · obtain ⟨before, after, rfl⟩ := List.append_of_mem he
    rw [insertList, List.foldl_append, List.foldl_cons]
    exact insertList_present key val ⟨val e, get_insert_self _ _ _⟩
  · exact insertList_present key val hheld

/-- An element is read back under its key when no other element disagrees. -/
theorem get_insertList_of_mem {e : E} {es : List E} (m : FiniteMap K V) (he : e ∈ es)
    (hagree : ∀ e' ∈ es, key e' = key e → val e' = val e) :
    (insertList key val es m).get (key e) = some (val e) := by
  obtain ⟨v, hv⟩ := exists_get_insertList key val (m := m) (.inl ⟨e, he, rfl⟩)
  rcases get_insertList_cases key val hv with ⟨e', he', hk, hval⟩ | ⟨hne, -⟩
  · rw [hv, ← hval, hagree e' he' hk]
  · exact absurd rfl (hne e he)

/-- What was there before stays when no element disagrees. -/
theorem get_insertList_of_agree {k : K} {v : V} {es : List E} {m : FiniteMap K V}
    (hagree : ∀ e ∈ es, key e = k → val e = v)
    (hheld : (∀ e ∈ es, key e ≠ k) → m.get k = some v) :
    (insertList key val es m).get k = some v := by
  by_cases hwritten : ∃ e ∈ es, key e = k
  · obtain ⟨e, he, rfl⟩ := hwritten
    rw [← hagree e he rfl]
    exact get_insertList_of_mem key val m he fun e' he' heq =>
      (hagree e' he' heq).trans (hagree e he rfl).symm
  · have hne : ∀ e ∈ es, key e ≠ k := fun e he heq => hwritten ⟨e, he, heq⟩
    rw [get_insertList_of_forall_ne key val k es m hne]
    exact hheld hne

/-- Withdraw every element of `es` whose entry is still the one it wrote. -/
def withdrawList [DecidableEq V] (es : List E) (m : FiniteMap K V) : FiniteMap K V :=
  es.foldl (fun m e => if m.get (key e) = some (val e) then m.erase (key e) else m) m

/-- Exactly the entries of `es` are gone. -/
theorem get_withdrawList [DecidableEq V] {k : K} {v : V} :
    ∀ {es : List E} {m : FiniteMap K V}, (withdrawList key val es m).get k = some v ↔
      m.get k = some v ∧ ¬∃ e ∈ es, key e = k ∧ val e = v := by
  intro es
  induction es with
  | nil => intro m; simp [withdrawList]
  | cons e es ih =>
      intro m
      rw [withdrawList, List.foldl_cons]
      refine ih.trans ?_
      by_cases hkept : m.get (key e) = some (val e)
      · rw [if_pos hkept, get_erase]
        by_cases hk : k = key e
        · subst hk
          simp only [if_true, reduceCtorEq, false_and, hkept, Option.some_inj, List.mem_cons,
            exists_eq_or_imp, true_and, not_or, false_iff, not_and]
          exact fun heq hne => absurd heq hne
        · simp [hk, Ne.symm hk]
      · rw [if_neg hkept]
        simp only [List.mem_cons, exists_eq_or_imp, not_or, and_congr_right_iff]
        intro hget
        refine ⟨fun hrest => ⟨?_, hrest⟩, And.right⟩
        rintro ⟨rfl, rfl⟩
        exact hkept hget

end Lists

/-! ## Values -/

/-- Some key holds the value `v`. -/
def ContainsValue (m : FiniteMap K V) (v : V) : Prop := ∃ k, m.get k = some v

theorem containsValue_iff_keys {m : FiniteMap K V} {v : V} :
    m.ContainsValue v ↔ ∃ k ∈ m.keys, m.get k = some v :=
  ⟨fun ⟨k, hk⟩ => ⟨k, mem_keys_iff.mpr ⟨v, hk⟩, hk⟩, fun ⟨k, _, hk⟩ => ⟨k, hk⟩⟩

instance decidableContainsValue [DecidableEq V] (m : FiniteMap K V) (v : V) :
    Decidable (m.ContainsValue v) :=
  decidable_of_iff _ containsValue_iff_keys.symm

/-! ## The first entry of an ordered map -/

section Ordered

variable [LinearOrder K]

/-- The entry with the least key. -/
def firstEntry? (m : FiniteMap K V) : Option (K × V) :=
  match m.keys.min with
  | none => none
  | some k => (m.get k).map fun v => (k, v)

theorem firstEntry?_eq_none {m : FiniteMap K V} (h : m.firstEntry? = none) (k : K) :
    m.get k = none := by
  unfold firstEntry? at h
  split at h
  · next hmin =>
      have hempty : m.keys = ∅ := Finset.min_eq_top.mp hmin
      by_contra hne
      obtain ⟨v, hv⟩ := Option.ne_none_iff_exists'.mp hne
      have : k ∈ m.keys := mem_keys_iff.mpr ⟨v, hv⟩
      simp [hempty] at this
  · next k' hmin =>
      obtain ⟨v, hv⟩ := mem_keys_iff.mp (Finset.mem_of_min hmin)
      simp [hv] at h

theorem firstEntry?_eq_some {m : FiniteMap K V} {k : K} {v : V}
    (h : m.firstEntry? = some (k, v)) :
    m.get k = some v ∧ ∀ k' v', m.get k' = some v' → k ≤ k' := by
  unfold firstEntry? at h
  split at h
  · cases h
  · next k₀ hmin =>
      rw [Option.map_eq_some_iff] at h
      obtain ⟨v₀, hv₀, heq⟩ := h
      cases heq
      refine ⟨hv₀, fun k' v' hv' => ?_⟩
      exact Finset.min_le_of_eq (mem_keys_iff.mpr ⟨v', hv'⟩) hmin

/-- Remove first entries while their key satisfies `p`, and collect them.  The
counter bounds the number of removals; `m.keys.card` of them are always enough. -/
def popFirstWhile (p : K → Bool) : ℕ → FiniteMap K V → List (K × V) × FiniteMap K V
  | 0, m => ([], m)
  | n + 1, m =>
      match m.firstEntry? with
      | none => ([], m)
      | some (k, v) =>
          if p k then
            let (popped, rest) := popFirstWhile p n (m.erase k)
            ((k, v) :: popped, rest)
          else ([], m)

variable {p : K → Bool}

omit [LinearOrder K] in
private theorem card_keys_erase_lt {m : FiniteMap K V} {k : K} {v : V} (h : m.get k = some v)
    {n : ℕ} (hn : m.keys.card ≤ n + 1) : (m.erase k).keys.card ≤ n := by
  have hk : k ∈ m.keys := mem_keys_iff.mpr ⟨v, h⟩
  rw [keys_erase, Finset.card_erase_of_mem hk]
  omega

/-- **What the loop keeps**: for a downward closed `p`, exactly the entries whose
key does not satisfy it. -/
theorem popFirstWhile_get (hp : ∀ a b, a ≤ b → p b = true → p a = true) (k : K) :
    ∀ (n : ℕ) (m : FiniteMap K V), m.keys.card ≤ n →
      (popFirstWhile p n m).2.get k = if p k then none else m.get k := by
  intro n
  induction n with
  | zero =>
      intro m hcard
      have hnone : m.get k = none := by
        by_contra hne
        obtain ⟨v, hv⟩ := Option.ne_none_iff_exists'.mp hne
        have := Finset.card_pos.mpr ⟨k, mem_keys_iff.mpr ⟨v, hv⟩⟩
        omega
      simp [popFirstWhile, hnone]
  | succ n ih =>
      intro m hcard
      unfold popFirstWhile
      cases hfirst : m.firstEntry? with
      | none => simp [firstEntry?_eq_none hfirst k]
      | some e =>
          obtain ⟨k₀, v₀⟩ := e
          obtain ⟨hget, hleast⟩ := firstEntry?_eq_some hfirst
          by_cases hk₀ : p k₀ = true
          · simp only [hk₀, if_true]
            rw [ih _ (card_keys_erase_lt hget hcard), get_erase]
            by_cases heq : k = k₀
            · simp [heq, hk₀]
            · simp [heq]
          · simp only [hk₀]
            by_cases hk : p k = true
            · cases hv : m.get k with
              | none => simp [hv]
              | some v => exact absurd (hp _ _ (hleast k v hv) hk) hk₀
            · simp [hk]

/-- **What the loop removes**: for a downward closed `p`, exactly the entries
whose key satisfies it. -/
theorem mem_popFirstWhile (hp : ∀ a b, a ≤ b → p b = true → p a = true) (k : K) (v : V) :
    ∀ (n : ℕ) (m : FiniteMap K V), m.keys.card ≤ n →
      ((k, v) ∈ (popFirstWhile p n m).1 ↔ p k = true ∧ m.get k = some v) := by
  intro n
  induction n with
  | zero =>
      intro m hcard
      have hnone : m.get k = none := by
        by_contra hne
        obtain ⟨v, hv⟩ := Option.ne_none_iff_exists'.mp hne
        have := Finset.card_pos.mpr ⟨k, mem_keys_iff.mpr ⟨v, hv⟩⟩
        omega
      simp [popFirstWhile, hnone]
  | succ n ih =>
      intro m hcard
      unfold popFirstWhile
      cases hfirst : m.firstEntry? with
      | none => simp [firstEntry?_eq_none hfirst k]
      | some e =>
          obtain ⟨k₀, v₀⟩ := e
          obtain ⟨hget, hleast⟩ := firstEntry?_eq_some hfirst
          by_cases hk₀ : p k₀ = true
          · simp only [hk₀, if_true, List.mem_cons]
            rw [ih _ (card_keys_erase_lt hget hcard), get_erase]
            by_cases heq : k = k₀
            · subst heq
              simp [hk₀, hget, eq_comm]
            · simp [heq]
          · simp only [hk₀]
            constructor
            · intro h
              simp at h
            · rintro ⟨hk, hv⟩
              exact absurd (hp _ _ (hleast k v hv) hk) hk₀

/-- The loop does nothing when no key satisfies `p`. -/
theorem popFirstWhile_of_none {m : FiniteMap K V} (h : ∀ k, p k = true → m.get k = none) (n : ℕ) :
    popFirstWhile p n m = ([], m) := by
  cases n with
  | zero => rfl
  | succ n =>
      unfold popFirstWhile
      cases hfirst : m.firstEntry? with
      | none => rfl
      | some e =>
          obtain ⟨k, v⟩ := e
          have hget := (firstEntry?_eq_some hfirst).1
          have hk : ¬p k = true := by
            intro hk
            cases hget.symm.trans (h k hk)
          simp only [hk]
          rfl

end Ordered

end FiniteMap

end Foundation
