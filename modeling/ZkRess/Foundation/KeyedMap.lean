import ZkRess.Foundation.FiniteMap

/-!
# Maps whose values know their key

A store that files every value under the value's own identifier is a finite map
with one extra property: the value found under `k` has key `k`.  `KeyedMap key`
carries that property as a field, so a store in which a value sits under a
foreign key cannot be built, and no invariant has to say so again.

The interface is that of `FiniteMap`, except that `insert` takes no key: it is
the value's.
-/

namespace Foundation

universe u v

variable {K : Type u} {V : Type v} [DecidableEq K]

/-- A finite map that stores each value under its own key. -/
structure KeyedMap (key : V → K) where
  /-- The underlying map. -/
  toMap : FiniteMap K V
  /-- What is found under `k` has key `k`. -/
  keyed : ∀ k v, toMap.get k = some v → key v = k

namespace KeyedMap

variable {key : V → K}

/-- The value with key `k`. -/
def get (m : KeyedMap key) (k : K) : Option V := m.toMap.get k

/-- The number of values. -/
def card (m : KeyedMap key) : ℕ := m.toMap.keys.card

/-- The map without values. -/
def empty : KeyedMap key where
  toMap := ∅
  keyed k v h := by simp at h

instance : EmptyCollection (KeyedMap key) := ⟨empty⟩

/-- Store `v` under its own key. -/
def insert (m : KeyedMap key) (v : V) : KeyedMap key where
  toMap := m.toMap.insert (key v) v
  keyed k w h := by
    rw [FiniteMap.get_insert] at h
    split at h
    · next heq => cases h; exact heq.symm
    · exact m.keyed k w h

/-- Drop the value with key `k`. -/
def erase (m : KeyedMap key) (k : K) : KeyedMap key where
  toMap := m.toMap.erase k
  keyed k' w h := by
    rw [FiniteMap.get_erase] at h
    split at h
    · cases h
    · exact m.keyed k' w h

/-- Drop the values whose key is in `ks`. -/
def eraseAll (m : KeyedMap key) (ks : Finset K) : KeyedMap key where
  toMap := m.toMap.eraseAll ks
  keyed k w h := by
    rw [FiniteMap.get_eraseAll] at h
    split at h
    · cases h
    · exact m.keyed k w h

theorem key_of_get {m : KeyedMap key} {k : K} {v : V} (h : m.get k = some v) : key v = k :=
  m.keyed k v h

/-- Two stores that read the same are the same. -/
theorem ext_get {m₁ m₂ : KeyedMap key} (h : ∀ k, m₁.get k = m₂.get k) : m₁ = m₂ := by
  cases m₁
  cases m₂
  congr
  exact FiniteMap.ext_get h

@[simp] theorem get_empty (k : K) : (∅ : KeyedMap key).get k = none :=
  FiniteMap.get_empty k

theorem get_insert (m : KeyedMap key) (v : V) (k : K) :
    (m.insert v).get k = if k = key v then some v else m.get k :=
  FiniteMap.get_insert m.toMap (key v) k v

@[simp] theorem get_insert_self (m : KeyedMap key) (v : V) : (m.insert v).get (key v) = some v := by
  simp [get_insert]

theorem get_erase (m : KeyedMap key) (k k' : K) :
    (m.erase k).get k' = if k' = k then none else m.get k' :=
  FiniteMap.get_erase m.toMap k k'

theorem get_eraseAll (m : KeyedMap key) (ks : Finset K) (k : K) :
    (m.eraseAll ks).get k = if k ∈ ks then none else m.get k :=
  FiniteMap.get_eraseAll m.toMap ks k

/-- Storing a new value can be undone. -/
theorem erase_insert_of_get_eq_none {m : KeyedMap key} {v : V} (h : m.get (key v) = none) :
    (m.insert v).erase (key v) = m := by
  apply ext_get
  intro k
  show ((m.toMap.insert (key v) v).erase (key v)).get k = m.toMap.get k
  rw [FiniteMap.erase_insert_of_get_eq_none h]

/-- Distinct keys that are all present are at most as many as the map has values. -/
theorem length_le_card {m : KeyedMap key} {ks : List K} (hnodup : ks.Nodup)
    (hmem : ∀ k ∈ ks, ∃ v, m.get k = some v) : ks.length ≤ m.card :=
  FiniteMap.length_le_card_keys hnodup hmem

end KeyedMap

end Foundation
