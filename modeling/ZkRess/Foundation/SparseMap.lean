import ZkRess.Foundation.MapEntries

/-!
# Committed maps, partly revealed

A party that knows only a commitment to a finite map can work with a part of it: a
*sparse map* shows the entries of some keys, shows that other keys have none, and
hides the rest behind the commitment.  Merkle tries with pruned branches are the
example.

`SparseMap` is the interface of such a structure, and `Lawful` what one may rely on:
what is shown is what the committed map has, changes are exact or fail, and fail on
hidden keys.  What is hidden cannot be told from what is absent by a lookup of the
value alone (`valueOf`); `valueOf_eq_iff` says for which keys the lookup is right.
-/

namespace Foundation

universe u v w

/-- A structure that holds a part of a committed map. -/
structure SparseMap (K : Type u) (V : Type v) (H : Type w) [DecidableEq K] where
  Carrier : Type
  Error : Type
  /-- The commitment to a map. -/
  commit : FiniteMap K V → H
  /-- The structure is a part of this map. -/
  Reveals : Carrier → FiniteMap K V → Prop
  /-- What is shown of a key: nothing (`none`), that it has no entry (`some none`), or
  its value. -/
  shows : Carrier → K → Option (Option V)
  empty : Carrier
  wipe : Carrier → Except Error Carrier
  update : Carrier → K → V → Except Error Carrier
  remove : Carrier → K → Except Error Carrier
  /-- The commitment; computing it may update what is cached. -/
  root : Carrier → H × Carrier

namespace SparseMap

variable {K : Type u} {V : Type v} {H : Type w} [DecidableEq K] (M : SparseMap K V H)

/-- **Exact or failing**: what is shown is right, what succeeds does to the whole map
what it does to the part, and a hidden key is not changed. -/
structure Lawful : Prop where
  shows_sound : ∀ {t m k v}, M.Reveals t m → M.shows t k = some v → m.get k = v
  reveals_empty : M.Reveals M.empty ∅
  reveals_wipe : ∀ {t m t'}, M.Reveals t m → M.wipe t = .ok t' → M.Reveals t' ∅
  reveals_update : ∀ {t m k v t'}, M.Reveals t m → M.update t k v = .ok t' →
    M.Reveals t' (m.insert k v)
  reveals_remove : ∀ {t m k t'}, M.Reveals t m → M.remove t k = .ok t' →
    M.Reveals t' (m.erase k)
  shown_of_update : ∀ {t m k v t'}, M.Reveals t m → M.update t k v = .ok t' → M.shows t k ≠ none
  shown_of_remove : ∀ {t m k t'}, M.Reveals t m → M.remove t k = .ok t' → M.shows t k ≠ none
  root_eq : ∀ {t m}, M.Reveals t m → (M.root t).1 = M.commit m
  reveals_root : ∀ {t m}, M.Reveals t m → M.Reveals (M.root t).2 m

/-- The value under a key, as far as it is shown. -/
def valueOf (t : M.Carrier) (k : K) : Option V := (M.shows t k).join

/-- Store a value, or drop the entry. -/
def write (t : M.Carrier) (k : K) : Option V → Except M.Error M.Carrier
  | some v => M.update t k v
  | none => M.remove t k

/-- Write the entries of a list, one after the other, up to the first error. -/
def writeAll : M.Carrier → List (K × Option V) → Except M.Error M.Carrier
  | t, [] => .ok t
  | t, (k, v) :: es =>
      match M.write t k v with
      | .error error => .error error
      | .ok t' => writeAll t' es

variable {M} {t t' : M.Carrier} {m : FiniteMap K V}

namespace Lawful

/-- The lookup finds what is in the map. -/
theorem get_of_valueOf (h : M.Lawful) (hreveals : M.Reveals t m) {k : K} {v : V}
    (hvalue : M.valueOf t k = some v) : m.get k = some v :=
  h.shows_sound hreveals (Option.join_eq_some_iff.mp hvalue)

/-- **Where the lookup is right**: at the keys that are shown, and those without an
entry. -/
theorem valueOf_eq_iff (h : M.Lawful) (hreveals : M.Reveals t m) {k : K} :
    M.valueOf t k = m.get k ↔ M.shows t k ≠ none ∨ m.get k = none := by
  constructor
  · intro hvalue
    by_cases hshows : M.shows t k = none
    · right
      rw [← hvalue, valueOf, hshows]
      rfl
    · exact .inl hshows
  · rintro (hshown | habsent)
    · obtain ⟨v, hv⟩ := Option.ne_none_iff_exists'.mp hshown
      rw [valueOf, hv, h.shows_sound hreveals hv]
      rfl
    · rw [habsent, Option.eq_none_iff_forall_ne_some]
      intro v hvalue
      cases habsent.symm.trans (h.get_of_valueOf hreveals hvalue)

theorem reveals_write (h : M.Lawful) (hreveals : M.Reveals t m) {k : K} {v : Option V}
    (hok : M.write t k v = .ok t') : M.Reveals t' (m.write k v) := by
  cases v with
  | none => exact h.reveals_remove hreveals hok
  | some v => exact h.reveals_update hreveals hok

theorem shown_of_write (h : M.Lawful) (hreveals : M.Reveals t m) {k : K} {v : Option V}
    (hok : M.write t k v = .ok t') : M.shows t k ≠ none := by
  cases v with
  | none => exact h.shown_of_remove hreveals hok
  | some v => exact h.shown_of_update hreveals hok

/-- Writing a list of entries is exact. -/
theorem reveals_writeAll (h : M.Lawful) {es : List (K × Option V)} (hreveals : M.Reveals t m)
    (hok : M.writeAll t es = .ok t') : M.Reveals t' (m.writeAll es) := by
  induction es generalizing t m with
  | nil =>
      obtain rfl : t = t' := Except.ok.inj hok
      exact hreveals
  | cons e es ih =>
      obtain ⟨k, v⟩ := e
      unfold writeAll at hok
      split at hok
      · cases hok
      · next hwrite => exact ih (h.reveals_write hreveals hwrite) hok

end Lawful

end SparseMap

end Foundation
