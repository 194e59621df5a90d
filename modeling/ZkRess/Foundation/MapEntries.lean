import Mathlib.Data.Finset.Sort
import ZkRess.Foundation.FiniteMap

/-!
# Finite maps by their entries

* `tabulate keys f` — the map that has `f k` under each key of a finite set;
* `mapEntries m f` — each value replaced, knowing its key;
* `sortedEntries m` — the entries in ascending order of their keys, each once;
* `write`, `writeAll` — an entry stored or dropped, and a list of them.

As in `FiniteMap`, each operation has one lemma for what `get` reads.
-/

namespace Foundation

namespace FiniteMap

universe u v w

variable {K : Type u} {V : Type v} {W : Type w} [DecidableEq K]

theorem get_eq_none_of_not_mem_keys {m : FiniteMap K V} {k : K} (hk : k ∉ m.keys) :
    m.get k = none :=
  Option.eq_none_iff_forall_ne_some.mpr fun v hget => hk (mem_keys_iff.mpr ⟨v, hget⟩)

/-! ## Maps from functions -/

/-- Store what the function has for the key, if it has something. -/
private def put (f : K → Option V) (k : K) (m : FiniteMap K V) : FiniteMap K V :=
  match f k with
  | some v => m.insert k v
  | none => m

private theorem get_put (f : K → Option V) (k k' : K) (m : FiniteMap K V) :
    (put f k m).get k' = if k' = k ∧ (f k).isSome then f k else m.get k' := by
  unfold put
  cases hf : f k with
  | none => simp
  | some v => rw [get_insert]; simp

private instance (f : K → Option V) : LeftCommutative (put f) where
  left_comm k₁ k₂ m := by
    refine ext_get fun k => ?_
    simp only [get_put]
    by_cases h₁ : k = k₁ <;> by_cases h₂ : k = k₂ <;> simp_all

/-- The map with `f k` under every key of the set for which there is one. -/
def tabulate (ks : Finset K) (f : K → Option V) : FiniteMap K V :=
  ks.val.foldr (put f) ∅

theorem get_tabulate (ks : Finset K) (f : K → Option V) (k : K) :
    (tabulate ks f).get k = if k ∈ ks then f k else none := by
  have aux : ∀ s : Multiset K,
      FiniteMap.get (s.foldr (put f) ∅) k = if k ∈ s then f k else none := by
    intro s
    induction s using Multiset.induction with
    | empty => simp
    | cons a s ih =>
        rw [Multiset.foldr_cons, get_put, ih]
        by_cases heq : k = a
        · subst heq
          cases hf : f k <;> simp
        · simp [heq]
  exact aux ks.val

/-- A key outside the set reads nothing, so where `f` has nothing outside the set
the map reads as `f`. -/
theorem get_tabulate_of_forall {ks : Finset K} {f : K → Option V}
    (h : ∀ k, k ∉ ks → f k = none) (k : K) : (tabulate ks f).get k = f k := by
  rw [get_tabulate]
  split
  · rfl
  · next hk => exact (h k hk).symm

/-- Each value replaced by what the function makes of the entry. -/
def mapEntries (m : FiniteMap K V) (f : K → V → W) : FiniteMap K W :=
  tabulate m.keys fun k => (m.get k).map (f k)

@[simp] theorem get_mapEntries (m : FiniteMap K V) (f : K → V → W) (k : K) :
    (m.mapEntries f).get k = (m.get k).map (f k) := by
  unfold mapEntries
  rw [get_tabulate_of_forall]
  intro k hk
  rw [get_eq_none_of_not_mem_keys hk]
  rfl

/-! ## Entries in order -/

section Sorted

variable (r : K → K → Prop) [DecidableRel r] [IsTrans K r] [Std.Antisymm r] [Std.Total r]

/-- The entries, in ascending order of their keys. -/
def sortedEntries (m : FiniteMap K V) : List (K × V) :=
  (m.keys.sort r).filterMap fun k => (m.get k).map fun v => (k, v)

theorem mem_sortedEntries {m : FiniteMap K V} {k : K} {v : V} :
    (k, v) ∈ m.sortedEntries r ↔ m.get k = some v := by
  unfold sortedEntries
  simp only [List.mem_filterMap, Finset.mem_sort]
  constructor
  · rintro ⟨k', -, hget⟩
    obtain ⟨v', hv', heq⟩ := Option.map_eq_some_iff.mp hget
    obtain ⟨rfl, rfl⟩ := Prod.mk.inj heq
    exact hv'
  · intro hget
    exact ⟨k, mem_keys_iff.mpr ⟨v, hget⟩, by rw [hget]; rfl⟩

/-- No two entries share a key. -/
theorem sortedEntries_pairwise (m : FiniteMap K V) :
    (m.sortedEntries r).Pairwise fun e e' => e.1 ≠ e'.1 := by
  unfold sortedEntries
  rw [List.pairwise_filterMap]
  refine (Finset.sort_nodup m.keys r).imp fun hne e he e' he' => ?_
  obtain ⟨v, -, rfl⟩ := Option.map_eq_some_iff.mp he
  obtain ⟨v', -, rfl⟩ := Option.map_eq_some_iff.mp he'
  exact hne

end Sorted

/-! ## Writing entries -/

/-- Store the value, or drop the entry. -/
def write (m : FiniteMap K V) (k : K) : Option V → FiniteMap K V
  | some v => m.insert k v
  | none => m.erase k

theorem get_write (m : FiniteMap K V) (k k' : K) (v : Option V) :
    (m.write k v).get k' = if k' = k then v else m.get k' := by
  cases v with
  | none => exact get_erase m k k'
  | some v => exact get_insert m k k' v

/-- Write the entries of a list, one after the other. -/
def writeAll (m : FiniteMap K V) (es : List (K × Option V)) : FiniteMap K V :=
  es.foldl (fun m e => m.write e.1 e.2) m

@[simp] theorem writeAll_nil (m : FiniteMap K V) : m.writeAll [] = m := rfl

@[simp] theorem writeAll_cons (m : FiniteMap K V) (e : K × Option V) (es : List (K × Option V)) :
    m.writeAll (e :: es) = (m.write e.1 e.2).writeAll es := rfl

theorem get_writeAll_of_forall_ne {k : K} {es : List (K × Option V)} (h : ∀ e ∈ es, e.1 ≠ k)
    (m : FiniteMap K V) : (m.writeAll es).get k = m.get k := by
  induction es generalizing m with
  | nil => rfl
  | cons e es ih =>
      rw [writeAll_cons, ih fun e' he' => h e' (List.mem_cons_of_mem _ he'), get_write,
        if_neg fun heq => h e List.mem_cons_self heq.symm]

/-- With distinct keys, each entry is what is read afterwards. -/
theorem get_writeAll_of_mem {k : K} {v : Option V} {es : List (K × Option V)}
    (hdistinct : es.Pairwise fun e e' => e.1 ≠ e'.1) (hmem : (k, v) ∈ es) (m : FiniteMap K V) :
    (m.writeAll es).get k = v := by
  induction es generalizing m with
  | nil => cases hmem
  | cons e es ih =>
      obtain ⟨hne, hdistinct⟩ := List.pairwise_cons.mp hdistinct
      rw [writeAll_cons]
      rcases List.mem_cons.mp hmem with rfl | hlater
      · rw [get_writeAll_of_forall_ne (fun e' he' heq => hne e' he' heq.symm), get_write,
          if_pos rfl]
      · exact ih hdistinct hlater _

end FiniteMap

end Foundation
