import Mathlib.Data.Fintype.Card
import Mathlib.Data.List.Basic
import Mathlib.Data.Set.Finite.List
import Mathlib.Order.WellFounded
import Mathlib.Tactic.Common

/-!
# Graphs of parent links

A store of values that name their parent: `get` finds a value by key and
`parent` reads the key of the one below it.  Two readings of "walking down" are
used, and they differ in what they know about heights.

* `Path get parent k l a` — walking from `k` meets exactly the values `l`, in
  that order, and stops at the key `a`, which need not be present.
* `Walk get parent number k n l a m` — the same walk between *positions*: it
  starts at key `k` and height `n`, every value met has the height of its
  position, and each step goes one height down.

A walk is deterministic (`Walk.split`), so at a given height it visits one key.
That is the whole content of `IndexedBy`: an index from heights to keys that
only lists positions below a fixed top position is automatically linked
(`IndexedBy.linked`), has nothing above the top (`IndexedBy.le_top`), and is
moved to another top by `IndexedBy.install` and `IndexedBy.switch`.
-/

namespace Foundation

universe u v

variable {K : Type u} {V : Type v}

/-! ## Paths -/

/-- Walking down from `k` meets the values `l` and stops at the key `a`. -/
inductive Path (get : K → Option V) (parent : V → K) : K → List V → K → Prop
  | nil (k : K) : Path get parent k [] k
  | cons {k a : K} {v : V} {l : List V} (found : get k = some v)
      (rest : Path get parent (parent v) l a) : Path get parent k (v :: l) a

namespace Path

variable {get get' : K → Option V} {parent : V → K}

theorem append {k a b : K} {l l' : List V} (h : Path get parent k l a)
    (h' : Path get parent a l' b) : Path get parent k (l ++ l') b := by
  induction h with
  | nil => exact h'
  | cons found _ ih => exact .cons found (ih h')

theorem snoc {k a : K} {v : V} {l : List V} (h : Path get parent k l a)
    (found : get a = some v) : Path get parent k (l ++ [v]) (parent v) :=
  h.append (.cons found (.nil _))

theorem mono (hsub : ∀ k v, get k = some v → get' k = some v) {k a : K} {l : List V}
    (h : Path get parent k l a) : Path get' parent k l a := by
  induction h with
  | nil => exact .nil _
  | cons found _ ih => exact .cons (hsub _ _ found) ih

/-- A walk through one store is one through any other that holds the image of every value. -/
theorem map {W : Type*} {get' : K → Option W} {parent' : W → K} (f : V → W)
    (hget : ∀ k v, get k = some v → get' k = some (f v)) (hparent : ∀ v, parent' (f v) = parent v)
    {k a : K} {l : List V} (h : Path get parent k l a) : Path get' parent' k (l.map f) a := by
  induction h with
  | nil => exact .nil _
  | @cons k a v l found _ ih =>
      rw [← hparent v] at ih
      exact .cons (hget k v found) ih

/-- Of two walks from one key, the shorter is the beginning of the longer. -/
theorem split {k a b : K} {l l' : List V} (h : Path get parent k l a)
    (h' : Path get parent k l' b) (hlen : l.length ≤ l'.length) :
    ∃ l₂, l' = l ++ l₂ ∧ Path get parent a l₂ b := by
  induction h generalizing l' with
  | nil => exact ⟨l', rfl, h'⟩
  | cons found _ ih =>
      cases h' with
      | nil => simp at hlen
      | cons found' rest' =>
          rw [found] at found'
          cases found'
          obtain ⟨l₂, rfl, hrest⟩ := ih rest' (by simpa using hlen)
          exact ⟨l₂, rfl, hrest⟩

/-- A value met on the way is stored under the key it was met at. -/
theorem found_of_mem {k a : K} {l : List V} (h : Path get parent k l a) {v : V}
    (hv : v ∈ l) : ∃ k', get k' = some v := by
  induction h with
  | nil => cases hv
  | cons found _ ih =>
      rcases List.mem_cons.mp hv with rfl | hv
      · exact ⟨_, found⟩
      · exact ih hv

/-- Two walks of one length from one key are the same. -/
theorem unique {k a b : K} {l l' : List V} (h : Path get parent k l a)
    (h' : Path get parent k l' b) (hlen : l.length = l'.length) : l = l' ∧ a = b := by
  obtain ⟨l₂, rfl, hrest⟩ := h.split h' (Nat.le_of_eq hlen)
  rw [List.length_append, Nat.left_eq_add, List.length_eq_zero_iff] at hlen
  subst hlen
  cases hrest
  exact ⟨(List.append_nil l).symm, rfl⟩

/-- A walk can be interrupted after any number of values. -/
theorem interrupt {k a : K} {l : List V} (h : Path get parent k l a) (n : ℕ)
    (hle : n ≤ l.length) :
    ∃ b, Path get parent k (l.take n) b ∧ Path get parent b (l.drop n) a := by
  induction h generalizing n with
  | nil k => exact ⟨k, by simpa using .nil k, by simpa using .nil k⟩
  | @cons k a v l found rest ih =>
      cases n with
      | zero => exact ⟨k, .nil k, .cons found rest⟩
      | succ n =>
          obtain ⟨b, htake, hdrop⟩ := ih n (Nat.le_of_succ_le_succ hle)
          exact ⟨b, .cons found htake, hdrop⟩

/-- A walk that meets something stops at the parent of a value. -/
theorem stop_eq_parent {k a : K} {l : List V} (h : Path get parent k l a) (hne : l ≠ []) :
    ∃ k' v, get k' = some v ∧ parent v = a := by
  induction h with
  | nil => exact absurd rfl hne
  | @cons k a v l found rest ih =>
      cases rest with
      | nil => exact ⟨k, v, found, rfl⟩
      | cons found' rest' => exact ih (List.cons_ne_nil _ _)

/-- A walk that meets `v` last stops at its parent. -/
theorem stop_of_snoc {k a : K} {v : V} {l : List V} (h : Path get parent k (l ++ [v]) a) :
    a = parent v := by
  induction l generalizing k with
  | nil =>
      cases h with
      | cons found rest =>
          cases rest
          rfl
  | cons w l ih =>
      cases h with
      | cons found rest => exact ih rest

/-- Only the values met matter. -/
theorem mono_of_mem {k a : K} {l : List V} (h : Path get parent k l a)
    (hsub : ∀ k v, v ∈ l → get k = some v → get' k = some v) : Path get' parent k l a := by
  induction h with
  | nil => exact .nil _
  | cons found _ ih =>
      exact .cons (hsub _ _ List.mem_cons_self found)
        (ih fun k v hv => hsub k v (List.mem_cons_of_mem _ hv))

/-- A walk that stops where nothing is found goes as far as any. -/
theorem length_le_of_stop {k a b : K} {l l' : List V} (h : Path get parent k l a)
    (hstop : get a = none) (h' : Path get parent k l' b) : l'.length ≤ l.length := by
  by_contra hlt
  obtain ⟨l₂, rfl, hrest⟩ := h.split h' (Nat.le_of_lt (Nat.lt_of_not_le hlt))
  cases hrest with
  | nil => simp at hlt
  | cons found _ => cases hstop.symm.trans found

/-- **Two walks from one key that stop where nothing is found are the same.** -/
theorem unique_of_stop {k a b : K} {l l' : List V} (h : Path get parent k l a)
    (hstop : get a = none) (h' : Path get parent k l' b) (hstop' : get b = none) :
    l = l' ∧ a = b :=
  h.unique h' (Nat.le_antisymm (h'.length_le_of_stop hstop' h) (h.length_le_of_stop hstop h'))

/-- A walk passes through the key of every value it meets. -/
theorem through_mem {key : V → K} (hkey : ∀ k v, get k = some v → key v = k) {k a : K}
    {l : List V} (h : Path get parent k l a) {v : V} (hv : v ∈ l) :
    ∃ l₁ l₂, l = l₁ ++ v :: l₂ ∧ Path get parent k l₁ (key v) ∧
      Path get parent (key v) (v :: l₂) a := by
  induction h with
  | nil => cases hv
  | @cons k a w l found rest ih =>
      have hhere := hkey k w found
      rcases List.mem_cons.mp hv with rfl | hv
      · subst hhere
        exact ⟨[], l, rfl, .nil _, .cons found rest⟩
      · obtain ⟨l₁, l₂, rfl, hto, hfrom⟩ := ih hv
        exact ⟨w :: l₁, l₂, rfl, .cons found hto, hfrom⟩

/-- Walks that meet the same values and stop at the same key begin at the same key. -/
theorem start_unique {key : V → K} (hkey : ∀ k v, get k = some v → key v = k) {k k' a : K}
    {l : List V} (h : Path get parent k l a) (h' : Path get parent k' l a) : k = k' := by
  cases h with
  | nil =>
      cases h'
      rfl
  | cons found _ =>
      cases h' with
      | cons found' _ => exact (hkey _ _ found).symm.trans (hkey _ _ found')

end Path

/-! ## Walks that do not return -/

/-- No walk comes back to where it began. -/
def NoReturn (get : K → Option V) (parent : V → K) : Prop :=
  ∀ k l, Path get parent k l k → l = []

section NoReturn

variable {get : K → Option V} {parent : V → K}

/-- Nor does one through a store with images in a store of that kind. -/
theorem NoReturn.of_map {W : Type*} {get' : K → Option W} {parent' : W → K}
    (h : NoReturn get' parent') (f : V → W) (hget : ∀ k v, get k = some v → get' k = some (f v))
    (hparent : ∀ v, parent' (f v) = parent v) : NoReturn get parent :=
  fun k _ hpath => List.map_eq_nil_iff.mp (h k _ (hpath.map f hget hparent))

/-- Values ranked above their parents make no cycle. -/
theorem noReturn_of_rank (rank : V → ℕ)
    (hrank : ∀ k v w, get k = some v → get (parent v) = some w → rank w < rank v) :
    NoReturn get parent := by
  have hdown : ∀ {k a l}, Path get parent k l a → ∀ v w, get k = some v → get a = some w →
      l ≠ [] → rank w < rank v := by
    intro k a l h
    induction h with
    | nil => exact fun _ _ _ _ hne => absurd rfl hne
    | @cons k a u l found rest ih =>
        intro v w hv hw _
        cases found.symm.trans hv
        cases rest with
        | nil => exact hrank _ _ _ found hw
        | cons found' rest' =>
            exact Nat.lt_trans (ih _ w found' hw (List.cons_ne_nil _ _)) (hrank _ _ _ found found')
  intro k l h
  cases h with
  | nil => rfl
  | @cons _ _ v l found rest =>
      exact absurd (hdown (.cons found rest) v v found found (List.cons_ne_nil _ _))
        (Nat.lt_irrefl _)

variable {key : V → K} (hkey : ∀ k v, get k = some v → key v = k)

include hkey in
/-- A walk without return meets every key once. -/
theorem Path.nodup_keys (h : NoReturn get parent) {k a : K} {l : List V}
    (hpath : Path get parent k l a) : (l.map key).Nodup := by
  induction hpath with
  | nil => exact List.nodup_nil
  | @cons k a v l found rest ih =>
      rw [List.map_cons, List.nodup_cons]
      refine ⟨fun hmem => ?_, ih⟩
      obtain ⟨w, hw, heq⟩ := List.mem_map.mp hmem
      obtain ⟨l₁, -, -, hto, -⟩ := rest.through_mem hkey hw
      rw [heq, hkey k v found] at hto
      exact List.cons_ne_nil _ _ (h k (v :: l₁) (.cons found hto))

end NoReturn

/-! ## Strict ancestors -/

/-- The key `a` is met when walking down from `k`, after one value at least. -/
def Below (get : K → Option V) (parent : V → K) (a k : K) : Prop :=
  ∃ l, l ≠ [] ∧ Path get parent k l a

namespace Below

variable {get : K → Option V} {parent : V → K} {a b k : K}

theorem of_path (h : Below get parent a b) {l : List V} (hpath : Path get parent k l b) :
    Below get parent a k := by
  obtain ⟨l', hne, hpath'⟩ := h
  exact ⟨l ++ l', List.append_ne_nil_of_right_ne_nil _ hne, hpath.append hpath'⟩

theorem trans (h : Below get parent a b) (h' : Below get parent b k) : Below get parent a k := by
  obtain ⟨l, -, hpath⟩ := h'
  exact h.of_path hpath

theorem irrefl (hacyclic : NoReturn get parent) : ¬Below get parent k k := by
  rintro ⟨l, hne, hpath⟩
  exact hne (hacyclic k l hpath)

end Below

/-! ## Acyclic relations -/

/-- **No bottom, then a cycle.**  If every one of finitely many elements has
another one of them below it, the relation has a cycle. -/
theorem exists_cycle_of_descending {α : Type u} {r : α → α → Prop} {l : List α} (hne : l ≠ [])
    (hbelow : ∀ a ∈ l, ∃ b ∈ l, r b a) : ∃ a, Relation.TransGen r a a := by
  by_contra hacyclic
  have hwf : WellFounded fun a b : {a // a ∈ l} => Relation.TransGen r a.1 b.1 := by
    have : IsTrans {a // a ∈ l} fun a b => Relation.TransGen r a.1 b.1 :=
      ⟨fun _ _ _ => Relation.TransGen.trans⟩
    have : Std.Irrefl fun a b : {a // a ∈ l} => Relation.TransGen r a.1 b.1 :=
      ⟨fun a hcycle => hacyclic ⟨a.1, hcycle⟩⟩
    have : Finite {a // a ∈ l} := l.finite_toSet
    exact Finite.wellFounded_of_trans_of_irrefl _
  obtain ⟨a, hmem⟩ := List.exists_mem_of_ne_nil l hne
  obtain ⟨bottom, -, hmin⟩ := hwf.has_min Set.univ ⟨⟨a, hmem⟩, trivial⟩
  obtain ⟨b, hb, hrel⟩ := hbelow bottom.1 bottom.2
  exact hmin ⟨b, hb⟩ trivial (.single hrel)

/-! ## Walks between positions -/

/-- Walking down from key `k` at height `n` meets the values `l`, each at its
own height, and stops at key `a` and height `m`. -/
inductive Walk (get : K → Option V) (parent : V → K) (number : V → ℕ) :
    K → ℕ → List V → K → ℕ → Prop
  | nil (k : K) (n : ℕ) : Walk get parent number k n [] k n
  | cons {k a : K} {n m : ℕ} {v : V} {l : List V} (found : get k = some v)
      (height : number v = n + 1) (rest : Walk get parent number (parent v) n l a m) :
      Walk get parent number k (n + 1) (v :: l) a m

/-- The position `(a, m)` is met when walking down from `(k, n)`. -/
def Reaches (get : K → Option V) (parent : V → K) (number : V → ℕ) (k : K) (n : ℕ)
    (a : K) (m : ℕ) : Prop :=
  ∃ l, Walk get parent number k n l a m

section Walks

variable {get : K → Option V} {parent : V → K} {number : V → ℕ}

namespace Walk

theorem length {k a : K} {n m : ℕ} {l : List V} (h : Walk get parent number k n l a m) :
    n = m + l.length := by
  induction h with
  | nil => simp
  | cons _ _ _ ih => simp only [List.length_cons]; omega

theorem path {k a : K} {n m : ℕ} {l : List V} (h : Walk get parent number k n l a m) :
    Path get parent k l a := by
  induction h with
  | nil => exact .nil _
  | cons found _ _ ih => exact .cons found ih

theorem append {k a b : K} {n m j : ℕ} {l l' : List V}
    (h : Walk get parent number k n l a m) (h' : Walk get parent number a m l' b j) :
    Walk get parent number k n (l ++ l') b j := by
  induction h with
  | nil => exact h'
  | cons found height _ ih => exact .cons found height (ih h')

/-- **Walks are deterministic**: the one that stops higher is the beginning of
the other. -/
theorem split {k a b : K} {n m j : ℕ} {l l' : List V}
    (h : Walk get parent number k n l a m) (h' : Walk get parent number k n l' b j)
    (hle : j ≤ m) : ∃ l₂, l' = l ++ l₂ ∧ Walk get parent number a m l₂ b j := by
  have hlen := h.length
  have hlen' := h'.length
  induction h generalizing l' with
  | nil => exact ⟨l', rfl, h'⟩
  | cons found height rest ih =>
      cases h' with
      | nil =>
          simp only [List.length_cons] at hlen
          omega
      | cons found' height' rest' =>
          rw [found] at found'
          cases found'
          obtain ⟨l₂, rfl, hrest⟩ := ih rest' hle rest.length rest'.length
          exact ⟨l₂, rfl, hrest⟩

/-- A value met on the way has a position: its key, at its own height, with the
parent just below. -/
theorem position_of_mem {k a : K} {n m : ℕ} {l : List V}
    (h : Walk get parent number k n l a m) {v : V} (hv : v ∈ l) :
    ∃ k', get k' = some v ∧ m < number v ∧ number v ≤ n ∧
      Reaches get parent number k n k' (number v) := by
  induction h with
  | nil => cases hv
  | @cons k a n m v₀ l found height rest ih =>
      rcases List.mem_cons.mp hv with rfl | hv
      · refine ⟨k, found, ?_, by omega, [], ?_⟩
        · have := rest.length
          omega
        · rw [height]
          exact .nil _ _
      · obtain ⟨k', hk', hlt, hle, l', hl'⟩ := ih hv
        exact ⟨k', hk', hlt, by omega, v₀ :: l', .cons found height hl'⟩

/-- Every height strictly below the start and not below the stop is the height
of a value met on the way. -/
theorem exists_mem_of_height {k a : K} {n m : ℕ} {l : List V}
    (h : Walk get parent number k n l a m) {j : ℕ} (hlt : m < j) (hle : j ≤ n) :
    ∃ v ∈ l, number v = j := by
  induction h with
  | nil => omega
  | @cons k a n m v₀ l found height rest ih =>
      by_cases htop : j = n + 1
      · exact ⟨v₀, List.mem_cons_self, by omega⟩
      · obtain ⟨v, hv, hj⟩ := ih hlt (by omega)
        exact ⟨v, List.mem_cons_of_mem _ hv, hj⟩

/-- A walk has a position at every height between its ends. -/
theorem exists_position {k a : K} {n m : ℕ} {l : List V}
    (h : Walk get parent number k n l a m) {j : ℕ} (hle : m ≤ j) (hle' : j ≤ n) :
    ∃ b, Reaches get parent number k n b j := by
  induction h with
  | nil k n => exact ⟨k, [], (Nat.le_antisymm hle hle') ▸ .nil k n⟩
  | @cons k a n m v l found height rest ih =>
      by_cases htop : j = n + 1
      · exact ⟨k, [], by rw [htop]; exact .nil k (n + 1)⟩
      · obtain ⟨b, l', hl'⟩ := ih hle (by omega)
        exact ⟨b, v :: l', .cons found height hl'⟩

end Walk

namespace Reaches

theorem refl (k : K) (n : ℕ) : Reaches get parent number k n k n := ⟨[], .nil k n⟩

theorem le {k a : K} {n m : ℕ} (h : Reaches get parent number k n a m) : m ≤ n := by
  obtain ⟨l, hl⟩ := h
  have := hl.length
  omega

theorem trans {k a b : K} {n m j : ℕ} (h : Reaches get parent number k n a m)
    (h' : Reaches get parent number a m b j) : Reaches get parent number k n b j := by
  obtain ⟨l, hl⟩ := h
  obtain ⟨l', hl'⟩ := h'
  exact ⟨l ++ l', hl.append hl'⟩

/-- Of two positions met from one start, the lower is met from the higher. -/
theorem lower {k a b : K} {n m j : ℕ} (h : Reaches get parent number k n a m)
    (h' : Reaches get parent number k n b j) (hle : j ≤ m) :
    Reaches get parent number a m b j := by
  obtain ⟨l, hl⟩ := h
  obtain ⟨l', hl'⟩ := h'
  obtain ⟨l₂, -, hl₂⟩ := hl.split hl' hle
  exact ⟨l₂, hl₂⟩

/-- At one height a walk meets one key. -/
theorem unique {k a b : K} {n m : ℕ} (h : Reaches get parent number k n a m)
    (h' : Reaches get parent number k n b m) : a = b := by
  obtain ⟨l₂, hl₂⟩ := h.lower h' (Nat.le_refl m)
  have := hl₂.length
  cases hl₂ with
  | nil => rfl
  | cons _ _ _ =>
      simp only [List.length_cons] at this
      omega

/-- Going one height down crosses one value. -/
theorem step {k a : K} {n : ℕ} (h : Reaches get parent number k (n + 1) a n) :
    ∃ v, get k = some v ∧ number v = n + 1 ∧ parent v = a := by
  obtain ⟨l, hl⟩ := h
  cases hl with
  | @cons _ _ _ _ v l found height rest =>
      have hbelow : Reaches get parent number (parent v) n a n := ⟨l, rest⟩
      exact ⟨v, found, height, (refl (parent v) n).unique hbelow⟩

end Reaches

/-! ## Indexes of the positions below a top -/

/-- The index `canon` lists positions below `(k, n)` only, and lists `(k, n)`. -/
structure IndexedBy (get : K → Option V) (parent : V → K) (number : V → ℕ)
    (canon : ℕ → Option K) (k : K) (n : ℕ) : Prop where
  /-- The top is listed at its own height. -/
  top : canon n = some k
  /-- Every listed key is met at its height when walking down from the top. -/
  below : ∀ m a, canon m = some a → Reaches get parent number k n a m

namespace IndexedBy

variable {canon canon' : ℕ → Option K} {k t : K} {n n' : ℕ}

theorem le_top (h : IndexedBy get parent number canon k n) {m : ℕ} {a : K}
    (ha : canon m = some a) : m ≤ n :=
  (h.below m a ha).le

/-- **Neighbouring entries are linked**: the value listed at `m + 1` has the key
listed at `m` as its parent. -/
theorem linked (h : IndexedBy get parent number canon k n) {m : ℕ} {a b : K}
    (ha : canon m = some a) (hb : canon (m + 1) = some b) :
    ∃ v, get b = some v ∧ number v = m + 1 ∧ parent v = a :=
  ((h.below _ b hb).lower (h.below m a ha) (Nat.le_succ m)).step

/-- Forgetting entries other than the top's. -/
theorem restrict (h : IndexedBy get parent number canon k n)
    (hsub : ∀ m a, canon' m = some a → canon m = some a) (htop : canon' n = canon n) :
    IndexedBy get parent number canon' k n where
  top := htop.trans h.top
  below m a ha := h.below m a (hsub m a ha)

/-- **Writing a walk**: an index whose entries are the positions of a walk from
`(t, n')`, or positions below it that were there before, is an index below
`(t, n')`. -/
theorem install {key : V → K} (hkey : ∀ k v, get k = some v → key v = k)
    {new : List V} {f : K} {j : ℕ} (hwalk : Walk get parent number t n' new f j)
    (htop : canon' n' = some t)
    (hrest : ∀ m a, canon' m = some a →
      (∃ v ∈ new, number v = m ∧ key v = a) ∨ Reaches get parent number t n' a m) :
    IndexedBy get parent number canon' t n' where
  top := htop
  below m a ha := by
    rcases hrest m a ha with ⟨v, hv, rfl, rfl⟩ | hreach
    · obtain ⟨k', hk', -, -, hreach⟩ := hwalk.position_of_mem hv
      rw [hkey k' v hk']
      exact hreach
    · exact hreach

/-- **Switching branches**: with both tops above one position `(f, j)`, removing
the entries of the old branch and writing those of the new one moves the index
from the old top to the new one. -/
theorem switch (h : IndexedBy get parent number canon k n) {key : V → K}
    (hkey : ∀ k v, get k = some v → key v = k) {new old : List V} {f : K} {j : ℕ}
    (hnew : Walk get parent number t n' new f j) (hold : Walk get parent number k n old f j)
    (htop : canon' n' = some t)
    (hrest : ∀ m a, canon' m = some a → (∃ v ∈ new, number v = m ∧ key v = a) ∨
      (canon m = some a ∧ ¬∃ v ∈ old, number v = m ∧ key v = a)) :
    IndexedBy get parent number canon' t n' := by
  refine install hkey hnew htop fun m a ha => ?_
  rcases hrest m a ha with hmem | ⟨hcanon, hnot⟩
  · exact .inl hmem
  · refine .inr ?_
    have hreach := h.below m a hcanon
    have hle : m ≤ j := by
      -- an entry above the fork point is the old branch's own, which was removed
      by_contra hgt
      obtain ⟨v, hv, hm⟩ := hold.exists_mem_of_height (Nat.lt_of_not_le hgt) hreach.le
      obtain ⟨k', hk', -, -, hpos⟩ := hold.position_of_mem hv
      rw [hm] at hpos
      refine hnot ⟨v, hv, hm, ?_⟩
      rw [hkey k' v hk']
      exact hpos.unique hreach
    have hnewFork : Reaches get parent number t n' f j := ⟨new, hnew⟩
    have holdFork : Reaches get parent number k n f j := ⟨old, hold⟩
    exact hnewFork.trans (holdFork.lower hreach hle)

end IndexedBy

end Walks

end Foundation
