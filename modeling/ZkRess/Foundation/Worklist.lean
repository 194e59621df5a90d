import Mathlib.Data.List.Basic
import Mathlib.Tactic.Common

/-!
# Draining a work list

The loop `while let Some(k) = stack.pop()`, where visiting `k` changes a state
and may push further keys.  `drain` is that loop with a bound on its number of
rounds; `drain_induction` is its invariant rule, and `drain_preserves` the short
form for what does not depend on the stack.

The rule has one side condition besides preservation: a weight on the state that
pays for every pushed key (`hweight`).  It is what makes the bound harmless —
with `weight s + stack.length` rounds the stack is empty at the end, so the
invariant is returned *at the empty stack*, where it usually says that nothing
is left to visit.

`Drains` is the loop without a bound.  The same weight shows that it ends, and
that the bounded loop computes its result (`drains_drain`).
-/

namespace Foundation

universe u v

variable {K : Type u} {S : Type v}

/-- Pop a key, visit it, push what the visit asks for; at most `n` times. -/
def drain (visit : K → S → List K × S) : ℕ → List K → S → S
  | 0, _, s => s
  | _ + 1, [], s => s
  | n + 1, k :: stack, s => drain visit n ((visit k s).1 ++ stack) (visit k s).2

/-- Nothing is done with an empty stack. -/
@[simp] theorem drain_nil (visit : K → S → List K × S) (n : ℕ) (s : S) :
    drain visit n [] s = s := by
  cases n <;> rfl

/-- What every visit keeps, the loop keeps. -/
theorem drain_preserves {visit : K → S → List K × S} (Inv : S → Prop)
    (hvisit : ∀ k s, Inv s → Inv (visit k s).2) (n : ℕ) (stack : List K) (s : S) (h : Inv s) :
    Inv (drain visit n stack s) := by
  induction n generalizing stack s with
  | zero => exact h
  | succ n ih =>
      cases stack with
      | nil => exact h
      | cons k stack => exact ih _ _ (hvisit k s h)

/-- **The invariant rule.**  An invariant of stack and state that every visit
preserves holds at the empty stack when the loop is over. -/
theorem drain_induction {visit : K → S → List K × S} (Inv : List K → S → Prop)
    (weight : S → ℕ)
    (hstep : ∀ k stack s, Inv (k :: stack) s → Inv ((visit k s).1 ++ stack) (visit k s).2)
    (hweight : ∀ k s, weight (visit k s).2 + (visit k s).1.length ≤ weight s) :
    ∀ (n : ℕ) (stack : List K) (s : S), weight s + stack.length ≤ n → Inv stack s →
      Inv [] (drain visit n stack s) := by
  intro n
  induction n with
  | zero =>
      intro stack s hn hinv
      have hnil : stack = [] := List.eq_nil_of_length_eq_zero (by omega)
      rw [hnil] at hinv
      exact hinv
  | succ n ih =>
      intro stack s hn hinv
      cases stack with
      | nil => exact hinv
      | cons k stack =>
          refine ih _ _ ?_ (hstep k stack s hinv)
          have := hweight k s
          simp only [List.length_append, List.length_cons] at hn ⊢
          omega

/-- The loop without a bound: started on the stack and the first state, it ends
with the second. -/
inductive Drains (visit : K → S → List K × S) : List K → S → S → Prop
  | nil (s : S) : Drains visit [] s s
  | cons {k : K} {stack : List K} {s s' : S}
      (rest : Drains visit ((visit k s).1 ++ stack) (visit k s).2 s') :
      Drains visit (k :: stack) s s'

/-- **Termination**: a weight that pays for every pushed key bounds the number of
rounds. -/
theorem drains_drain {visit : K → S → List K × S} (weight : S → ℕ)
    (hweight : ∀ k s, weight (visit k s).2 + (visit k s).1.length ≤ weight s) :
    ∀ (n : ℕ) (stack : List K) (s : S), weight s + stack.length ≤ n →
      Drains visit stack s (drain visit n stack s) := by
  intro n
  induction n with
  | zero =>
      intro stack s hn
      have hnil : stack = [] := List.eq_nil_of_length_eq_zero (by omega)
      rw [hnil]
      exact .nil s
  | succ n ih =>
      intro stack s hn
      cases stack with
      | nil => exact .nil s
      | cons k stack =>
          apply Drains.cons
          apply ih
          have := hweight k s
          simp only [List.length_append, List.length_cons] at hn ⊢
          omega

end Foundation
