import Mathlib.Data.List.Basic
import Mathlib.Tactic.Common

/-!
# Queues served by turns

A queue whose first member is served and goes to the end.  What was served so far, followed
by the queue as it stands, is one sequence in which every stretch as long as the queue has
each member once (`InTurn`): serving the first member appends it to this sequence, and the
new stretch at the end is the queue after the turn.
-/

namespace Foundation

universe u

variable {α : Type u} {members served served' queue : List α} {first : α}

/-- Every stretch as long as the members has each of them once. -/
def InTurn (members served : List α) : Prop :=
  ∀ window, window <:+: served → window.length = members.length → window.Perm members

/-- The queue itself. -/
theorem InTurn.of_perm (h : queue.Perm members) : InTurn members queue := by
  intro window hinside hlength
  rwa [hinside.eq_of_length (hlength.trans h.length_eq.symm)]

theorem InTurn.of_infix (h : InTurn members served) (hinside : served' <:+: served) :
    InTurn members served' :=
  fun window hwindow => h window (hwindow.trans hinside)

/-- **One turn**: the first of the queue is served and goes to the end. -/
theorem InTurn.serve (h : InTurn members (served ++ first :: queue))
    (hqueue : (first :: queue).Perm members) :
    InTurn members (served ++ [first] ++ (queue ++ [first])) := by
  have hturn : (queue ++ [first]).Perm members :=
    (List.perm_append_singleton first queue).trans hqueue
  have heq : served ++ [first] ++ (queue ++ [first]) = (served ++ first :: queue) ++ [first] := by
    simp
  intro window hinside hlength
  rw [heq, List.infix_concat_iff] at hinside
  rcases hinside with hsuffix | hinside
  · -- the stretch at the end is the queue after the turn
    have hend : queue ++ [first] <:+ (served ++ first :: queue) ++ [first] :=
      ⟨served ++ [first], heq⟩
    have hlen : window.length = (queue ++ [first]).length := hlength.trans hturn.length_eq.symm
    rwa [(List.suffix_of_suffix_length_le hsuffix hend (Nat.le_of_eq hlen)).eq_of_length hlen]
  · exact h window hinside hlength

end Foundation
