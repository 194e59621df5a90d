import Mathlib.Tactic.Common

/-!
# Programs that ask a database

A deterministic program that learns about the world only through queries: a tree
whose nodes ask, and whose branches are the possible answers.  Run against a
database, it follows one branch; a query the database fails on ends the run.

Two databases that agree on the queries of a run cannot be told apart by it
(`run_eq_of_answers`): if every answer the second gives to a query asked of the first
is the first one's, then the second run either fails or ends as the first.
-/

namespace Foundation

universe u v w

/-- A program that asks queries `Q`, with answers of the type of the query, and
returns an `R`. -/
inductive Query (Q : Type u) (A : Q → Type v) (R : Type w)
  | done (result : R)
  | ask (query : Q) (next : A query → Query Q A R)

namespace Query

variable {Q : Type u} {A : Q → Type v} {R : Type w} {E : Type*}

/-- Run a program against a database. -/
def run (answer : ∀ query, Except E (A query)) : Query Q A R → Except E R
  | .done result => .ok result
  | .ask query next =>
      match answer query with
      | .error error => .error error
      | .ok a => run answer (next a)

/-- The queries a run asks, in order. -/
def asked (answer : ∀ query, Except E (A query)) : Query Q A R → List Q
  | .done _ => []
  | .ask query next =>
      query :: match answer query with
        | .error _ => []
        | .ok a => asked answer (next a)

/-- A query that is answered. -/
theorem run_ask {answer : ∀ query, Except E (A query)} {query : Q} {next : A query → Query Q A R}
    {a : A query} (hanswer : answer query = .ok a) :
    (ask query next).run answer = (next a).run answer := by
  rw [run, hanswer]

theorem asked_ask {answer : ∀ query, Except E (A query)} {query : Q} {next : A query → Query Q A R}
    {a : A query} (hanswer : answer query = .ok a) :
    (ask query next).asked answer = query :: (next a).asked answer := by
  rw [asked, hanswer]

/-- **Agreement on the queries of a run** is agreement on its result. -/
theorem run_eq_of_answers {answer answer' : ∀ query, Except E (A query)} {program : Query Q A R}
    (hagree : ∀ query ∈ program.asked answer, ∀ a, answer' query = .ok a → answer query = .ok a)
    {result : R} (hrun : program.run answer' = .ok result) : program.run answer = .ok result := by
  induction program with
  | done _ => exact hrun
  | ask query next ih =>
      unfold run at hrun
      split at hrun
      · cases hrun
      · next a ha =>
        have hfirst : query ∈ (ask query next).asked answer := by
          unfold asked
          exact List.mem_cons_self
        have hsame : answer query = .ok a := hagree query hfirst a ha
        rw [asked_ask hsame] at hagree
        rw [run_ask hsame]
        exact ih a (fun query' hquery' => hagree query' (List.mem_cons_of_mem _ hquery')) hrun

/-! ### Compatible databases -/

/-- Two databases that agree wherever both have an answer. -/
def Compatible (answer answer' : ∀ query, Except E (A query)) : Prop :=
  ∀ query a a', answer query = .ok a → answer' query = .ok a' → a' = a

/-- **A run on a compatible database** ends as the first, or fails on a query that the first
was answered. -/
theorem run_of_compatible {answer answer' : ∀ query, Except E (A query)}
    (hcompatible : Compatible answer answer') {program : Query Q A R} {result : R}
    (hrun : program.run answer = .ok result) :
    program.run answer' = .ok result ∨ ∃ query a error, answer query = .ok a ∧
      answer' query = .error error ∧ program.run answer' = .error error := by
  induction program with
  | done _ => exact .inl hrun
  | ask query next ih =>
      obtain ⟨a, ha⟩ : ∃ a, answer query = .ok a := by
        cases hanswer : answer query with
        | error error =>
            rw [run, hanswer] at hrun
            cases hrun
        | ok a => exact ⟨a, rfl⟩
      rw [run_ask ha] at hrun
      cases hanswer : answer' query with
      | error error =>
          refine .inr ⟨query, a, error, ha, hanswer, ?_⟩
          rw [run, hanswer]
      | ok a' =>
          obtain rfl := hcompatible query a a' ha hanswer
          rw [run_ask hanswer]
          exact ih a' hrun

end Query

end Foundation
