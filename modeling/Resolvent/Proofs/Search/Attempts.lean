/-
# Attempts to resolve

A step that resolves a goal makes one attempt for each matching clause. The
attempts are made in turn, so there is a second one only if the first comes to
an end. A step can be completed, given enough moves, exactly when every attempt
comes to an end.
-/

import Resolvent.Proofs.Clauses.Standardized
import Resolvent.Proofs.Search.Run
import Resolvent.Proofs.Unification.Termination

namespace Resolvent.Query

/-- The equations of the attempts that are made to resolve a goal with the
given arguments against clauses in turn. -/
inductive Tries (args : List Term) : List Clause → Supply → List Equation → Prop
  | first {c : Clause} {rest : List Clause} {supply : Supply} :
      Tries args (c :: rest) supply (equations args (c.standardizeApart supply).1.head)
  | later {c : Clause} {rest : List Clause} {supply : Supply} {attempt : List Equation}
      (ended : Finishes (equations args (c.standardizeApart supply).1.head))
      (next : Tries args rest (c.standardizeApart supply).2 attempt) :
      Tries args (c :: rest) supply attempt

/-- The equations of the attempts that the next step makes. -/
inductive Attempts (store : Store) (q : Query) (supply : Supply) : List Equation → Prop
  | resolve {goal : Atom} {deferred : List Atom} {bindings : List Binding}
      {rest : List PartialProof} {attempt : List Equation}
      (front : q.queue.toList = ⟨goal :: deferred, bindings⟩ :: rest)
      (tries : Tries (goal.args.map (applyAll bindings)) (store.candidates goal) supply attempt) :
      Attempts store q supply attempt

/-- No attempt that is made in any run of the query goes on for ever. -/
def NeverDiverges (store : Store) (start : Query) (given : Supply) : Prop :=
  ∀ k visits q supply, Run store start given k visits q supply →
    ∀ attempt, q.Attempts store supply attempt → Finishes attempt

/-- Each attempt is one to make the goal the same as the head of a copy of a
clause, which is made when the copies for the attempts before have been
drawn. -/
theorem Tries.exists_later_copy {args : List Term} {clauses : List Clause} {supply : Supply}
    {attempt : List Equation} (h : Tries args clauses supply attempt) :
    ∃ c ∈ clauses, ∃ drawn : Supply, supply.next ≤ drawn.next ∧
      attempt = equations args (c.standardizeApart drawn).1.head := by
  induction h with
  | first => exact ⟨_, List.mem_cons_self, _, Nat.le_refl _, rfl⟩
  | @later c _ supply _ _ _ ih =>
      obtain ⟨d, hd, drawn, later, same⟩ := ih
      exact ⟨d, List.mem_cons_of_mem _ hd, drawn,
        Nat.le_trans (c.next_le_standardizeApart supply) later, same⟩

/-- Each attempt is one with the copy of a clause. -/
theorem Tries.exists_copy {args : List Term} {clauses : List Clause} {supply : Supply}
    {attempt : List Equation} (h : Tries args clauses supply attempt) :
    ∃ c ∈ clauses, ∃ drawn, attempt = equations args (c.standardizeApart drawn).1.head := by
  obtain ⟨c, hc, drawn, _, same⟩ := h.exists_later_copy
  exact ⟨c, hc, drawn, same⟩

/-- With more moves the branches are the same. -/
theorem branches_of_le {moves more : Nat} (h : moves ≤ more) {args : List Term}
    {deferred : List Atom} {bindings : List Binding} {clauses : List Clause} {supply : Supply}
    {out : List Branch × Supply}
    (made : branches moves args deferred bindings clauses supply = some out) :
    branches more args deferred bindings clauses supply = some out := by
  induction clauses generalizing supply out with
  | nil => exact made
  | cons c rest ih =>
      obtain ⟨produced, after⟩ := out
      obtain ⟨others, tried, verdict⟩ := branches_cons_eq_some_iff.mp made
      refine branches_cons_eq_some_iff.mpr ⟨others, ih tried, ?_⟩
      rcases verdict with ⟨clash, same⟩ | ⟨bindings, solved, same⟩
      · exact .inl ⟨(unify_of_le h (by simp [clash])).trans clash, same⟩
      · exact .inr ⟨bindings, (unify_of_le h (by simp [solved])).trans solved, same⟩

/-- With more moves a step is the same. -/
theorem step_of_le {store : Store} {q : Query} {supply : Supply} {moves more : Nat}
    (h : moves ≤ more) {out : Step} (made : q.step store moves supply = some out) :
    q.step store more supply = some out := by
  unfold step at made ⊢
  split
  · next popped => simpa [popped] using made
  · next goals bindings queue popped =>
      simp only [popped] at made
      cases goals with
      | nil => exact made
      | cons goal deferred =>
          simp only [expand, Option.map_eq_some_iff] at made ⊢
          obtain ⟨produced, made, same⟩ := made
          exact ⟨produced, branches_of_le h made, same⟩

/-- There is no choice in what a step does. -/
theorem step_unique {store : Store} {q : Query} {supply : Supply} {moves more : Nat}
    {out out' : Step} (made : q.step store moves supply = some out)
    (again : q.step store more supply = some out') : out = out' := by
  have first := step_of_le (Nat.le_max_left moves more) made
  have second := step_of_le (Nat.le_max_right moves more) again
  exact Option.some.inj (first.symm.trans second)

/-- All clauses can be tried exactly when each attempt comes to an end. -/
theorem exists_branches_iff {args : List Term} (deferred : List Atom) (bindings : List Binding)
    {clauses : List Clause} {supply : Supply} :
    (∃ moves out, branches moves args deferred bindings clauses supply = some out) ↔
      ∀ attempt, Tries args clauses supply attempt → Finishes attempt := by
  induction clauses generalizing supply with
  | nil =>
      constructor
      · rintro _ _ ⟨⟩
      · exact fun _ => ⟨0, _, rfl⟩
  | cons c rest ih =>
      constructor
      · rintro ⟨moves, ⟨produced, after⟩, made⟩ attempt tried
        obtain ⟨others, made, verdict⟩ := branches_cons_eq_some_iff.mp made
        cases tried with
        | first =>
            refine ⟨moves, ?_⟩
            rcases verdict with ⟨clash, _⟩ | ⟨bindings, solved, _⟩
            · simp [clash]
            · simp [solved]
        | later _ next => exact ih.mp ⟨moves, _, made⟩ attempt next
      · intro all
        obtain ⟨few, ended⟩ := all _ .first
        obtain ⟨many, ⟨others, after⟩, tried⟩ :=
          ih.mpr fun attempt next => all attempt (.later ⟨few, ended⟩ next)
        have same := unify_of_le (Nat.le_max_left few many) ended
        have tried := branches_of_le (Nat.le_max_right few many) tried
        cases verdict : unify few (equations args (c.standardizeApart supply).1.head) with
        | unfinished => exact absurd verdict ended
        | clash =>
            exact ⟨max few many, _, branches_cons_eq_some_iff.mpr
              ⟨others, tried, .inl ⟨same.trans verdict, rfl⟩⟩⟩
        | solved made =>
            exact ⟨max few many, _, branches_cons_eq_some_iff.mpr
              ⟨others, tried, .inr ⟨made, same.trans verdict, rfl⟩⟩⟩

/-- A step can be completed exactly when no attempt goes on for ever. -/
theorem exists_step_iff {store : Store} {q : Query} {supply : Supply} :
    (∃ moves out, q.step store moves supply = some out) ↔
      ∀ attempt, q.Attempts store supply attempt → Finishes attempt := by
  cases waiting : q.queue.toList with
  | nil =>
      have popped := Queue.pop?_eq_none_iff.mpr waiting
      constructor
      · rintro _ _ ⟨front, _⟩
        simp [waiting] at front
      · exact fun _ => ⟨0, _, by rw [step, popped]⟩
  | cons item rest =>
      obtain ⟨queue, popped, _⟩ := Queue.exists_pop? waiting
      obtain ⟨goals, bindings⟩ := item
      cases goals with
      | nil =>
          obtain ⟨q', _, judged⟩ := @step_of_candidate store q supply _ _ waiting 0
          constructor
          · rintro _ _ ⟨front, _⟩
            simp [waiting] at front
          · exact fun _ => ⟨0, _, judged⟩
      | cons goal deferred =>
          have resolved (attempt : List Equation) : q.Attempts store supply attempt ↔
              Tries (goal.args.map (applyAll bindings)) (store.candidates goal) supply attempt := by
            constructor
            · rintro ⟨front, tries⟩
              rw [waiting] at front
              cases front
              exact tries
            · exact .resolve waiting
          simp only [resolved, ← exists_branches_iff deferred bindings,
            step, popped, expand, Option.map_eq_some_iff]
          constructor
          · rintro ⟨moves, _, produced, made, _⟩
            exact ⟨moves, produced, made⟩
          · rintro ⟨moves, produced, made⟩
            exact ⟨moves, _, produced, made, rfl⟩

end Resolvent.Query
