/-
# Searches keep to an alphabet

If the clauses of the store and the goals of the query are over an alphabet
then so is all that the search makes of them: the goals and bindings of every
item, and in the end the answers. Unification takes terms apart and puts them
in place of variables, and a copy of a clause has fresh variables of the same
names; neither needs other symbols.
-/

import Resolvent.Proofs.Search.Selection
import Resolvent.Proofs.Terms.Alphabet

namespace Resolvent

variable {A : Alphabet}

/-- An equation between terms over an alphabet. -/
structure Equation.Over (A : Alphabet) (e : Equation) : Prop where
  left : e.left.Over A
  right : e.right.Over A

namespace Equation.Over

variable {e : Equation}

/-- A binding over an alphabet is put into an equation without leaving that
alphabet. -/
theorem instantiate {b : Binding} (bound : b.term.Over A) (h : e.Over A) :
    (e.instantiate b).Over A :=
  ⟨bound.apply h.left, bound.apply h.right⟩

/-- What an equation binds is a part of it. -/
theorem of_bind {b : Binding} (h : e.Over A) (bind : e.move = .bind b) : b.term.Over A := by
  have calls := e.move_calls
  rw [bind] at calls
  cases calls with
  | bindLeft _ => exact h.right
  | bindRight _ => exact h.left

/-- The parts of an equation have no symbols but its own. -/
theorem of_split {parts : List Equation} (h : e.Over A) (split : e.move = .split parts) :
    ∀ part ∈ parts, part.Over A := by
  have calls := e.move_calls
  rw [split] at calls
  obtain ⟨left, right⟩ := h
  cases calls with
  | split _ same =>
      cases left with
      | app _ _ lefts =>
          cases right with
          | app _ _ rights =>
              intro part hp
              obtain ⟨i, inside, rfl⟩ := List.getElem_of_mem hp
              simp only [List.getElem_zipWith]
              exact ⟨lefts _ (List.getElem_mem _), rights _ (List.getElem_mem _)⟩

end Equation.Over

/-- What unification binds is over the alphabet, whether the run ends or
not. -/
theorem Binds.over_term {equations : List Equation} {b : Binding} (binds : Binds equations b)
    (h : ∀ e ∈ equations, e.Over A) : b.term.Over A := by
  induction binds with
  | now bind => exact (h _ List.mem_cons_self).of_bind bind
  | discard _ _ ih => exact ih fun e he => h e (List.mem_cons_of_mem _ he)
  | bind bind _ ih =>
      obtain ⟨first, others⟩ := List.forall_mem_cons.mp h
      refine ih fun e he => ?_
      obtain ⟨d, hd, rfl⟩ := List.mem_map.mp he
      exact (others d hd).instantiate (first.of_bind bind)
  | split split _ ih =>
      obtain ⟨first, others⟩ := List.forall_mem_cons.mp h
      exact ih (List.forall_mem_append.mpr ⟨first.of_split split, others⟩)

/-- The equations of a resolution step are between terms of the goal and of the
head. -/
theorem Query.over_of_mem_equations {args : List Term} (fits : ∀ t ∈ args, t.Over A) {head : Atom}
    (head_over : head.Over A) : ∀ e ∈ equations args head, e.Over A := by
  intro e he
  obtain ⟨i, inside, rfl⟩ := List.getElem_of_mem he
  simp only [equations, List.getElem_zipWith]
  exact ⟨fits _ (List.getElem_mem _), head_over.args _ (List.getElem_mem _)⟩

namespace PartialProof

/-- A partial proof over an alphabet. -/
structure Over (A : Alphabet) (p : PartialProof) : Prop where
  goals : ∀ a ∈ p.goals, a.Over A
  bound : ∀ b ∈ p.bindings, b.term.Over A

variable {store : Store} {p p' : PartialProof}

/-- The arguments of the goal that is resolved. -/
theorem Over.applyAll {goal : Atom} {deferred : List Atom} {bindings : List Binding}
    (h : Over A ⟨goal :: deferred, bindings⟩) :
    ∀ t ∈ goal.args.map (applyAll bindings), t.Over A :=
  ((h.goals goal List.mem_cons_self).instantiate h.bound).args

/-- A resolution step uses symbols of the item and of the clauses only. -/
theorem Over.resolves (renames : A.Renames) (clauses : ∀ c ∈ store.clauses, c.Over A)
    (h : p.Over A) (step : Resolves store p p') : p'.Over A := by
  obtain ⟨_, bindings⟩ := p
  cases step with
  | @step goal deferred c supply made goals clause solved =>
      subst goals
      have copy := (clauses c (Store.mem_candidates.mp clause).1).standardizeApart renames supply
      have new := Query.over_of_mem_equations h.applyAll copy.head
      obtain ⟨_, waiting⟩ := List.forall_mem_cons.mp h.goals
      exact ⟨List.forall_mem_append.mpr ⟨waiting, copy.body⟩,
        List.forall_mem_append.mpr ⟨h.bound, fun b hb => (solved.binds b hb).over_term new⟩⟩

/-- Any number of resolution steps does so as well. -/
theorem Over.descends {d : Nat} (renames : A.Renames) (clauses : ∀ c ∈ store.clauses, c.Over A)
    (h : p.Over A) (below : Descends store d p p') : p'.Over A := by
  induction below with
  | refl => exact h
  | step _ last ih => exact (ih h).resolves renames clauses last

end PartialProof

namespace Query

variable {store : Store} {goals : List Atom} {verbose recording : Bool} {given supply : Supply}
  {k : Nat} {visits : List Visit} {q : Query}

/-- All that a run visits, and all that waits in its queue, is over the
alphabet. -/
theorem Run.over_item (renames : A.Renames) (clauses : ∀ c ∈ store.clauses, c.Over A)
    (asked : ∀ a ∈ goals, a.Over A)
    (run : Run store (ofGoals goals verbose recording) given k visits q supply) :
    ∀ item ∈ visits.map Visit.item ++ q.queue.toList, item.Over A := by
  intro item there
  obtain ⟨d, below⟩ := run.exists_descends item there
  exact PartialProof.Over.descends renames clauses ⟨asked, by simp⟩ below

/-- So are the values of its answers. -/
theorem Run.over_of_answered (renames : A.Renames) (clauses : ∀ c ∈ store.clauses, c.Over A)
    (asked : ∀ a ∈ goals, a.Over A)
    (run : Run store (ofGoals goals verbose recording) given k visits q supply) {visit : Visit}
    (visited : visit ∈ visits) {answer : Answer} (answered : visit.event = .answered answer) :
    ∀ b ∈ answer.values, b.term.Over A := by
  have item := run.over_item renames clauses asked visit.item
    (List.mem_append_left _ (List.mem_map_of_mem visited))
  have outcome := run.outcome visit visited
  rw [answered] at outcome
  rw [outcome.eq_valuesUnder]
  intro b hb
  obtain ⟨x, hx, rfl⟩ := List.mem_map.mp hb
  obtain ⟨a, ha, t, ht, hx⟩ := mem_vars_ofGoals.mp hx
  have allowed := ((asked a ha).args t ht).allows_of_mem_vars x hx
  exact (Term.Over.var allowed).applyAll item.bound

end Query

end Resolvent
