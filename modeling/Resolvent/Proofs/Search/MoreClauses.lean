/-
# Answers of a larger store

A store that has all the clauses of another one, and perhaps more, answers all
that the other one answers. It does not matter where the additional clauses
stand or in which order the common ones do: that changes when an answer comes,
but neither from which depth nor how often.

In a search tree each branch draws from a supply of its own, so what becomes of
a node when a clause is used does not depend on the other clauses. The
successors of a node over the smaller store are therefore among those over the
larger one, the very same nodes, and so is every level. Two runs may draw from
different supplies; the run over the smaller store is first made again with the
supply of the other.
-/

import Mathlib.Algebra.Order.BigOperators.Group.List
import Mathlib.Algebra.Order.Group.Nat
import Mathlib.Data.List.Perm.Subperm
import Resolvent.Proofs.Search.Lockstep
import Resolvent.Proofs.Search.Tally

namespace Resolvent

open scoped List

/-! ### Larger trees -/

/-- A tree in which items have more children has more of everything on each
level. -/
theorem LevelOrder.countP_level_le {α : Type} {children children' : α → List α}
    (more : ∀ x, children x <+~ children' x) (p : α → Bool) (d : Nat) (root : α) :
    (level children root d).countP p ≤ (level children' root d).countP p := by
  induction d generalizing root with
  | zero => exact Nat.le_refl _
  | succ d ih =>
      obtain ⟨kept, order, part⟩ := more root
      rw [countP_level_succ, countP_level_succ]
      calc ((children root).map fun x => (level children x d).countP p).sum
          ≤ ((children root).map fun x => (level children' x d).countP p).sum :=
            List.sum_le_sum fun x _ => ih x
        _ = (kept.map fun x => (level children' x d).countP p).sum := (order.symm.map _).sum_eq
        _ ≤ ((children' root).map fun x => (level children' x d).countP p).sum :=
            (part.map _).sum_le_sum fun _ _ => Nat.zero_le _

namespace Node

variable {store store' : Store}

/-- What becomes of a node by one clause does not depend on the others. -/
theorem successors_subperm (more : store.clauses <+~ store'.clauses) (n : Node) :
    n.successors store <+~ n.successors store' := by
  unfold successors
  split
  · exact .refl _
  · next goal deferred _ =>
      obtain ⟨kept, order, part⟩ : store.candidates goal <+~ store'.candidates goal :=
        List.Subperm.filter _ more
      exact ⟨_, order.filterMap _, part.filterMap _⟩

end Node

/-- What knows the larger store knows the smaller one. -/
theorem Supply.Knows.of_subperm {store store' : Store} {goals : List Atom} {given : Supply}
    (known : given.Knows store' goals) (more : store.clauses <+~ store'.clauses) :
    given.Knows store goals :=
  ⟨fun c hc => known.clauses c (more.subset hc), known.goals⟩

/-! ### Another supply -/

namespace Query

variable {store store' : Store} {goals : List Atom} {given given' supply : Supply}
  {verbose recording : Bool} {k : Nat} {visits : List Visit} {q : Query}

/-- A run can be made again with another supply: it gives the same answers and
adds as many items at each step. -/
theorem Run.exists_again (known : given.Knows store goals) (known' : given'.Knows store goals)
    (run : Run store (ofGoals goals verbose recording) given k visits q supply)
    (verbose' recording' : Bool) :
    ∃ visits' q' supply',
      Run store (ofGoals goals verbose' recording') given' k visits' q' supply' ∧
      visits'.map Visit.answer? = visits.map Visit.answer? ∧
      visits'.map Visit.added = visits.map Visit.added ∧ Lockstep supply supply' q q' ∧
      given.next ≤ supply.next ∧ given'.next ≤ supply'.next := by
  induction run with
  | nil =>
      exact ⟨[], _, _, .nil, rfl, rfl, lockstep_ofGoals known known' _ _ _ _, Nat.le_refl _,
        Nat.le_refl _⟩
  | @step k moves visits q q₁ event supply drawn after prior later made ih =>
      obtain ⟨visits', q', supply', run', answers, added, lockstep, grown, grown'⟩ := ih
      have grown := Nat.le_trans grown later
      have steps := (lockstep.mono later (Nat.le_refl _)).step (.refl store)
        (known.mono grown).of_goals (known'.mono grown').of_goals moves
      rw [made] at steps
      generalize made' : q'.step store moves supply' = out' at steps
      cases steps with
      | @some _ out' after =>
          refine ⟨_, _, _, run'.step (Nat.le_refl _) made', ?_, ?_, after.lockstep,
            Nat.le_trans grown after.grows, Nat.le_trans grown' after.grows'⟩
          · rw [List.map_append, List.map_append, answers, List.map_map, List.map_map]
            exact congrArg (_ ++ ·) (lockstep.map_visits after.answer)
          · rw [List.map_append, List.map_append, added, List.map_map, List.map_map]
            exact congrArg (_ ++ ·) (lockstep.map_visits after.successors)

/-- Whatever a run answers over a store, it answers over a store with more
clauses, from the same depth and at least as often, once it has made enough
steps. That many steps are completed unless an attempt goes on for ever. -/
theorem Run.answers_of_more_clauses (more : store.clauses <+~ store'.clauses)
    (known : given.Knows store goals) (known' : given'.Knows store' goals)
    {verbose' recording' : Bool}
    (live : NeverDiverges store' (ofGoals goals verbose' recording') given')
    (run : Run store (ofGoals goals verbose recording) given k visits q supply) :
    ∃ enough,
      (∃ visits' q' supply',
        Run store' (ofGoals goals verbose' recording') given' enough visits' q' supply') ∧
      ∀ k' visits' q' supply', enough ≤ k' →
        Run store' (ofGoals goals verbose' recording') given' k' visits' q' supply' →
        ∀ d answer, emitted visits d answer ≤ emitted visits' d answer := by
  have known_again := known'.of_subperm more
  obtain ⟨again, _, _, run_again, answers, added, _⟩ :=
    run.exists_again known known_again verbose' recording'
  obtain ⟨m, at_most⟩ := Node.exists_countP_taken_le store goals given' k
  obtain ⟨enough, at_least⟩ := Node.exists_le_countP_taken store' goals given' m
  refine ⟨enough, exists_of_neverDiverges live enough, fun k' visits' q' supply' later run' => ?_⟩
  intro d answer
  let gives (n : Node) : Bool := n.answer? (ofGoals goals verbose' recording') = some answer
  have same : emitted visits d answer = emitted again d answer := by
    rw [emitted, emitted, depths, depths, answers, added]
  calc emitted visits d answer
      = (Node.sweep store goals given' k).taken.countP fun n => n.depth = d && gives n := by
        rw [same, run_again.emitted_eq known_again]
    _ ≤ if d < m then (Node.level store goals given' d).countP gives else 0 := at_most d gives
    _ ≤ if d < m then (Node.level store' goals given' d).countP gives else 0 := by
        split
        · exact LevelOrder.countP_level_le (Node.successors_subperm more) gives d _
        · exact Nat.le_refl _
    _ ≤ (Node.sweep store' goals given' k').taken.countP fun n => n.depth = d && gives n :=
        at_least k' later d gives
    _ = emitted visits' d answer := (run'.emitted_eq known' d answer).symm

/-- The program `edge(a, b). edge(a, b). path(X, Y) :- edge(X, Y).` answers
`path(a, W)` twice by `b`, from depth two. It still does when there is one more
edge between the two facts and a rule in front with which the search is
endless. -/
theorem Run.answers_of_more_clauses_path :
    let edge (t u : Term) : Atom := ⟨⟨0, "edge"⟩, [t, u]⟩
    let path (t u : Term) : Atom := ⟨⟨1, "path"⟩, [t, u]⟩
    let a : Term := .const ⟨2, "a"⟩
    let b : Term := .const ⟨3, "b"⟩
    let c : Term := .const ⟨4, "c"⟩
    let x : Variable := ⟨5, "X"⟩
    let y : Variable := ⟨6, "Y"⟩
    let z : Variable := ⟨7, "Z"⟩
    let w : Variable := ⟨8, "W"⟩
    let direct : Rule := ⟨path (.var x) (.var y), [edge (.var x) (.var y)]⟩
    let through : Rule :=
      ⟨path (.var x) (.var z), [path (.var x) (.var y), path (.var y) (.var z)]⟩
    let store : Store := ⟨[edge a b, edge a b], [direct]⟩
    let store' : Store := ⟨[edge a b, edge b c, edge a b], [through, direct]⟩
    let query : List Atom := [path a (.var w)]
    store.clauses <+~ store'.clauses ∧
      ∃ k visits q after, Run store' (ofGoals query false false) ⟨9⟩ k visits q after ∧
        2 ≤ emitted visits 2 ⟨[⟨w, b⟩]⟩ := by
  intro edge path a b c x y z w direct through store store' query
  have more : store.clauses <+~ store'.clauses := by decide
  have known : Supply.Knows ⟨9⟩ store' query := by
    apply Supply.Knows.of_vars <;> decide
  have live : NeverDiverges store' (ofGoals query false false) ⟨9⟩ :=
    neverDiverges_of_linear known (by decide)
  have start : Run store (ofGoals query false false) ⟨9⟩ 0 [] _ _ := .nil
  have first := start.step (Nat.le_refl _) (show Query.step _ _ 2 _ = some ⟨_, _, _⟩ from rfl)
  have second := first.step (Nat.le_refl _) (show Query.step _ _ 2 _ = some ⟨_, _, _⟩ from rfl)
  have third := second.step (Nat.le_refl _) (show Query.step _ _ 0 _ = some ⟨_, _, _⟩ from rfl)
  have fourth := third.step (Nat.le_refl _) (show Query.step _ _ 0 _ = some ⟨_, _, _⟩ from rfl)
  obtain ⟨enough, ⟨visits, q, after, run⟩, often⟩ :=
    answers_of_more_clauses more (known.of_subperm more) known live fourth
  exact ⟨more, enough, visits, q, after, run,
    often _ _ _ _ (Nat.le_refl _) run 2 ⟨[⟨w, b⟩]⟩⟩

end Query

end Resolvent
