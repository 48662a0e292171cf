/-
# Completeness of the search

What can be proven is found. If the goals of a query have proof trees under
some substitution, then the search tree has a candidate as deep as the trees
have nodes, and its bindings are at least as general as the substitution. The
search comes to that candidate because it goes through the tree level by level,
however many infinite branches there are beside it.

The lemma behind this lifts one node of a proof tree to a resolution step: the
given substitution and the instance of the clause together solve the equations
of the step, so unification yields bindings that are no less general. The
argument goes by the number of nodes still to be lifted, and not by the trees,
because the body of a clause is put behind the goals that are waiting.
-/

import Resolvent.Proofs.Search.LinearHeads
import Resolvent.Proofs.Search.Soundness

namespace Resolvent

namespace Node

variable {store : Store} {goals : List Atom} {base : Supply} {n : Node}

/-- A goal that has an instance in common with the head of a clause is resolved
against it, and the bindings that are made are no less general. -/
theorem exists_resolves (known : base.Knows store goals) (covered : Covered base n)
    {τ θ : Substitution} (satisfied : τ.Satisfies n.proof.bindings) {goal : Atom}
    {deferred : List Atom} (first : n.proof.goals = goal :: deferred) {c : Clause}
    (clause : c ∈ store.clauses) (same : goal.subst τ = c.head.subst θ) :
    ∃ n' τ', Resolves store n n' ∧ Substitution.Satisfies τ' n'.proof.bindings ∧
      (∀ x, n.supply.Covers x → τ' x = τ x) ∧
      n'.proof.goals.map (Atom.subst τ') =
        deferred.map (Atom.subst τ) ++ c.body.map (Atom.subst θ) := by
  have joins := n.joins_withCopies c τ θ
  have goal_mem : goal ∈ n.proof.goals := by simp [first]
  have like := Atom.matches?_of_subst_eq same
  have unifies := (joins.unifies_iff covered satisfied goal_mem like).mpr same
  obtain ⟨made, solved⟩ := Yields.exists_of_unifies unifies
  refine ⟨_, _, (covered.resolves_iff known).mpr ⟨goal, deferred, c, made, first,
    Store.mem_candidates.mpr ⟨clause, like⟩, solved, rfl⟩, ?_, joins.known, ?_⟩
  · exact Substitution.satisfies_append.mpr
      ⟨(joins.satisfies_iff covered).mpr satisfied, (solved.unifies_iff _).mp unifies⟩
  · rw [List.map_append, joins.map_subst_body, List.map_congr_left fun a ha => ?_]
    exact joins.subst_goal covered (by simp [first, ha])

/-- As many steps as a forest has nodes lead to a candidate that is no less
general. -/
theorem exists_candidate (known : base.Knows store goals) {d : Nat} {τ : Substitution}
    (covered : Covered base n) (satisfied : τ.Satisfies n.proof.bindings)
    (forest : Forest store (n.proof.goals.map (Atom.subst τ)) d) :
    ∃ m ∈ LevelOrder.level (successors store) n d, m.proof.goals = [] ∧
      ∃ τ' : Substitution, τ'.Satisfies m.proof.bindings ∧
        ∀ x, n.supply.Covers x → τ' x = τ x := by
  induction d generalizing n τ with
  | zero =>
      cases goals : n.proof.goals with
      | nil => exact ⟨n, by simp [LevelOrder.level], goals, τ, satisfied, fun _ _ => rfl⟩
      | cons goal deferred =>
          rw [goals, List.map_cons] at forest
          obtain ⟨_, _, _, _, _, _, _, _, count⟩ := forest.exists_of_cons
          omega
  | succ d ih =>
      cases goals : n.proof.goals with
      | nil =>
          rw [goals] at forest
          cases forest
      | cons goal deferred =>
          rw [goals, List.map_cons] at forest
          obtain ⟨c, θ, below, beside, clause, same, children, rest, count⟩ :=
            forest.exists_of_cons
          obtain ⟨n', τ', step, satisfied', kept, left⟩ :=
            exists_resolves known covered satisfied goals clause same
          have smaller : Forest store (n'.proof.goals.map (Atom.subst τ')) d := by
            have fewer : d = beside + below := by omega
            rw [left, fewer]
            exact rest.append children
          obtain ⟨m, there, candidate, σ, solves, agree⟩ :=
            ih (covered.resolves known step) satisfied' smaller
          refine ⟨m, LevelOrder.mem_level_of_child _ _ (mem_successors.mpr step) there, candidate,
            σ, solves, fun x hx => ?_⟩
          rw [agree x (hx.mono (covered.grows known step)), kept x hx]

/-- The image of a candidate in the queue is as general as the candidate. -/
theorem Matches.exists_instance {supply : Supply} {item : PartialProof}
    (matching : Matches base supply n item) {τ : Substitution}
    (satisfied : τ.Satisfies n.proof.bindings) :
    ∃ ρ : Substitution, ∀ x, base.Covers x →
      (applyAll item.bindings (.var x)).subst ρ = τ x := by
  obtain ⟨π, injective, _, _, image⟩ := matching.exists_rename
  have : Nonempty Variable := ⟨⟨0, ""⟩⟩
  obtain ⟨back, undo⟩ := injective.hasLeftInverse
  refine ⟨fun x => τ (back x), fun x hx => ?_⟩
  have undone : (fun y => τ (back (π y))) = τ := funext fun y => congrArg τ (undo y)
  rw [image x hx, Term.subst_rename, undone, Substitution.subst_applyAll satisfied]
  rfl

end Node

namespace Query

/-- A candidate is an answer exactly if it gives every query variable a ground
value. -/
theorem Outcome.answered_iff {q : Query} {item : PartialProof} {event : Event}
    (h : q.Outcome item event) (candidate : item.goals = []) :
    (∃ answer, event = .answered answer) ↔
      ∀ x ∈ q.vars, (applyAll item.bindings (.var x)).isGround := by
  cases h with
  | answered ground => simpa [← isGround_valuesUnder] using ground
  | discarded unbound => simpa [← isGround_valuesUnder] using unbound
  | expanded => cases candidate

/-- The values of an answer are those of the candidate. -/
theorem Outcome.eq_valuesUnder {q : Query} {item : PartialProof} {answer : Answer}
    (h : q.Outcome item (.answered answer)) : answer = q.valuesUnder item.bindings := by
  cases h
  rfl

/-- Only a candidate with ground values is an answer. -/
theorem Outcome.isGround {q : Query} {item : PartialProof} {answer : Answer}
    (h : q.Outcome item (.answered answer)) : answer.isGround := by
  cases h with
  | answered ground => exact ground

end Query

/-- A visit finds a substitution if it is to a candidate at a given depth of
the search tree, one at least as general as the substitution, which is an
answer exactly if it gives all query variables ground values, and then the very
values of the substitution. -/
structure Visit.Finds (store : Store) (start : Query) (given : Supply) (θ : Substitution)
    (d : Nat) (visit : Visit) : Prop where
  candidate : visit.item.goals = []
  depth : ∃ n ∈ Node.level store start.goals given d, n.proof.SameUpToFresh given visit.item
  general : ∃ ρ : Substitution, ∀ x ∈ start.vars,
    (applyAll visit.item.bindings (.var x)).subst ρ = θ x
  answered : (∃ answer, visit.event = .answered answer) ↔
    ∀ x ∈ start.vars, (applyAll visit.item.bindings (.var x)).isGround
  values : ∀ answer, visit.event = .answered answer →
    answer.values = start.vars.map fun x => ⟨x, θ x⟩

namespace Query.Run

variable {store : Store} {goals : List Atom} {verbose recording : Bool} {given supply : Supply}
  {k : Nat} {visits : List Visit} {q : Query}

/-- If no attempt goes on for ever, any number of steps can be completed. -/
theorem exists_of_neverDiverges {start : Query} (live : NeverDiverges store start given)
    (k : Nat) : ∃ visits q supply, Run store start given k visits q supply := by
  induction k with
  | zero => exact ⟨_, _, _, .nil⟩
  | succ k ih =>
      obtain ⟨visits, q, supply, run⟩ := ih
      obtain ⟨moves, ⟨event, q', after⟩, made⟩ := exists_step_iff.mpr (live k visits q supply run)
      exact ⟨_, _, _, run.step (Nat.le_refl _) made⟩

/-- What a sweep has taken, the run has visited. -/
theorem exists_visit (known : given.Knows store goals)
    (run : Run store (ofGoals goals verbose recording) given k visits q supply) {n : Node}
    (taken : n ∈ (Node.sweep store goals given k).taken) :
    ∃ visit ∈ visits, n.Matches given supply visit.item := by
  obtain ⟨_, linked, _⟩ := run.matches_sweep known
  obtain ⟨_, image, matching⟩ := exists_partner linked.flip taken
  obtain ⟨visit, visited, rfl⟩ := List.mem_map.mp image
  exact ⟨visit, visited, matching⟩

/-- If the goals have a forest under a substitution then some node of the tree,
at the depth that the forest has nodes, lets every run that visits it find the
substitution. -/
theorem exists_finds (known : given.Knows store goals) {θ : Substitution} {d : Nat}
    (forest : Forest store (goals.map (Atom.subst θ)) d) :
    ∃ n ∈ Node.level store goals given d, ∀ {k visits q supply},
      Run store (ofGoals goals verbose recording) given k visits q supply →
      n ∈ (Node.sweep store goals given k).taken →
      ∃ visit ∈ visits, visit.Finds store (ofGoals goals verbose recording) given θ d := by
  obtain ⟨n, there, candidate, τ, satisfied, agree⟩ :=
    Node.exists_candidate known (Node.covered_root known) (Substitution.satisfies_nil θ) forest
  refine ⟨n, there, fun run taken => ?_⟩
  obtain ⟨visit, visited, matching⟩ := run.exists_visit known taken
  have outcome := run.outcome visit visited
  have no_goals : visit.item.goals = [] := by
    obtain ⟨π, _, no_goals, _, _⟩ := matching.exists_rename
    rw [no_goals, candidate, List.map_nil]
  obtain ⟨ρ, general⟩ := matching.exists_instance satisfied
  have general : ∀ x ∈ (ofGoals goals verbose recording).vars,
      (applyAll visit.item.bindings (.var x)).subst ρ = θ x := fun x hx => by
    rw [general x (covers_of_mem_vars known hx), agree x (covers_of_mem_vars known hx)]
  refine ⟨visit, visited, no_goals, ⟨n, there, matching.sameUpToFresh⟩, ⟨ρ, general⟩,
    outcome.answered_iff no_goals, fun answer answered => ?_⟩
  have ground := (outcome.answered_iff no_goals).mp ⟨answer, answered⟩
  rw [answered] at outcome
  rw [outcome.eq_valuesUnder, valuesUnder]
  refine List.map_congr_left fun x hx => ?_
  rw [← general x hx, Term.subst_eq_self (ground x hx)]

/-- Completeness of the search. Whatever substitution has a forest for the
goals is found after enough steps, and unless an attempt goes on for ever that
many steps are completed. A query without variables that has used up its queue
and found no answer has no proof. -/
theorem complete (known : given.Knows store goals) :
    (∀ (θ : Substitution) (d : Nat), Forest store (goals.map (Atom.subst θ)) d →
      ∃ enough,
        (NeverDiverges store (ofGoals goals verbose recording) given → ∃ visits q supply,
          Run store (ofGoals goals verbose recording) given enough visits q supply) ∧
        ∀ k visits q supply, enough ≤ k →
          Run store (ofGoals goals verbose recording) given k visits q supply →
          ∃ visit ∈ visits, visit.Finds store (ofGoals goals verbose recording) given θ d) ∧
    ((∀ a ∈ goals, ∀ x, ¬ a.Mentions x) → ∀ k visits q supply,
      Run store (ofGoals goals verbose recording) given k visits q supply → q.isExhausted →
      (∀ visit ∈ visits, ∀ answer, visit.event ≠ .answered answer) →
      ¬ ∃ d, Forest store goals d) := by
  constructor
  · intro θ d forest
    obtain ⟨n, there, finds⟩ := exists_finds known forest
    obtain ⟨k, rest, front⟩ := LevelOrder.exists_sweep_front _ _ there
    refine ⟨k + 1, fun live => exists_of_neverDiverges live (k + 1), ?_⟩
    exact fun more visits q supply later run =>
      finds run (LevelOrder.mem_taken_of_front _ _ front later)
  · rintro closed k visits q supply run exhausted unanswered ⟨d, forest⟩
    have same : goals.map (Atom.subst .var) = goals := by
      rw [List.map_congr_left fun a _ => a.subst_id, List.map_id']
    rw [← same] at forest
    obtain ⟨n, there, finds⟩ := exists_finds known forest
    obtain ⟨j, rest, front⟩ := LevelOrder.exists_sweep_front _ _ there
    -- The queue is empty, so the sweep has come to its end and has taken all
    -- nodes.
    obtain ⟨_, _, waiting⟩ := run.matches_sweep known
    rw [q.queue.isEmpty_iff.mp exhausted, List.forall₂_nil_right_iff] at waiting
    have taken : n ∈ (Node.sweep store goals given k).taken := by
      rw [Node.sweep, ← LevelOrder.sweep_eq_of_empty _ _ waiting (Nat.le_max_left k (j + 1))]
      exact LevelOrder.mem_taken_of_front _ _ front (Nat.le_max_right k (j + 1))
    obtain ⟨visit, visited, found⟩ := finds run taken
    have ground : ∀ x ∈ (ofGoals goals verbose recording).vars,
        (applyAll visit.item.bindings (.var x)).isGround := by
      intro x hx
      obtain ⟨a, ha, mentions⟩ := mem_vars_ofGoals.mp hx
      exact absurd mentions (closed a ha x)
    obtain ⟨answer, answered⟩ := found.answered.mpr ground
    exact unanswered visit visited answer answered

/-- With the program `less(z, s(Y)).` and `less(s(X), s(Y)) :- less(X, Y).` the
search for `less(M, N)` is endless. It finds that nought is less than one by a
candidate that says more, as it leaves open which number is above nought. A
second goal `less(N, s(s(z)))` bounds that number. And there is no proof that
one is less than nought, because the search for it comes to its end with no
answer. -/
theorem complete_less :
    let less (t u : Term) : Atom := ⟨⟨0, "less"⟩, [t, u]⟩
    let z : Term := .const ⟨1, "z"⟩
    let s (t : Term) : Term := .app ⟨2, "s"⟩ [t]
    let x : Variable := ⟨3, "X"⟩
    let y : Variable := ⟨4, "Y"⟩
    let m : Variable := ⟨5, "M"⟩
    let n : Variable := ⟨6, "N"⟩
    let store : Store := ⟨[less z (s (.var y))],
      [⟨less (s (.var x)) (s (.var y)), [less (.var x) (.var y)]⟩]⟩
    let unbounded : List Atom := [less (.var m) (.var n)]
    let bounded : List Atom := [less (.var m) (.var n), less (.var n) (s (s z))]
    let θ : Substitution := fun v => if v = m then z else if v = n then s z else .var v
    (∃ k visits query after, Run store (ofGoals unbounded false false) ⟨7⟩ k visits query after ∧
      ∃ visit ∈ visits, visit.Finds store (ofGoals unbounded false false) ⟨7⟩ θ 1) ∧
    (∃ k visits query after, Run store (ofGoals bounded false false) ⟨7⟩ k visits query after ∧
      ∃ visit ∈ visits, visit.Finds store (ofGoals bounded false false) ⟨7⟩ θ 3) ∧
    ¬ ∃ d, Forest store [less (s z) z] d := by
  intro less z s x y m n store unbounded bounded θ
  have linear : ∀ c ∈ store.clauses, c.HasLinearHead := by decide
  have known : Supply.Knows ⟨7⟩ store unbounded := by
    apply Supply.Knows.of_vars <;> decide
  have known' : Supply.Knows ⟨7⟩ store bounded := by
    apply Supply.Knows.of_vars <;> decide
  have closed : Supply.Knows ⟨7⟩ store [less (s z) z] := by
    apply Supply.Knows.of_vars <;> decide
  have smaller : Forest store [less z (s z)] 1 :=
    Forest.cons (c := .fact (less z (s (.var y)))) (θ := fun _ => z)
      List.mem_cons_self .nil .nil
  have next : Forest store [less (s z) (s (s z))] 2 :=
    Forest.cons (c := .rule ⟨less (s (.var x)) (s (.var y)), [less (.var x) (.var y)]⟩)
      (θ := fun v => if v = x then z else s z) (by decide) smaller .nil
  have found {goals : List Atom} (known : Supply.Knows ⟨7⟩ store goals) {d : Nat}
      (forest : Forest store (goals.map (Atom.subst θ)) d) :
      ∃ k visits query after, Run store (ofGoals goals false false) ⟨7⟩ k visits query after ∧
        ∃ visit ∈ visits, visit.Finds store (ofGoals goals false false) ⟨7⟩ θ d := by
    obtain ⟨enough, completed, finds⟩ := (complete known).1 θ d forest
    obtain ⟨visits, query, after, run⟩ := completed (neverDiverges_of_linear known linear)
    exact ⟨enough, visits, query, after, run, finds _ _ _ _ (Nat.le_refl _) run⟩
  refine ⟨found known smaller, found known' (smaller.append next), ?_⟩
  have start : Run store (ofGoals [less (s z) z] false false) ⟨7⟩ 0 [] _ _ := .nil
  have only := start.step (Nat.le_refl _) (show Query.step _ _ 4 _ = some ⟨_, _, _⟩ from rfl)
  have ground : ∀ a ∈ [less (s z) z], a.vars = [] := by decide
  refine (complete closed).2 (fun a ha x mentions => ?_) _ _ _ _ only rfl fun visit visited => ?_
  · have listed : x ∈ a.vars := mem_varsOf.mpr mentions
    simp [ground a ha] at listed
  · obtain rfl := List.mem_singleton.mp visited
    exact fun _ => Event.noConfusion

end Query.Run

end Resolvent
