/-
# The search tree

The search tree of a list of goals says what there is to be searched, without
saying in which order it is done and who else draws fresh variables meanwhile.
Its root has all goals and no bindings. The successors of a node come from
resolving its first goal against the matching clauses, facts before rules: one
for each clause whose head can be made the same as the goal, and none for a
clause with which unification clashes or never ends.

Every branch of the tree draws from a supply of its own. Two branches may
therefore use the same fresh variables, which does no harm because they never
meet.
-/

import Resolvent.Proofs.Clauses.Standardized
import Resolvent.Proofs.Search.LevelOrder
import Resolvent.Proofs.Search.Run

namespace Resolvent

/-- A partial proof in the search tree, the supply from which its branch goes
on drawing, and the number of resolution steps that have led to it. -/
structure Node where
  proof : PartialProof
  supply : Supply
  depth : Nat

namespace Node

/-- The node with everything still to do. -/
def root (goals : List Atom) (supply : Supply) : Node :=
  ⟨⟨goals, []⟩, supply, 0⟩

/-- The node that comes of resolving a goal against a copy of a clause, if the
copy's head can be made the same as the goal. -/
noncomputable def resolve? (n : Node) (goal : Atom) (deferred : List Atom) (c : Clause) :
    Option Node :=
  let (fresh, supply) := c.standardizeApart n.supply
  (solution? (Query.equations (goal.args.map (applyAll n.proof.bindings)) fresh.head)).map
    fun made => ⟨⟨deferred ++ fresh.body, n.proof.bindings ++ made⟩, supply, n.depth + 1⟩

/-- The nodes that come of resolving the first goal, in the order of the
clauses. -/
noncomputable def successors (store : Store) (n : Node) : List Node :=
  match n.proof.goals with
  | [] => []
  | goal :: deferred => (store.candidates goal).filterMap (n.resolve? goal deferred)

/-- One node comes of another by a resolution step. -/
inductive Resolves (store : Store) (n : Node) : Node → Prop
  | step {goal : Atom} {deferred : List Atom} {c fresh : Clause} {supply : Supply}
      {made : List Binding} (goals : n.proof.goals = goal :: deferred)
      (clause : c ∈ store.candidates goal) (copy : c.standardizeApart n.supply = (fresh, supply))
      (solved : Yields (Query.equations (goal.args.map (applyAll n.proof.bindings)) fresh.head)
        made) :
      Resolves store n ⟨⟨deferred ++ fresh.body, n.proof.bindings ++ made⟩, supply, n.depth + 1⟩

/-- The successors of a node are what its first goal can be resolved to. -/
theorem mem_successors {store : Store} {n n' : Node} :
    n' ∈ n.successors store ↔ Resolves store n n' := by
  unfold successors
  constructor
  · intro h
    split at h
    · cases h
    · next goal deferred goals =>
        obtain ⟨c, clause, found⟩ := List.mem_filterMap.mp h
        simp only [resolve?, Option.map_eq_some_iff] at found
        obtain ⟨made, solved, rfl⟩ := found
        exact .step goals clause rfl (solution?_eq_some_iff.mp solved)
  · rintro ⟨goals, clause, copy, solved⟩
    simp only [goals]
    refine List.mem_filterMap.mpr ⟨_, clause, ?_⟩
    simp only [resolve?, copy, solution?_eq_some_iff.mpr solved, Option.map_some]

/-- The nodes at a depth of the search tree, from left to right. -/
noncomputable def level (store : Store) (goals : List Atom) (base : Supply) : Nat → List Node :=
  LevelOrder.level (successors store) (root goals base)

/-- The nodes above a depth, level after level. -/
noncomputable def above (store : Store) (goals : List Atom) (base : Supply) : Nat → List Node :=
  LevelOrder.above (successors store) (root goals base)

/-- A sweep through the search tree, taking one node after another. -/
noncomputable def sweep (store : Store) (goals : List Atom) (base : Supply) :
    Nat → LevelOrder.Sweep Node :=
  LevelOrder.sweep (successors store) (root goals base)

/-- The nodes of a level have its number for their depth. -/
theorem depth_of_mem_level {store : Store} {goals : List Atom} {base : Supply} {d : Nat} :
    ∀ n ∈ level store goals base d, n.depth = d := by
  induction d with
  | zero => simp [level, LevelOrder.level, root]
  | succ d ih =>
      intro n hn
      obtain ⟨parent, there, child⟩ := List.mem_flatMap.mp hn
      cases mem_successors.mp child with
      | step => simp [ih parent there]

end Node

/-! ### Known variables -/

/-- Everything that the store and the goals mention has been handed out
already. Symbols come from the supply and from nowhere else, so this is so for
all clauses and goals that were made before the search. -/
structure Supply.Knows (supply : Supply) (store : Store) (goals : List Atom) : Prop where
  clauses : ∀ c ∈ store.clauses, ∀ x ∈ c.vars, supply.Covers x
  goals : ∀ a ∈ goals, ∀ x, a.Mentions x → supply.Covers x

instance (supply : Supply) (x : Variable) : Decidable (supply.Covers x) :=
  inferInstanceAs (Decidable (x.serial < supply.next))

/-- It is enough to look at the variables that are collected from the goals. -/
theorem Supply.Knows.of_vars {supply : Supply} {store : Store} {goals : List Atom}
    (clauses : ∀ c ∈ store.clauses, ∀ x ∈ c.vars, supply.Covers x)
    (asked : ∀ a ∈ goals, ∀ x ∈ a.vars, supply.Covers x) : supply.Knows store goals :=
  ⟨clauses, fun a ha x mentions => asked a ha x (mem_varsOf.mpr mentions)⟩

/-- All symbols of the small program have been handed out. -/
theorem Tiny.knows : supply.Knows store goals := by
  apply Supply.Knows.of_vars <;> decide

/-- Whether a variable occurs in the goals or in the bindings. -/
def PartialProof.Mentions (p : PartialProof) (x : Variable) : Prop :=
  (∃ a ∈ p.goals, a.Mentions x) ∨ ∃ b ∈ p.bindings, x = b.var ∨ x ∈ b.term.vars

/-- The candidates for a goal are the clauses whose heads match it. -/
theorem Store.mem_candidates {store : Store} {goal : Atom} {c : Clause} :
    c ∈ store.candidates goal ↔ c ∈ store.clauses ∧ c.head.matches? goal :=
  List.mem_filter

/-- The arguments of a goal have no say in which clauses match it. -/
theorem Store.candidates_subst (store : Store) (θ : Substitution) (goal : Atom) :
    store.candidates (goal.subst θ) = store.candidates goal := by
  simp only [candidates, Atom.matches?_subst]

namespace Query

/-- The equations of a resolution step speak of the goal and of the head
alone. -/
theorem mentions_of_mem_equations {args : List Term} {head : Atom} {e : Equation}
    (h : e ∈ equations args head) {x : Variable} (hx : e.Mentions x) :
    (∃ t ∈ args, x ∈ t.vars) ∨ head.Mentions x := by
  obtain ⟨hs, ht⟩ := Equation.mem_zipWith h
  rcases hx with left | right
  · exact .inl ⟨e.left, hs, left⟩
  · exact .inr ⟨e.right, ht, right⟩

end Query

namespace Node

/-- The supply of a node has handed out all that the node mentions, and more
than a given supply had. -/
structure Covered (base : Supply) (n : Node) : Prop where
  later : base.next ≤ n.supply.next
  covers : ∀ x, n.proof.Mentions x → n.supply.Covers x

variable {store : Store} {goals : List Atom} {base : Supply} {n n' : Node}

/-- At the root nothing has been drawn from the supply. -/
theorem covered_root (known : base.Knows store goals) : Covered base (root goals base) where
  later := Nat.le_refl _
  covers := by
    rintro x (⟨a, ha, hx⟩ | ⟨b, hb, _⟩)
    · exact known.goals a ha x hx
    · cases hb

/-- What a goal of a node mentions under the bindings of the node is known. -/
theorem Covered.covers_applyAll (h : Covered base n) {goal : Atom} (hg : goal ∈ n.proof.goals)
    {t : Term} (ht : t ∈ goal.args.map (applyAll n.proof.bindings)) {x : Variable}
    (hx : x ∈ t.vars) : n.supply.Covers x := by
  obtain ⟨s, hs, rfl⟩ := List.mem_map.mp ht
  rcases mem_vars_of_mem_applyAll hx with there | ⟨b, hb, there⟩
  · exact h.covers x (.inl ⟨goal, hg, s, hs, there⟩)
  · exact h.covers x (.inr ⟨b, hb, .inr there⟩)

/-- In the copy of an atom of a clause there are only copies of variables of
the clause. -/
theorem exists_copy_of_mentions {c : Clause} {supply : Supply} {a : Atom} {x : Variable}
    (part : ∀ y, a.Mentions y → y ∈ c.vars)
    (hx : (a.rename (supply.copy c.vars)).Mentions x) : ∃ y ∈ c.vars, x = supply.copy c.vars y := by
  obtain ⟨y, hy, same⟩ := Atom.mentions_subst.mp hx
  exact ⟨y, part y hy, by simpa using same⟩

/-- At a covered node, standardizing apart is a renaming of all variables at
once. -/
theorem Covered.resolves_iff (known : base.Knows store goals) (h : Covered base n) :
    Resolves store n n' ↔ ∃ goal deferred c made, n.proof.goals = goal :: deferred ∧
      c ∈ store.candidates goal ∧
      Yields (Query.equations (goal.args.map (applyAll n.proof.bindings))
        (c.head.rename (n.supply.copy c.vars))) made ∧
      n' = ⟨⟨deferred ++ c.body.map (Atom.rename (n.supply.copy c.vars)),
          n.proof.bindings ++ made⟩, n.supply.skip c.vars.length, n.depth + 1⟩ := by
  have apart {goal : Atom} {c : Clause} (clause : c ∈ store.candidates goal) :
      c.standardizeApart n.supply =
        (c.rename (n.supply.copy c.vars), n.supply.skip c.vars.length) :=
    Clause.standardizeApart_eq fun x hx =>
      (known.clauses c (Store.mem_candidates.mp clause).1 x hx).mono h.later
  constructor
  · rintro @⟨goal, deferred, c, fresh, supply, made, first, clause, copy, solved⟩
    rw [apart clause] at copy
    obtain ⟨rfl, rfl⟩ := Prod.mk.inj copy
    rw [Clause.head_rename] at solved
    exact ⟨goal, deferred, c, made, first, clause, solved, by rw [Clause.body_rename]⟩
  · rintro ⟨goal, deferred, c, made, first, clause, solved, rfl⟩
    rw [← Clause.head_rename] at solved
    rw [← Clause.body_rename]
    exact .step first clause (apart clause) solved

/-- A resolution step does not take back what has been handed out. -/
theorem Covered.grows (known : base.Knows store goals) (h : Covered base n)
    (step : Resolves store n n') : n.supply.next ≤ n'.supply.next := by
  obtain ⟨_, _, c, _, _, _, _, rfl⟩ := (h.resolves_iff known).mp step
  exact Nat.le_add_right _ _

/-- What a node mentions has been handed out, and so it has after a resolution
step. -/
theorem Covered.resolves (known : base.Knows store goals) (h : Covered base n)
    (step : Resolves store n n') : Covered base n' := by
  have grows := h.grows known step
  obtain ⟨goal, deferred, c, made, first, _, solved, rfl⟩ := (h.resolves_iff known).mp step
  have goal_mem : goal ∈ n.proof.goals := by simp [first]
  have copied {a : Atom} (part : ∀ y, a.Mentions y → y ∈ c.vars) {x : Variable}
      (hx : (a.rename (n.supply.copy c.vars)).Mentions x) :
      (n.supply.skip c.vars.length).Covers x := by
    obtain ⟨y, hy, rfl⟩ := exists_copy_of_mentions part hx
    exact n.supply.covers_copy hy
  refine ⟨Nat.le_trans h.later grows, ?_⟩
  rintro x (⟨a, ha, hx⟩ | ⟨b, hb, hx⟩)
  · rcases List.mem_append.mp ha with waiting | new
    · have before : a ∈ n.proof.goals := by simp [first, waiting]
      exact (h.covers x (.inl ⟨a, before, hx⟩)).mono grows
    · obtain ⟨part, among, rfl⟩ := List.mem_map.mp new
      exact copied (fun y hy => Clause.mem_vars.mpr (.inr ⟨part, among, hy⟩)) hx
  · rcases List.mem_append.mp hb with old | new
    · exact (h.covers x (.inr ⟨b, old, hx⟩)).mono grows
    · obtain ⟨e, he, mentions⟩ := solved.exists_mentions new hx
      rcases Query.mentions_of_mem_equations he mentions with ⟨t, ht, hx⟩ | hx
      · exact (h.covers_applyAll goal_mem ht hx).mono grows
      · exact copied (fun y hy => Clause.mem_vars.mpr (.inl hy)) hx

/-- Every node of the tree is covered. -/
theorem covered_of_mem_level (known : base.Knows store goals) (d : Nat) :
    ∀ n ∈ level store goals base d, Covered base n :=
  LevelOrder.level_induction _ _ (covered_root known)
    (fun _ covered _ child => covered.resolves known (mem_successors.mp child)) d

end Node

end Resolvent
