/-
# Soundness of answers

A candidate none of whose bindings is cyclic proves what it says: the goals of
the query, with the values of the candidate put in place of the query
variables, have proof trees from the store.

Two invariants of the search tree carry this. The first needs neither fresh
variables nor the absence of cycles: a substitution that satisfies the bindings
of a node, and proves the goals left at it, proves the goals of the query. The
second makes such a substitution out of the bindings themselves. As long as
none of them is cyclic they are in solved form, because a goal is resolved with
all bindings applied and against a copy that shares no variable with them; and
then they satisfy themselves. With a cyclic binding there need not be any
substitution that satisfies it.
-/

import Resolvent.Proofs.Search.Correspondence
import Resolvent.Proofs.Search.ProofTrees

namespace Resolvent

namespace Node

variable {store : Store} {goals : List Atom} {base : Supply} {n n' : Node}

/-- Whatever satisfies the bindings and proves what is left, proves the
goals. -/
def Reduces (store : Store) (goals : List Atom) (n : Node) : Prop :=
  ∀ τ : Substitution, τ.Satisfies n.proof.bindings →
    ∀ k, Forest store (n.proof.goals.map (Atom.subst τ)) k →
      ∃ l, Forest store (goals.map (Atom.subst τ)) l

/-- What proves the goals at a successor proves them at the node. -/
theorem Reduces.resolves (known : base.Knows store goals) (covered : Covered base n)
    (h : Reduces store goals n) (step : Resolves store n n') : Reduces store goals n' := by
  obtain ⟨goal, deferred, c, made, first, candidate, solved, rfl⟩ :=
    (covered.resolves_iff known).mp step
  intro τ satisfied k forest
  obtain ⟨clause, like⟩ := Store.mem_candidates.mp candidate
  obtain ⟨old, new⟩ := Substitution.satisfies_append.mp satisfied
  have joins := n.joins_self c τ
  have resolved := (joins.unifies_iff covered old (by simp [first]) like).mp
    ((solved.unifies_iff τ).mpr new)
  -- The forest is one for the goals that were waiting, and then one for the
  -- body.
  rw [List.map_append] at forest
  obtain ⟨waiting, body, rest, children, _⟩ := forest.exists_of_append
  rw [joins.map_subst_body] at children
  refine h τ old (body + 1 + waiting) ?_
  rw [first, List.map_cons, resolved]
  exact .cons clause children rest

/-- Bindings without a cycle are in solved form. -/
def Solves (n : Node) : Prop :=
  (∀ b ∈ n.proof.bindings, ¬ b.IsCyclic) → SolvedForm n.proof.bindings

/-- Bindings that are made in a step are in solved form together with those
before. -/
theorem Solves.resolves (known : base.Knows store goals) (covered : Covered base n)
    (h : n.Solves) (step : Resolves store n n') : n'.Solves := by
  obtain ⟨goal, deferred, c, made, first, _, solved, rfl⟩ := (covered.resolves_iff known).mp step
  intro acyclic
  obtain ⟨old_acyclic, new_acyclic⟩ := List.forall_mem_append.mp acyclic
  have old := h old_acyclic
  refine old.append (solved.solvedForm new_acyclic) fun b hb b' hb' => ?_
  -- A variable of an earlier binding is in no equation, so no new binding has
  -- it.
  have absent : ∀ e ∈ Query.equations (goal.args.map (applyAll n.proof.bindings))
      (c.head.rename (n.supply.copy c.vars)), ¬ e.Mentions b.var := by
    intro e he mentions
    rcases Query.mentions_of_mem_equations he mentions with ⟨t, ht, there⟩ | there
    · obtain ⟨s, _, rfl⟩ := List.mem_map.mp ht
      exact old.not_mem_vars_applyAll hb s there
    · obtain ⟨y, _, same⟩ :=
        exists_copy_of_mentions (fun y hy => Clause.mem_vars.mpr (.inl hy)) there
      have seen := covered.covers b.var (.inr ⟨b, hb, .inl rfl⟩)
      rw [same] at seen
      exact n.supply.not_covers_copy _ _ seen
  constructor
  · intro same
    obtain ⟨e, he, mentions⟩ := solved.exists_mentions hb' (.inl rfl)
    exact absent e he (same ▸ mentions)
  · intro occurs
    obtain ⟨e, he, mentions⟩ := solved.exists_mentions hb' (.inr occurs)
    exact absent e he mentions

/-- Both invariants hold at every node. -/
theorem reduces_and_solves (known : base.Knows store goals) (d : Nat) :
    ∀ n ∈ level store goals base d, Covered base n ∧ Reduces store goals n ∧ n.Solves := by
  have start : Reduces store goals (root goals base) := fun _ _ k forest => ⟨k, forest⟩
  refine LevelOrder.level_induction _ _ ⟨covered_root known, start, fun _ => .nil⟩ ?_ d
  rintro n ⟨covered, reduces, solves⟩ n' child
  have step := mem_successors.mp child
  exact ⟨covered.resolves known step, reduces.resolves known covered step,
    solves.resolves known covered step⟩

/-- The bindings of a candidate, read as a substitution, prove the goals. -/
theorem exists_forest_of_candidate (known : base.Knows store goals) {d : Nat}
    (there : n ∈ level store goals base d) (candidate : n.proof.goals = [])
    (acyclic : ∀ b ∈ n.proof.bindings, ¬ b.IsCyclic) :
    ∃ k, Forest store
      (goals.map (Atom.subst fun x => applyAll n.proof.bindings (.var x))) k := by
  obtain ⟨_, reduces, solves⟩ := reduces_and_solves known d n there
  refine reduces _ (solves acyclic).satisfies 0 ?_
  rw [candidate]
  exact .nil

/-- Bindings of an item without a cycle are those of a node without a cycle. -/
theorem Matches.acyclic {supply : Supply} {item : PartialProof}
    (matching : Matches base supply n item) (acyclic : ∀ b ∈ item.bindings, ¬ b.IsCyclic) :
    ∀ b ∈ n.proof.bindings, ¬ b.IsCyclic := by
  obtain ⟨π, injective, _, bound, _⟩ := matching.exists_rename
  intro b hb cycle
  refine acyclic (b.rename π) ?_ ((Binding.isCyclic_rename injective).mpr cycle)
  rw [bound]
  exact List.mem_map_of_mem hb

/-- So do those of an item of the queue that matches a candidate. -/
theorem Matches.exists_forest (known : base.Knows store goals) {d : Nat} {supply : Supply}
    {item : PartialProof} (there : n ∈ level store goals base d)
    (matching : Matches base supply n item) (candidate : item.goals = [])
    (acyclic : ∀ b ∈ item.bindings, ¬ b.IsCyclic) :
    ∃ k, Forest store
      (goals.map (Atom.subst fun x => applyAll n.proof.bindings (.var x))) k := by
  obtain ⟨π, _, no_goals, _, _⟩ := matching.exists_rename
  rw [candidate] at no_goals
  exact exists_forest_of_candidate known there (List.map_eq_nil_iff.mp no_goals.symm)
    (matching.acyclic acyclic)

/-- A ground value is the same at the node and at the item. -/
theorem Matches.applyAll_eq {supply : Supply} {item : PartialProof}
    (matching : Matches base supply n item) {x : Variable} (hx : base.Covers x)
    (ground : (applyAll item.bindings (.var x)).isGround) :
    applyAll item.bindings (.var x) = applyAll n.proof.bindings (.var x) := by
  obtain ⟨π, _, _, _, image⟩ := matching.exists_rename
  rw [image x hx, Term.isGround_rename] at ground
  rw [image x hx, Term.rename_eq_self ground]

end Node

/-! ### Answers -/

namespace Answer

/-- The value of a variable: what the answer gives it, or the variable
itself. -/
def value (answer : Answer) (x : Variable) : Term :=
  ((answer.values.find? fun b => b.var = x).map Binding.term).getD (.var x)

end Answer

namespace Query

variable {goals : List Atom} {verbose recording : Bool}

/-- The query variables are those that the goals mention. -/
theorem mem_vars_ofGoals {x : Variable} :
    x ∈ (ofGoals goals verbose recording).vars ↔ ∃ a ∈ goals, a.Mentions x := by
  simp only [ofGoals, mem_varsOf, List.mem_flatMap, Atom.Mentions]
  grind

/-- What knows the goals has handed out the variables that are asked for. -/
theorem covers_of_mem_vars {store : Store} {given : Supply} (known : given.Knows store goals)
    {x : Variable} (hx : x ∈ (ofGoals goals verbose recording).vars) : given.Covers x := by
  obtain ⟨a, ha, mentions⟩ := mem_vars_ofGoals.mp hx
  exact known.goals a ha x mentions

/-- The value of a query variable under bindings. -/
theorem value_valuesUnder {q : Query} {bindings : List Binding} {x : Variable} (hx : x ∈ q.vars) :
    (q.valuesUnder bindings).value x = applyAll bindings (.var x) := by
  have found : ∀ xs : List Variable, x ∈ xs →
      (xs.map fun y => (⟨y, applyAll bindings (.var y)⟩ : Binding)).find? (fun b => b.var = x) =
        some ⟨x, applyAll bindings (.var x)⟩ := by
    intro xs hx
    induction xs with
    | nil => cases hx
    | cons y ys ih =>
        by_cases first : y = x
        · simp [first]
        · have later : x ∈ ys := (List.mem_cons.mp hx).resolve_left (Ne.symm first)
          simp [first, ih later]
  rw [Answer.value, valuesUnder, found q.vars hx]
  rfl

/-- What a candidate without cyclic bindings answers has a proof: each query
variable gets one ground value, and all goals have proof trees under these
values. -/
theorem Run.sound {store : Store} {given supply : Supply} {k : Nat} {visits : List Visit}
    {q : Query} (known : given.Knows store goals)
    (run : Run store (ofGoals goals verbose recording) given k visits q supply)
    {visit : Visit} (visited : visit ∈ visits) {answer : Answer}
    (answered : visit.event = .answered answer)
    (acyclic : ∀ b ∈ visit.item.bindings, ¬ b.IsCyclic) :
    (answer.values.map Binding.var).Nodup ∧
      (∀ x, x ∈ answer.values.map Binding.var ↔ ∃ a ∈ goals, a.Mentions x) ∧
      (∀ b ∈ answer.values, ∀ x, x ∉ b.term.vars) ∧
      ∀ a ∈ goals, ∃ nodes, Forest store [a.subst answer.value] nodes := by
  obtain ⟨d, n, there, matching⟩ := run.exists_node known visited
  have outcome := run.outcome visit visited
  rw [answered] at outcome
  generalize visit.item = item at outcome matching acyclic
  cases outcome with
  | @answered bindings ground =>
      have keys : ((ofGoals goals verbose recording).valuesUnder bindings).values.map Binding.var =
          (ofGoals goals verbose recording).vars := by
        simp [valuesUnder, Function.comp_def]
      have values : ∀ b ∈ ((ofGoals goals verbose recording).valuesUnder bindings).values,
          b.term.isGround := List.all_eq_true.mp ground
      rw [keys]
      refine ⟨nodup_varsOf _, fun _ => mem_vars_ofGoals, fun b hb => ?_, fun a ha => ?_⟩
      · exact Term.isGround_iff.mp (values b hb)
      · obtain ⟨_, forest⟩ := matching.exists_forest known there rfl acyclic
        obtain ⟨nodes, tree⟩ := forest.exists_of_mem (List.mem_map_of_mem ha)
        have same : a.subst ((ofGoals goals verbose recording).valuesUnder bindings).value =
            a.subst fun x => applyAll n.proof.bindings (.var x) := by
          refine Atom.subst_congr fun x hx => ?_
          have asked : x ∈ (ofGoals goals verbose recording).vars :=
            mem_vars_ofGoals.mpr ⟨a, ha, hx⟩
          have closed : (applyAll bindings (.var x)).isGround :=
            values ⟨x, _⟩ (List.mem_map_of_mem asked)
          rw [value_valuesUnder asked, matching.applyAll_eq (known.goals a ha x hx) closed]
        rw [same]
        exact ⟨nodes, tree⟩

/-- The small program is right about its answer. -/
theorem Run.sound_tiny : ∃ visits q after,
    Run Tiny.store (ofGoals Tiny.goals false false) Tiny.supply 3 visits q after ∧
      ∃ visit ∈ visits, visit.event = .answered Tiny.answer ∧
        (∀ b ∈ visit.item.bindings, ¬ b.IsCyclic) ∧
        ∀ a ∈ Tiny.goals, ∃ nodes, Forest Tiny.store [a.subst Tiny.answer.value] nodes := by
  obtain ⟨earlier, q, after, run, _⟩ := Tiny.run
  have acyclic : ∀ b ∈ Tiny.bindings, ¬ b.IsCyclic := by
    change ∀ b ∈ Tiny.bindings, b.var ∉ b.term.vars
    decide
  have visited := List.mem_append_right earlier
    (List.mem_singleton_self (⟨⟨[], Tiny.bindings⟩, .answered Tiny.answer⟩ : Visit))
  exact ⟨_, q, after, run, _, visited, rfl, acyclic,
    (run.sound Tiny.knows visited rfl acyclic).2.2.2⟩

end Query

end Resolvent
