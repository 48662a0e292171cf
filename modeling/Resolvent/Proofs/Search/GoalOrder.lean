/-
# The order of the goals

The goals of a query may be put in any order. The same answers are given as
often, though not at the same time and not by way of the same bindings.

A node of the search tree has a prospect: the substitutions that satisfy its
bindings, and what they make of the goals that are left. Resolving a goal
against a clause does to the prospect what `Prospect.resolve` says, because the
bindings that are made have the solutions of the equations. The candidates for
an answer that lie so many steps below a node are therefore counted by the ways
of its prospect, and at the root of the tree these do not depend on the order
of the goals. In particular the answer comes from the same depth.

Between candidates and prospects the bindings have to be read as a
substitution, which needs them to be without cycles. It is enough to ask for
that in the search whose answers are to be found again: what has a solution is
without cycles.
-/

import Resolvent.Proofs.Search.FunctionFree
import Resolvent.Proofs.Search.Prospects
import Resolvent.Proofs.Search.Tally

namespace Resolvent

/-- Whether two answers are the same mapping. They list the variables in the
order in which the goals of their queries have them. -/
def Answer.sameMapping (answer answer' : Answer) : Bool :=
  answer.values.isPerm answer'.values

/-- Whether a visit has given an answer. -/
def Visit.gives (visit : Visit) (answer : Answer) : Bool :=
  visit.answer?.any (·.sameMapping answer)

namespace Node

/-- What can become of a node, when an answer is waited for. -/
def prospect (n : Node) (answer : Answer) : Prospect where
  Solution := {τ : Substitution // τ.Satisfies n.proof.bindings}
  goals := n.proof.goals.map fun a τ => a.subst τ.1
  Wanted τ := ∀ b ∈ answer.values, τ.1 b.var = b.term

/-- Whether a node is a candidate all solutions of which agree with an
answer. -/
noncomputable def grants (answer : Answer) (n : Node) : Bool :=
  open Classical in decide (n.prospect answer).Ends

variable {store : Store} {goals : List Atom} {base : Supply} {n m : Node} {answer : Answer}
  {goal : Atom} {deferred : List Atom} {c : Clause}

/-- A node grants an answer if it is at its end and the answer is a
solution. -/
theorem grants_iff : n.grants answer ↔ (n.prospect answer).Ends := by
  simp [grants]

/-- At a covered node, a clause is used by way of its copy. -/
theorem resolve?_eq (known : base.Knows store goals) (covered : Covered base n)
    (clause : c ∈ store.clauses) :
    n.resolve? goal deferred c = (solution? (Query.equations
        (goal.args.map (applyAll n.proof.bindings)) (c.head.rename (n.supply.copy c.vars)))).map
      fun made => ⟨⟨deferred ++ c.body.map (Atom.rename (n.supply.copy c.vars)),
        n.proof.bindings ++ made⟩, n.supply.skip c.vars.length, n.depth + 1⟩ := by
  have apart := Clause.standardizeApart_eq fun x hx =>
    (known.clauses c clause x hx).mono covered.later
  simp only [resolve?, apart, Clause.head_rename, Clause.body_rename]

/-- The prospect of a successor is what resolving the goal makes of the
prospect. -/
theorem alike_of_resolve? (known : base.Knows store goals) (covered : Covered base n)
    (keys : ∀ b ∈ answer.values, base.Covers b.var) (first : n.proof.goals = goal :: deferred)
    (clause : c ∈ store.clauses) (like : c.head.matches? goal)
    (found : n.resolve? goal deferred c = some m) :
    (m.prospect answer).Alike ((n.prospect answer).resolve (fun τ => goal.subst τ.1)
      (deferred.map fun a τ => a.subst τ.1) c) := by
  rw [resolve?_eq known covered clause, Option.map_eq_some_iff] at found
  obtain ⟨made, solved, rfl⟩ := found
  have solved := solution?_eq_some_iff.mp solved
  have goal_mem : goal ∈ n.proof.goals := by simp [first]
  refine ⟨fun η s => n.Joins c s.1.1.1 s.1.2 η.1, ⟨?_, ?_⟩, ?_, ?_⟩
  · rintro ⟨η, satisfied⟩
    obtain ⟨old, new⟩ := Substitution.satisfies_append.mp satisfied
    have joins := n.joins_self c η
    have same := (joins.unifies_iff covered old goal_mem like).mp ((solved.unifies_iff η).mpr new)
    exact ⟨⟨(⟨η, old⟩, _), same⟩, joins⟩
  · rintro ⟨⟨⟨τ, old⟩, θ⟩, same⟩
    have joins := n.joins_withCopies c τ θ
    have new := (solved.unifies_iff _).mp ((joins.unifies_iff covered old goal_mem like).mpr same)
    exact ⟨⟨_, Substitution.satisfies_append.mpr
      ⟨(joins.satisfies_iff covered).mpr old, new⟩⟩, joins⟩
  · simp only [prospect, Prospect.resolve, List.map_append, List.map_map]
    refine List.rel_append (forall₂_map_map fun a ha η s joins => ?_)
      (forall₂_map_map fun a ha η s joins => joins.subst_body ha)
    exact joins.subst_goal covered (by simp [first, ha])
  · intro η s joins
    refine forall₂_congr fun b hb => ?_
    rw [joins.known b.var ((keys b hb).mono covered.later)]

/-- A clause that gives no successor leaves no solution. -/
theorem isEmpty_of_resolve?_eq_none (known : base.Knows store goals) (covered : Covered base n)
    (first : n.proof.goals = goal :: deferred) (clause : c ∈ store.clauses)
    (stuck : c.head.matches? goal → n.resolve? goal deferred c = none) :
    IsEmpty ((n.prospect answer).resolve (fun τ => goal.subst τ.1)
      (deferred.map fun a τ => a.subst τ.1) c).Solution := by
  refine ⟨fun ⟨⟨⟨τ, satisfied⟩, θ⟩, same⟩ => ?_⟩
  have like := Atom.matches?_of_subst_eq same
  have unifies := ((n.joins_withCopies c τ θ).unifies_iff covered satisfied
    (by simp [first]) like).mpr same
  obtain ⟨made, solved⟩ := Yields.exists_of_unifies unifies
  have none := stuck like
  rw [resolve?_eq known covered clause, solution?_eq_some_iff.mpr solved] at none
  cases none

/-- The successors of a node, clause by clause. -/
theorem successors_eq (first : n.proof.goals = goal :: deferred) :
    n.successors store = store.clauses.filterMap fun c =>
      if c.head.matches? goal then n.resolve? goal deferred c else none := by
  rw [successors, first]
  exact List.filterMap_filter

/-- What is summed over the images of the items that have one is summed over
the items, if the others add nothing. -/
theorem sum_map_filterMap {α β : Type} {f : α → Option β} {g : β → Nat} {h : α → Nat}
    {xs : List α} (image : ∀ x ∈ xs, ∀ y, f x = some y → g y = h x)
    (others : ∀ x ∈ xs, f x = none → h x = 0) :
    ((xs.filterMap f).map g).sum = (xs.map h).sum := by
  induction xs with
  | nil => rfl
  | cons x xs ih =>
      obtain ⟨first, image⟩ := List.forall_mem_cons.mp image
      obtain ⟨absent, others⟩ := List.forall_mem_cons.mp others
      cases found : f x with
      | none =>
          rw [List.filterMap_cons_none found, ih image others, List.map_cons, List.sum_cons,
            absent found, Nat.zero_add]
      | some y =>
          rw [List.filterMap_cons_some found, List.map_cons, List.map_cons, List.sum_cons,
            List.sum_cons, ih image others, first y found]

/-- The candidates for an answer that lie so many steps below a node are the
ways of its prospect. -/
theorem countP_level_eq_ways (known : base.Knows store goals) (covered : Covered base n)
    (keys : ∀ b ∈ answer.values, base.Covers b.var) (d : Nat) :
    (LevelOrder.level (successors store) n d).countP (grants answer) =
      (n.prospect answer).ways store d := by
  induction d generalizing n with
  | zero =>
      rw [LevelOrder.level, List.countP_singleton, Prospect.ways, grants]
      by_cases ends : (n.prospect answer).Ends <;> simp [ends]
  | succ d ih =>
      rw [LevelOrder.countP_level_succ]
      cases first : n.proof.goals with
      | nil =>
          have none : (n.prospect answer).goals = [] := by simp [prospect, first]
          rw [Prospect.ways_succ_of_nil d none, successors, first]
          rfl
      | cons goal deferred =>
          have front : (n.prospect answer).goals = (fun τ => goal.subst τ.1) ::
              deferred.map fun a τ => a.subst τ.1 := by simp [prospect, first]
          rw [Prospect.ways_succ_of_cons d front, successors_eq first]
          refine sum_map_filterMap (fun c clause m found => ?_) fun c clause stuck => ?_
          · split at found
            · next like =>
                have step : m ∈ n.successors store := by
                  rw [successors_eq first]
                  exact List.mem_filterMap.mpr ⟨c, clause, by rw [if_pos like, found]⟩
                rw [ih (covered.resolves known (mem_successors.mp step))]
                exact (alike_of_resolve? known covered keys first clause like found).ways_eq d
            · cases found
          · refine Prospect.ways_eq_zero_of_isEmpty ?_ d
            exact isEmpty_of_resolve?_eq_none known covered first clause fun like =>
              (if_pos like).symm.trans stuck

/-- On each level, there are as many candidates for an answer for any order of
the goals. -/
theorem countP_level_eq_of_perm {goals' : List Atom} {base' : Supply} (order : goals.Perm goals')
    (known : base.Knows store goals) (known' : base'.Knows store goals')
    (keys : ∀ b ∈ answer.values, base.Covers b.var)
    (keys' : ∀ b ∈ answer.values, base'.Covers b.var) (d : Nat) :
    (level store goals base d).countP (grants answer) =
      (level store goals' base' d).countP (grants answer) := by
  rw [level, level, countP_level_eq_ways known (covered_root known) keys,
    countP_level_eq_ways known' (covered_root known') keys']
  exact Prospect.ways_withGoals_of_perm d ((root goals base).prospect answer) (order.map _)

/-! ### Candidates and answers -/

/-- Bindings of a node that have a solution are in solved form. -/
theorem solvedForm_of_satisfies (known : base.Knows store goals) {d : Nat}
    (there : n ∈ level store goals base d) {τ : Substitution}
    (satisfied : τ.Satisfies n.proof.bindings) : SolvedForm n.proof.bindings := by
  have proper := (descends_of_mem_level d n there).term_ne_var (by simp)
  exact (reduces_and_solves known d n there).2.2 fun b hb =>
    Binding.not_isCyclic_of_satisfied (satisfied b hb) (proper b hb)

/-- A candidate without cyclic bindings that gives an answer grants it. -/
theorem grants_of_answer? {q : Query} {given : Answer} (solved : SolvedForm n.proof.bindings)
    (answered : n.answer? q = some given) (same : given.sameMapping answer) : n.grants answer := by
  unfold answer? at answered
  split at answered
  · next candidate =>
      obtain ⟨none, ground⟩ := candidate
      obtain rfl := Option.some.inj answered
      refine grants_iff.mpr ⟨by simp [prospect, none], ⟨⟨_, solved.satisfies⟩⟩, ?_⟩
      rintro ⟨τ, satisfied⟩ b hb
      obtain ⟨x, hx, rfl⟩ := List.mem_map.mp ((List.isPerm_iff.mp same).mem_iff.mpr hb)
      have closed := Query.isGround_valuesUnder.mp ground x hx
      rw [← Term.subst_eq_self closed τ, Substitution.subst_applyAll satisfied, Term.subst_var]
  · cases answered

/-- A node of the tree that grants an answer to a query gives it. -/
theorem exists_answer?_of_grants (known : base.Knows store goals) {d : Nat}
    (there : n ∈ level store goals base d) {q : Query}
    (asked : q.vars.Perm (answer.values.map Binding.var)) (ground : answer.isGround)
    (granted : n.grants answer) : ∃ given, n.answer? q = some given ∧ given.sameMapping answer := by
  obtain ⟨none, ⟨τ, satisfied⟩, wanted⟩ := grants_iff.mp granted
  have candidate : n.proof.goals = [] := List.map_eq_nil_iff.mp none
  -- The bindings themselves are among their solutions, so they give the wanted
  -- values.
  have value : ∀ b ∈ answer.values, applyAll n.proof.bindings (.var b.var) = b.term :=
    wanted ⟨_, (solvedForm_of_satisfies known there satisfied).satisfies⟩
  have closed : (q.valuesUnder n.proof.bindings).isGround := by
    refine Query.isGround_valuesUnder.mpr fun x hx => ?_
    obtain ⟨b, hb, rfl⟩ := List.mem_map.mp (asked.mem_iff.mp hx)
    rw [value b hb]
    exact List.all_eq_true.mp ground b hb
  refine ⟨_, if_pos ⟨candidate, closed⟩, List.isPerm_iff.mpr ?_⟩
  have values : (answer.values.map Binding.var).map
      (fun x => (⟨x, applyAll n.proof.bindings (.var x)⟩ : Binding)) = answer.values := by
    rw [List.map_map]
    refine (List.map_congr_left fun b hb => ?_).trans (List.map_id _)
    exact congrArg (Binding.mk b.var) (value b hb)
  rw [← values]
  exact asked.map _

end Node

/-! ### Runs -/

/-- What is counted in one list is counted in another if the items are
related. -/
theorem countP_le_of_forall₂ {α β : Type} {R : α → β → Prop} {xs : List α} {ys : List β}
    (related : List.Forall₂ R xs ys) {p : α → Bool} {p' : β → Bool}
    (passes : ∀ x ∈ xs, ∀ y ∈ ys, R x y → p x → p' y) : xs.countP p ≤ ys.countP p' := by
  induction related with
  | nil => exact Nat.le_refl _
  | @cons x y xs ys first _ ih =>
      have rest := ih fun x hx y hy =>
        passes x (List.mem_cons_of_mem _ hx) y (List.mem_cons_of_mem _ hy)
      have front := passes x List.mem_cons_self y List.mem_cons_self first
      rw [List.countP_cons, List.countP_cons]
      by_cases counted : p x
      · rw [if_pos counted, if_pos (front counted)]
        exact Nat.add_le_add_right rest 1
      · rw [if_neg counted]
        exact Nat.le_trans rest (Nat.le_add_right _ _)

namespace Query

variable {store : Store} {goals goals' : List Atom} {given given' supply : Supply}
  {verbose recording : Bool} {k : Nat} {visits : List Visit} {q : Query} {answer : Answer}

/-- The values of an answer are ground, and the variables are those of the
query. -/
theorem Outcome.of_gives {q : Query} {visit : Visit} (outcome : q.Outcome visit.item visit.event)
    (gives : visit.gives answer) :
    q.vars.Perm (answer.values.map Binding.var) ∧ answer.isGround := by
  obtain ⟨item, event⟩ := visit
  cases outcome with
  | @answered bindings ground =>
      have same : (q.valuesUnder bindings).values.Perm answer.values := List.isPerm_iff.mp gives
      constructor
      · simpa [valuesUnder, Function.comp_def] using same.map Binding.var
      · exact List.all_eq_true.mpr fun b hb =>
          List.all_eq_true.mp ground b (same.mem_iff.mpr hb)
  | discarded => cases gives
  | expanded => cases gives

/-- What has been taken of the tree belongs to its levels. -/
theorem exists_level_of_taken {n : Node} (taken : n ∈ (Node.sweep store goals given k).taken) :
    ∃ d, n ∈ Node.level store goals given d :=
  Node.exists_mem_level (List.mem_append_left _ taken)

/-- An answer is given no more often than it is granted, if no binding is
cyclic. -/
theorem Run.countP_gives_le (known : given.Knows store goals)
    (run : Run store (ofGoals goals verbose recording) given k visits q supply)
    (acyclic : ∀ visit ∈ visits, ∀ b ∈ visit.item.bindings, ¬ b.IsCyclic) (answer : Answer) :
    visits.countP (·.gives answer) ≤
      (Node.sweep store goals given k).taken.countP (Node.grants answer) := by
  refine countP_le_of_forall₂ (run.answers_match known).flip fun visit visited n taken linked => ?_
  obtain ⟨matching, answers⟩ := linked
  intro gives
  obtain ⟨d, there⟩ := exists_level_of_taken taken
  obtain ⟨shown, answered, same⟩ := (Option.any_eq_true _ _).mp gives
  have solved := (Node.reduces_and_solves known d n there).2.2
    (matching.acyclic (acyclic visit visited))
  exact Node.grants_of_answer? solved (answers ▸ answered) same

/-- An answer that can be one to the query is given as often as it is
granted. -/
theorem Run.le_countP_gives (known : given.Knows store goals)
    (run : Run store (ofGoals goals verbose recording) given k visits q supply)
    (asked : (ofGoals goals verbose recording).vars.Perm (answer.values.map Binding.var))
    (ground : answer.isGround) :
    (Node.sweep store goals given k).taken.countP (Node.grants answer) ≤
      visits.countP (·.gives answer) := by
  refine countP_le_of_forall₂ (run.answers_match known) fun n taken visit _ linked granted => ?_
  obtain ⟨d, there⟩ := exists_level_of_taken taken
  obtain ⟨shown, answered, same⟩ :=
    Node.exists_answer?_of_grants known there asked ground granted
  rw [Visit.gives, linked.2, answered]
  exact same

/-- The order of the goals does not matter. Whatever answer a run gives, a
query with the same goals in another order gives at least as often once it has
made enough steps. That many steps are completed unless an attempt goes on for
ever. The bindings of the run must be without cycles; those of the other query
need not. -/
theorem Run.answers_of_perm (order : goals.Perm goals') (known : given.Knows store goals)
    (known' : given'.Knows store goals') {verbose' recording' : Bool}
    (live : NeverDiverges store (ofGoals goals' verbose' recording') given')
    (run : Run store (ofGoals goals verbose recording) given k visits q supply)
    (acyclic : ∀ visit ∈ visits, ∀ b ∈ visit.item.bindings, ¬ b.IsCyclic) :
    ∃ enough,
      (∃ visits' q' supply',
        Run store (ofGoals goals' verbose' recording') given' enough visits' q' supply') ∧
      ∀ k' visits' q' supply', enough ≤ k' →
        Run store (ofGoals goals' verbose' recording') given' k' visits' q' supply' →
        ∀ answer, visits.countP (·.gives answer) ≤ visits'.countP (·.gives answer) := by
  obtain ⟨m, initial⟩ := LevelOrder.exists_taken_prefix_above (Node.successors store)
    (Node.root goals given) k
  obtain ⟨enough, reached⟩ := LevelOrder.exists_sweep_eq_level (Node.successors store)
    (Node.root goals' given') m
  refine ⟨enough, Run.exists_of_neverDiverges live enough, ?_⟩
  intro k' visits' q' supply' later run' answer
  rcases (visits.countP (·.gives answer)).eq_zero_or_pos with never | often
  · rw [never]
    exact Nat.zero_le _
  obtain ⟨visit, visited, gives⟩ := List.countP_pos_iff.mp often
  obtain ⟨asked, ground⟩ := (run.outcome visit visited).of_gives gives
  have asked' : (ofGoals goals' verbose' recording').vars.Perm (answer.values.map Binding.var) :=
    (varsOf_perm (order.symm.flatMap_right _)).trans asked
  have keys : ∀ b ∈ answer.values, given.Covers b.var := fun b hb =>
    covers_of_mem_vars known (asked.mem_iff.mpr (List.mem_map_of_mem hb))
  have keys' : ∀ b ∈ answer.values, given'.Covers b.var := fun b hb =>
    covers_of_mem_vars known' (asked'.mem_iff.mpr (List.mem_map_of_mem hb))
  have whole :=
    LevelOrder.taken_prefix_of_le (Node.successors store) (Node.root goals' given') later
  rw [reached] at whole
  calc visits.countP (·.gives answer)
      ≤ (Node.sweep store goals given k).taken.countP (Node.grants answer) :=
        run.countP_gives_le known acyclic answer
    _ ≤ (Node.above store goals given m).countP (Node.grants answer) := initial.sublist.countP_le
    _ = (Node.above store goals' given' m).countP (Node.grants answer) := by
        rw [Node.above, Node.above, LevelOrder.above, LevelOrder.above, List.countP_flatMap,
          List.countP_flatMap]
        exact congrArg List.sum (List.map_congr_left fun d _ =>
          Node.countP_level_eq_of_perm order known known' keys keys' d)
    _ ≤ (Node.sweep store goals' given' k').taken.countP (Node.grants answer) :=
        whole.sublist.countP_le
    _ ≤ visits'.countP (·.gives answer) := run'.le_countP_gives known' asked' ground

/-- Who is a grandparent of whom is found from either end: a grandchild is a
child of a child, and a grandparent a parent of a parent. -/
theorem Run.answers_of_perm_grandparent :
    let parent (s t : Term) : Atom := ⟨⟨0, "parent"⟩, [s, t]⟩
    let a : Term := .const ⟨1, "a"⟩
    let b : Term := .const ⟨2, "b"⟩
    let c : Term := .const ⟨3, "c"⟩
    let x : Variable := ⟨4, "X"⟩
    let y : Variable := ⟨5, "Y"⟩
    let z : Variable := ⟨6, "Z"⟩
    let store : Store := ⟨[parent a b, parent b c], []⟩
    let down : List Atom := [parent (.var x) (.var y), parent (.var y) (.var z)]
    let up : List Atom := [parent (.var y) (.var z), parent (.var x) (.var y)]
    down.Perm up ∧ ∃ k visits query after,
      Run store (ofGoals up false false) ⟨7⟩ k visits query after ∧
        1 ≤ visits.countP (·.gives ⟨[⟨x, a⟩, ⟨y, b⟩, ⟨z, c⟩]⟩) := by
  intro parent a b c x y z store down up
  have order : down.Perm up := .swap _ _ _
  have simple_store : ∀ c ∈ store.clauses, ∀ a ∈ c.head :: c.body, ∀ t ∈ a.args,
      t.arity? = none := by decide
  have simple_goals : ∀ a ∈ down, ∀ t ∈ a.args, t.arity? = none := by decide
  have clauses : ∀ c ∈ store.clauses, c.Over .functionFree :=
    fun c hc => Clause.over_functionFree (simple_store c hc)
  have asked : ∀ a ∈ down, a.Over .functionFree :=
    fun a ha => Atom.over_functionFree (simple_goals a ha)
  have known : Supply.Knows ⟨7⟩ store down := by
    apply Supply.Knows.of_vars <;> decide
  have known' : Supply.Knows ⟨7⟩ store up := by
    apply Supply.Knows.of_vars <;> decide
  have live : NeverDiverges store (ofGoals up false false) ⟨7⟩ :=
    neverDiverges_of_functionFree clauses (fun a ha => asked a (order.mem_iff.mpr ha)) _
  have start : Run store (ofGoals down false false) ⟨7⟩ 0 [] _ _ := .nil
  have first := start.step (Nat.le_refl _) (show Query.step _ _ 2 _ = some ⟨_, _, _⟩ from rfl)
  have second := first.step (Nat.le_refl _) (show Query.step _ _ 2 _ = some ⟨_, _, _⟩ from rfl)
  have third := second.step (Nat.le_refl _) (show Query.step _ _ 2 _ = some ⟨_, _, _⟩ from rfl)
  have fourth := third.step (Nat.le_refl _) (show Query.step _ _ 2 _ = some ⟨_, _, _⟩ from rfl)
  obtain ⟨enough, ⟨visits, query, after, run⟩, often⟩ :=
    answers_of_perm order known known' live fourth (fourth.acyclic_of_functionFree clauses asked)
  refine ⟨order, enough, visits, query, after, run,
    Nat.le_trans ?_ (often _ _ _ _ (Nat.le_refl _) run _)⟩
  exact List.countP_pos_iff.mpr ⟨_, List.mem_append_right _ (List.mem_singleton_self _), rfl⟩

end Query

end Resolvent
