/-
# Which goal is resolved when

The body of a rule goes behind the goals that are waiting. So a goal moves one
place forward with every resolution step, whichever clauses are used in front
of it, and its place says how many steps there are until it is resolved.

A goal that no clause matches therefore bars the whole search: no branch gets
past it, and the search tree is no deeper than its place. A tree that has a
last level is finite, and a search that comes to the end of it is exhausted,
however endless the search for the other goals alone would be.
-/

import Resolvent.Proofs.Search.Completeness

namespace Resolvent

namespace PartialProof

/-- One partial proof comes of another by resolving its first goal against a
copy of a clause. The supply that the copy is made from may have been drawn
from by others. -/
inductive Resolves (store : Store) (p : PartialProof) : PartialProof → Prop
  | step {goal : Atom} {deferred : List Atom} {c : Clause} {supply : Supply} {made : List Binding}
      (goals : p.goals = goal :: deferred) (clause : c ∈ store.candidates goal)
      (solved : Yields (Query.equations (goal.args.map (applyAll p.bindings))
        (c.standardizeApart supply).1.head) made) :
      Resolves store p
        ⟨deferred ++ (c.standardizeApart supply).1.body, p.bindings ++ made⟩

/-- A partial proof comes of another by a number of resolution steps. -/
inductive Descends (store : Store) : Nat → PartialProof → PartialProof → Prop
  | refl (p : PartialProof) : Descends store 0 p p
  | step {d : Nat} {p middle p' : PartialProof} (prior : Descends store d p middle)
      (last : Resolves store middle p') : Descends store (d + 1) p p'

variable {store : Store} {p p' : PartialProof}

/-- A waiting goal moves one place forward. -/
theorem Resolves.getElem?_goals (h : Resolves store p p') {j : Nat} {goal : Atom}
    (waits : p.goals[j + 1]? = some goal) : p'.goals[j]? = some goal := by
  cases h with
  | step goals clause solved =>
      rw [goals, List.getElem?_cons_succ] at waits
      obtain ⟨inside, _⟩ := List.getElem?_eq_some_iff.mp waits
      rw [List.getElem?_append_left inside, waits]

/-- As many places forward as there are steps. -/
theorem Descends.getElem?_goals {d : Nat} (h : Descends store d p p') {j : Nat} {goal : Atom}
    (waits : p.goals[d + j]? = some goal) : p'.goals[j]? = some goal := by
  induction h generalizing j with
  | refl p => rwa [Nat.zero_add] at waits
  | step prior last ih =>
      rw [Nat.add_right_comm, Nat.add_assoc] at waits
      exact last.getElem?_goals (ih waits)

/-- A goal that matches no clause is never resolved. -/
theorem Resolves.exists_clause (h : Resolves store p p') {goal : Atom}
    (first : p.goals[0]? = some goal) : ∃ c ∈ store.clauses, c.head.matches? goal := by
  cases h with
  | step goals clause solved =>
      rw [goals, List.getElem?_cons_zero, Option.some.injEq] at first
      subst first
      exact ⟨_, Store.mem_candidates.mp clause⟩

/-- No branch gets past a goal that matches no clause. -/
theorem Descends.le_of_barred {d : Nat} (h : Descends store d p p') {k : Nat} {goal : Atom}
    (there : p.goals[k]? = some goal) (barred : ∀ c ∈ store.clauses, ¬ c.head.matches? goal) :
    d ≤ k := by
  induction h with
  | refl p => exact Nat.zero_le k
  | @step d p middle p' prior last ih =>
      refine Nat.lt_of_le_of_ne (ih there) ?_
      rintro rfl
      obtain ⟨c, clause, like⟩ := last.exists_clause (prior.getElem?_goals (j := 0) there)
      exact barred c clause like

/-- No step binds a variable to itself. -/
theorem Descends.term_ne_var {d : Nat} (h : Descends store d p p')
    (proper : ∀ b ∈ p.bindings, b.term ≠ .var b.var) :
    ∀ b ∈ p'.bindings, b.term ≠ .var b.var := by
  induction h with
  | refl => exact proper
  | step _ last ih =>
      cases last with
      | step _ _ solved =>
          exact List.forall_mem_append.mpr
            ⟨ih proper, fun b hb => (solved.binds b hb).term_ne_var⟩

end PartialProof

open PartialProof (Resolves Descends)

/-! ### In the search tree -/

namespace Node

variable {store : Store} {goals : List Atom} {base : Supply} {n n' : Node}

/-- What resolves a node resolves its partial proof. -/
theorem Resolves.proof (h : Resolves store n n') : n.proof.Resolves store n'.proof := by
  cases h with
  | @step goal deferred c fresh supply made goals clause copy solved =>
      obtain rfl : (c.standardizeApart n.supply).1 = fresh := congrArg Prod.fst copy
      exact .step goals clause solved

/-- A node on a level is so many resolution steps below the goals. -/
theorem descends_of_mem_level (d : Nat) :
    ∀ n ∈ level store goals base d, Descends store d ⟨goals, []⟩ n.proof := by
  induction d with
  | zero =>
      intro n hn
      obtain rfl := List.mem_singleton.mp hn
      exact .refl _
  | succ d ih =>
      intro n' hn
      obtain ⟨n, there, child⟩ := List.mem_flatMap.mp hn
      exact (ih n there).step (mem_successors.mp child).proof

/-- The tree has no level below the place of a goal that matches no clause. -/
theorem level_eq_nil_of_barred {k : Nat} {goal : Atom} (there : goals[k]? = some goal)
    (barred : ∀ c ∈ store.clauses, ¬ c.head.matches? goal) :
    level store goals base (k + 1) = [] := by
  refine List.eq_nil_iff_forall_not_mem.mpr fun n hn => ?_
  have deep := (descends_of_mem_level (k + 1) n hn).le_of_barred there barred
  exact Nat.not_succ_le_self k deep

end Node

/-! ### In runs -/

namespace Query

variable {store : Store} {goals : List Atom} {verbose recording : Bool} {given supply : Supply}
  {k : Nat} {visits : List Visit} {q : Query}

/-- Every branch comes of the item that is resolved. -/
theorem resolves_of_mem_branches {moves : Nat} {goal : Atom} {deferred : List Atom}
    {bindings : List Binding} {clauses : List Clause} (among : clauses ⊆ store.candidates goal)
    {drawn after : Supply} {produced : List Branch}
    (made : branches moves (goal.args.map (applyAll bindings)) deferred bindings clauses drawn =
      some (produced, after)) :
    ∀ branch ∈ produced, Resolves store ⟨goal :: deferred, bindings⟩ branch.proof := by
  induction clauses generalizing drawn produced with
  | nil =>
      cases made
      simp
  | cons c rest ih =>
      obtain ⟨candidate, among⟩ := List.cons_subset.mp among
      obtain ⟨others, tried, verdict⟩ := branches_cons_eq_some_iff.mp made
      rcases verdict with ⟨_, rfl⟩ | ⟨bindings, solved, rfl⟩
      · exact ih among tried
      · intro branch hb
        rcases List.mem_cons.mp hb with rfl | later
        · exact .step rfl candidate (Yields.of_unify solved)
        · exact ih among tried branch later

/-- All that a run visits, and all that waits in its queue, comes of the goals
of the query. -/
theorem Run.exists_descends
    (run : Run store (ofGoals goals verbose recording) given k visits q supply) :
    ∀ item ∈ visits.map Visit.item ++ q.queue.toList, ∃ d, Descends store d ⟨goals, []⟩ item := by
  induction run with
  | nil =>
      intro item hi
      obtain rfl : item = ⟨goals, []⟩ := List.mem_singleton.mp hi
      exact ⟨0, .refl _⟩
  | @step k moves visits q q' event supply drawn after prior later made ih =>
      -- What was visited is visited still, or has been taken from the front of
      -- the queue.
      have visited : ∀ item ∈ q.queue.toList.head?.toList, item ∈ q.queue.toList := by
        intro item hi
        exact List.mem_of_mem_head? (Option.mem_toList.mp hi)
      suffices waiting : ∀ item ∈ q'.queue.toList, ∃ d, Descends store d ⟨goals, []⟩ item by
        intro item hi
        rcases List.mem_append.mp hi with seen | waits
        · rw [List.map_append, List.map_map] at seen
          rcases List.mem_append.mp seen with old | new
          · exact ih item (List.mem_append_left _ old)
          · obtain ⟨front, there, rfl⟩ := List.mem_map.mp new
            exact ih front (List.mem_append_right _ (visited front there))
        · exact waiting item waits
      have before : ∀ item ∈ q.queue.toList, ∃ d, Descends store d ⟨goals, []⟩ item :=
        fun item hi => ih item (List.mem_append_right _ hi)
      intro item waits
      cases stepped_of_step made with
      | idle empty => exact before item waits
      | answered front ground => exact before item (front ▸ List.mem_cons_of_mem _ waits)
      | discarded front unbound => exact before item (front ▸ List.mem_cons_of_mem _ waits)
      | expanded front resolved =>
          rw [Queue.toList_pushAll] at waits
          rcases List.mem_append.mp waits with old | new
          · exact before item (front ▸ List.mem_cons_of_mem _ old)
          · obtain ⟨branch, hb, rfl⟩ := List.mem_map.mp new
            obtain ⟨d, descends⟩ := before _ (front ▸ List.mem_cons_self)
            exact ⟨d + 1, descends.step
              (resolves_of_mem_branches (List.Subset.refl _) resolved branch hb)⟩

/-- A search whose tree has a last level is exhausted when it has gone through
the tree. -/
theorem Run.exists_isExhausted (known : given.Knows store goals) {d : Nat}
    (last : Node.level store goals given d = []) :
    ∃ enough, ∀ k visits q supply, enough ≤ k →
      Run store (ofGoals goals verbose recording) given k visits q supply → q.isExhausted := by
  obtain ⟨enough, reached⟩ := LevelOrder.exists_sweep_eq_level (Node.successors store)
    (Node.root goals given) d
  have empty : (Node.sweep store goals given enough).waiting = [] :=
    (congrArg LevelOrder.Sweep.waiting reached).trans last
  refine ⟨enough, fun k visits q supply later run => ?_⟩
  obtain ⟨_, _, waiting⟩ := run.matches_sweep known
  rw [Node.sweep, LevelOrder.sweep_eq_of_empty _ _ empty later, ← Node.sweep, empty,
    List.forall₂_nil_left_iff] at waiting
  exact q.queue.isEmpty_iff.mpr waiting

/-- A goal that matches no clause makes the whole query fail. There is no
answer, no item is made in more resolution steps than there are goals in front
of that one, and the search is exhausted after finitely many steps, which are
completed unless an attempt goes on for ever. On every branch the goal at a
place of an item is the one that is resolved first as many steps below. -/
theorem Run.fails_finitely (known : given.Knows store goals) {k : Nat} {goal : Atom}
    (there : goals[k]? = some goal) (barred : ∀ c ∈ store.clauses, ¬ c.head.matches? goal) :
    (∀ j visits q supply, Run store (ofGoals goals verbose recording) given j visits q supply →
      (∀ visit ∈ visits, ∀ answer, visit.event ≠ .answered answer) ∧
      ∀ item ∈ visits.map Visit.item ++ q.queue.toList,
        (∃ d, Descends store d ⟨goals, []⟩ item) ∧
        ∀ d, Descends store d ⟨goals, []⟩ item → d ≤ k) ∧
    (∃ enough,
      (NeverDiverges store (ofGoals goals verbose recording) given → ∃ visits q supply,
        Run store (ofGoals goals verbose recording) given enough visits q supply) ∧
      ∀ j visits q supply, enough ≤ j →
        Run store (ofGoals goals verbose recording) given j visits q supply → q.isExhausted) ∧
    ∀ (d : Nat) (item below : PartialProof) (selected : Atom), Descends store d item below →
      item.goals[d]? = some selected → below.goals.head? = some selected := by
  refine ⟨fun j visits q supply run => ⟨fun visit visited answer answered => ?_, ?_⟩, ?_, ?_⟩
  · obtain ⟨d, descends⟩ := run.exists_descends visit.item
      (List.mem_append_left _ (List.mem_map_of_mem visited))
    have outcome := run.outcome visit visited
    rw [answered] at outcome
    -- The item has no goals left, but the goal that bars the way must still be
    -- among them.
    obtain ⟨rest, rfl⟩ := Nat.exists_eq_add_of_le (descends.le_of_barred there barred)
    have waits := descends.getElem?_goals there
    generalize visit.item = item at outcome waits
    cases outcome
    simp at waits
  · intro item hi
    exact ⟨run.exists_descends item hi, fun d descends => descends.le_of_barred there barred⟩
  · obtain ⟨enough, exhausted⟩ :=
      Run.exists_isExhausted known (Node.level_eq_nil_of_barred there barred)
    exact ⟨enough, fun live => exists_of_neverDiverges live enough, exhausted⟩
  · intro d item below selected descends waits
    rw [List.head?_eq_getElem?]
    exact descends.getElem?_goals waits

/-- The program `p :- p.` never comes to an end with `p`, but it does with
`p, q`. -/
theorem Run.fails_finitely_loop :
    let p : Atom := ⟨⟨0, "p"⟩, []⟩
    let q : Atom := ⟨⟨1, "q"⟩, []⟩
    let store : Store := ⟨[], [⟨p, [p]⟩]⟩
    [p, q][1]? = some q ∧ (∀ c ∈ store.clauses, ¬ c.head.matches? q) ∧
      ∃ k visits query after, Run store (ofGoals [p, q] false false) ⟨2⟩ k visits query after ∧
        query.isExhausted ∧ ∀ visit ∈ visits, ∀ answer, visit.event ≠ .answered answer := by
  intro p q store
  have known : Supply.Knows ⟨2⟩ store [p, q] := by
    constructor
    · simp [store, Store.clauses, Clause.vars, Rule.vars, varsOf, Term.collectEach, p]
    · simp [p, q, Atom.Mentions]
  have barred : ∀ c ∈ store.clauses, ¬ c.head.matches? q := by
    decide
  have live : NeverDiverges store (ofGoals [p, q] false false) ⟨2⟩ :=
    neverDiverges_of_linear known (by decide)
  obtain ⟨silent, ⟨enough, completed, exhausted⟩, _⟩ :=
    @fails_finitely store [p, q] false false ⟨2⟩ known 1 q rfl barred
  obtain ⟨visits, query, after, run⟩ := completed live
  exact ⟨rfl, barred, enough, visits, query, after, run,
    exhausted _ _ _ _ (Nat.le_refl _) run, (silent _ _ _ _ run).1⟩

end Query

end Resolvent
