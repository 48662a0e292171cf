/-
# Runs of a query

`Stepped` says once and for all what a step can do: nothing on an empty queue,
judge the oldest partial proof if it has no goals left, or else put the
branches of its first goal at the end of the queue. Proofs about steps go by
its cases and do not open `Query.step`.

A run is any number of steps that were completed. Between two of them others
may draw from the supply, as further queries, renamings and readings do; a run
therefore only asks that what has been handed out is not handed out again. It
records which partial proof each step took from the queue and what came of it.
-/

import Resolvent.Search.Query

namespace Resolvent

/-- The oldest item of a queue can be popped, and leaves the others. -/
theorem Queue.exists_pop? {α : Type} {q : Queue α} {x : α} {rest : List α}
    (front : q.toList = x :: rest) : ∃ queue, q.pop? = some (x, queue) ∧ queue.toList = rest := by
  match popped : q.pop? with
  | none => simp [pop?_eq_none_iff.mp popped] at front
  | some (y, queue) =>
      have parts := toList_of_pop? popped
      rw [front] at parts
      obtain ⟨rfl, rfl⟩ := List.cons.inj parts
      exact ⟨queue, rfl, rfl⟩

namespace Query

/-- What becomes of the first clause: it clashes with the goal, or it gives the
first branch. The others are tried with what is left of the supply. -/
theorem branches_cons_eq_some_iff {moves : Nat} {args : List Term} {deferred : List Atom}
    {bindings : List Binding} {c : Clause} {rest : List Clause} {supply after : Supply}
    {produced : List Branch} :
    branches moves args deferred bindings (c :: rest) supply = some (produced, after) ↔
      ∃ others, branches moves args deferred bindings rest (c.standardizeApart supply).2 =
          some (others, after) ∧
        ((unify moves (equations args (c.standardizeApart supply).1.head) = .clash ∧
            produced = others) ∨
          ∃ made, unify moves (equations args (c.standardizeApart supply).1.head) = .solved made ∧
            produced = ⟨c, deferred ++ (c.standardizeApart supply).1.body, bindings ++ made⟩ ::
              others) := by
  rw [branches]
  dsimp only
  cases unify moves (equations args (c.standardizeApart supply).1.head) with
  | unfinished => simp
  | clash => simp [eq_comm]
  | solved made =>
      simp only [Option.map_eq_some_iff, Prod.exists, Prod.mk.injEq, reduceCtorEq, false_and,
        Verdict.solved.injEq, exists_eq_left', false_or]
      constructor
      · rintro ⟨others, _, tried, rfl, rfl⟩
        exact ⟨others, tried, rfl⟩
      · rintro ⟨others, tried, rfl⟩
        exact ⟨others, after, tried, rfl, rfl⟩

/-- What a step can do, with all it leaves behind. -/
inductive Stepped (store : Store) (q : Query) (supply : Supply) : Event → Query → Supply → Prop
  /-- There is nothing to do. -/
  | idle (empty : q.queue.toList = []) : Stepped store q supply .idle q supply
  /-- A candidate is an answer. -/
  | answered {bindings : List Binding} {queue : Queue PartialProof}
      (front : q.queue.toList = ⟨[], bindings⟩ :: queue.toList)
      (ground : (q.valuesUnder bindings).isGround) :
      Stepped store q supply (.answered (q.valuesUnder bindings))
        { q with queue := queue, steps := q.steps + 1, answers := q.answers + 1 } supply
  /-- A candidate leaves a query variable without a ground value. -/
  | discarded {bindings : List Binding} {queue : Queue PartialProof}
      (front : q.queue.toList = ⟨[], bindings⟩ :: queue.toList)
      (unbound : ¬ (q.valuesUnder bindings).isGround) :
      Stepped store q supply .discarded { q with queue := queue, steps := q.steps + 1 } supply
  /-- The first goal has been resolved against all clauses that match it. -/
  | expanded {goal : Atom} {deferred : List Atom} {bindings : List Binding}
      {queue : Queue PartialProof} {moves : Nat} {produced : List Branch} {after : Supply}
      (front : q.queue.toList = ⟨goal :: deferred, bindings⟩ :: queue.toList)
      (made : branches moves (goal.args.map (applyAll bindings)) deferred bindings
        (store.candidates goal) supply = some (produced, after)) :
      Stepped store q supply (.expanded goal (produced.map Branch.clause))
        { q with
          queue := queue.pushAll (produced.map Branch.proof)
          steps := q.steps + 1
          history :=
            if q.recording then
              q.history.push ⟨q.steps + 1, goal, produced.length,
                (queue.pushAll (produced.map Branch.proof)).size⟩
            else q.history }
        after

variable {store : Store} {q q' : Query} {supply after : Supply} {event : Event}

/-- A step is one of the ways in which a query can be stepped. -/
theorem stepped_of_step {moves : Nat} (h : q.step store moves supply = some ⟨event, q', after⟩) :
    Stepped store q supply event q' after := by
  unfold step at h
  split at h
  · next popped =>
      cases h
      exact .idle (Queue.pop?_eq_none_iff.mp popped)
  · next goals bindings queue popped =>
      have front := Queue.toList_of_pop? popped
      cases goals with
      | nil =>
          simp only [judge] at h
          split at h
          · next ground =>
              cases h
              exact .answered front ground
          · next unbound =>
              cases h
              exact .discarded front unbound
      | cons goal deferred =>
          simp only [expand, Option.map_eq_some_iff] at h
          obtain ⟨⟨produced, later⟩, made, same⟩ := h
          cases same
          exact .expanded front made

/-- An exhausted query stays as it is. -/
theorem step_of_empty (empty : q.queue.toList = []) (store : Store) (moves : Nat)
    (supply : Supply) : q.step store moves supply = some ⟨.idle, q, supply⟩ := by
  rw [step, Queue.pop?_eq_none_iff.mpr empty]

/-- A goal at the front of the queue is resolved, and its branches come behind
what waits. -/
theorem exists_step_of_goal {goal : Atom} {deferred : List Atom} {bindings : List Binding}
    {rest : List PartialProof} (front : q.queue.toList = ⟨goal :: deferred, bindings⟩ :: rest) :
    ∃ queue : Queue PartialProof, queue.toList = rest ∧ ∀ store moves supply,
      q.step store moves supply =
        ({ q with queue := queue, steps := q.steps + 1 } : Query).expand store moves supply goal
          deferred bindings := by
  obtain ⟨queue, popped, others⟩ := Queue.exists_pop? front
  refine ⟨queue, others, fun store moves supply => ?_⟩
  rw [step, popped]

/-- A candidate at the front of the queue is an answer if all its values are
ground. -/
theorem exists_step_of_candidate {bindings : List Binding} {rest : List PartialProof}
    (front : q.queue.toList = ⟨[], bindings⟩ :: rest) :
    ∃ queue : Queue PartialProof, queue.toList = rest ∧ ∀ store moves supply,
      q.step store moves supply = some
        (if (q.valuesUnder bindings).isGround then
          ⟨.answered (q.valuesUnder bindings),
            { q with queue := queue, steps := q.steps + 1, answers := q.answers + 1 }, supply⟩
        else ⟨.discarded, { q with queue := queue, steps := q.steps + 1 }, supply⟩) := by
  obtain ⟨queue, popped, others⟩ := Queue.exists_pop? front
  refine ⟨queue, others, fun store moves supply => ?_⟩
  have same : ({ q with queue := queue, steps := q.steps + 1 } : Query).valuesUnder bindings =
      q.valuesUnder bindings := rfl
  rw [step, popped]
  by_cases ground : (q.valuesUnder bindings).isGround
  · simp only [judge, same, ground, if_true]
  · simp only [judge, same, ground, if_false, Bool.false_eq_true]

/-- A candidate that has come to the front of the queue is judged by the next
step, however few moves that step is given. -/
theorem step_of_candidate {bindings : List Binding} {rest : List PartialProof}
    (front : q.queue.toList = ⟨[], bindings⟩ :: rest) (moves : Nat) :
    ∃ q', q'.queue.toList = rest ∧ q.step store moves supply =
      some ⟨if (q.valuesUnder bindings).isGround then .answered (q.valuesUnder bindings)
        else .discarded, q', supply⟩ := by
  obtain ⟨queue, others, stepped⟩ := exists_step_of_candidate front
  rw [stepped]
  by_cases ground : (q.valuesUnder bindings).isGround
  · exact ⟨{ q with queue := queue, steps := q.steps + 1, answers := q.answers + 1 }, others,
      by simp only [ground, if_true]⟩
  · exact ⟨{ q with queue := queue, steps := q.steps + 1 }, others,
      by simp only [ground, if_false, Bool.false_eq_true]⟩

end Query

namespace Query

/-- A candidate has ground values when each query variable has one. -/
theorem isGround_valuesUnder {q : Query} {bindings : List Binding} :
    (q.valuesUnder bindings).isGround ↔
      ∀ x ∈ q.vars, (applyAll bindings (.var x)).isGround := by
  simp [Answer.isGround, valuesUnder]

/-- What can come of a partial proof that is taken from the queue. -/
inductive Outcome (q : Query) : PartialProof → Event → Prop
  | answered {bindings : List Binding} (ground : (q.valuesUnder bindings).isGround) :
      Outcome q ⟨[], bindings⟩ (.answered (q.valuesUnder bindings))
  | discarded {bindings : List Binding} (unbound : ¬ (q.valuesUnder bindings).isGround) :
      Outcome q ⟨[], bindings⟩ .discarded
  | expanded {goal : Atom} {deferred : List Atom} {bindings : List Binding}
      {used : List Clause} : Outcome q ⟨goal :: deferred, bindings⟩ (.expanded goal used)

end Query

/-- A partial proof that a step has taken from the queue, and what came of
it. -/
structure Visit where
  item : PartialProof
  event : Event

namespace Query

/-- The query `q` and the supply are what a number of completed steps can lead
to. The partial proofs taken on the way are listed in order. -/
inductive Run (store : Store) (start : Query) (given : Supply) :
    Nat → List Visit → Query → Supply → Prop
  | nil : Run store start given 0 [] start given
  | step {k moves : Nat} {visits : List Visit} {q q' : Query} {event : Event}
      {supply drawn after : Supply} (prior : Run store start given k visits q supply)
      (later : supply.next ≤ drawn.next)
      (made : q.step store moves drawn = some ⟨event, q', after⟩) :
      Run store start given (k + 1)
        (visits ++ q.queue.toList.head?.toList.map fun item => ⟨item, event⟩) q' after

namespace Run

variable {store : Store} {start q : Query} {given supply : Supply} {k : Nat}
  {visits : List Visit}

/-- The variables that are asked for do not change. -/
theorem vars_eq (run : Run store start given k visits q supply) : q.vars = start.vars := by
  induction run with
  | nil => rfl
  | step _ _ made ih =>
      rw [← ih]
      cases stepped_of_step made <;> rfl

/-- The variables that are asked for stay the same throughout a run. -/
theorem valuesUnder_eq (run : Run store start given k visits q supply)
    (bindings : List Binding) : q.valuesUnder bindings = start.valuesUnder bindings := by
  rw [valuesUnder, valuesUnder, run.vars_eq]

/-- What came of every visit is what can come of the partial proof that was
visited. -/
theorem outcome (run : Run store start given k visits q supply) :
    ∀ visit ∈ visits, start.Outcome visit.item visit.event := by
  induction run with
  | nil => simp
  | step prior _ made ih =>
      intro visit hv
      rcases List.mem_append.mp hv with old | new
      · exact ih visit old
      · obtain ⟨item, front, rfl⟩ := List.mem_map.mp new
        rw [Option.mem_toList] at front
        cases stepped_of_step made with
        | idle empty => simp [empty] at front
        | answered head ground =>
            rw [head, List.head?_cons, Option.some.injEq] at front
            subst front
            rw [prior.valuesUnder_eq] at ground ⊢
            exact .answered ground
        | discarded head unbound =>
            rw [head, List.head?_cons, Option.some.injEq] at front
            subst front
            rw [prior.valuesUnder_eq] at unbound
            exact .discarded unbound
        | expanded head _ =>
            rw [head, List.head?_cons, Option.some.injEq] at front
            subst front
            exact .expanded

end Run

end Query

/-! ### A small program -/

namespace Tiny

/-- The variable of the rule. -/
def x : Variable := ⟨0, "X"⟩

/-- The variable of the query. -/
def y : Variable := ⟨1, "Y"⟩

/-- The one individual. -/
def a : Constant := ⟨2, "a"⟩

/-- The program `p(a).` and `q(X) :- p(X).` -/
def store : Store :=
  ⟨[⟨⟨3, "p"⟩, [.const a]⟩], [⟨⟨⟨4, "q"⟩, [.var x]⟩, [⟨⟨3, "p"⟩, [.var x]⟩]⟩]⟩

/-- The query `q(Y)`. -/
def goals : List Atom := [⟨⟨4, "q"⟩, [.var y]⟩]

/-- All symbols up to here have been handed out. -/
def supply : Supply := ⟨5⟩

/-- The answer `Y = a`. -/
def answer : Answer := ⟨[⟨y, .const a⟩]⟩

/-- The bindings of the candidate that gives the answer, by way of a fresh
`X`. -/
def bindings : List Binding := [⟨y, .var ⟨5, "X"⟩⟩, ⟨⟨5, "X"⟩, .const a⟩]

/-- The query is answered in its third step and exhausted then. -/
theorem run : ∃ earlier q after, Query.Run store (.ofGoals goals false false) supply 3
    (earlier ++ [⟨⟨[], bindings⟩, .answered answer⟩]) q after ∧ q.queue.toList = [] := by
  have start : Query.Run store (.ofGoals goals false false) supply 0 [] _ _ := .nil
  have first := start.step (Nat.le_refl _) (show Query.step _ _ 1 _ = some ⟨_, _, _⟩ from rfl)
  have second := first.step (Nat.le_refl _) (show Query.step _ _ 1 _ = some ⟨_, _, _⟩ from rfl)
  have third := second.step (Nat.le_refl _) (show Query.step _ _ 0 _ = some ⟨_, _, _⟩ from rfl)
  exact ⟨_, _, _, third, rfl⟩

end Tiny

end Resolvent
