/-
# Queries

A query is a search for proofs of its goals, breadth first over partial proofs.
A partial proof is a list of goals still to be proven and the bindings made so
far. Goals are kept as they were written: the bindings are applied only to the
goal that is being resolved, and to the query variables when no goal is left.

One step takes the oldest partial proof. If it has no goals left it is a
candidate, and an answer if every query variable has a ground value. Otherwise
its first goal is resolved against every matching clause of the store, facts
before rules, each standardized apart; the body of a rule goes behind the goals
that are already waiting.
-/

import Resolvent.Store
import Resolvent.Search.Answer
import Resolvent.Search.Queue

namespace Resolvent

/-- Goals still to be proven under the bindings made so far. -/
structure PartialProof where
  goals : List Atom
  bindings : List Binding
  deriving DecidableEq

/-- A record of one resolved goal: the step at which it was resolved, the
number of partial proofs that came of it, and the number waiting afterwards. -/
structure Expansion where
  step : Nat
  goal : Atom
  produced : Nat
  waiting : Nat
  deriving DecidableEq

/-- The state of a search for the proofs of some goals. -/
structure Query where
  goals : List Atom
  vars : List Variable
  queue : Queue PartialProof
  steps : Nat := 0
  answers : Nat := 0
  /-- Whether every step is to be reported as it happens. -/
  verbose : Bool := false
  /-- Whether the resolved goals are to be recorded. -/
  recording : Bool := false
  history : Array Expansion := #[]

/-- What a step did. -/
inductive Event
  | idle
  | expanded (goal : Atom) (used : List Clause)
  | discarded
  | answered (answer : Answer)

/-- A partial proof that a clause gave rise to. -/
structure Branch where
  clause : Clause
  proof : PartialProof

/-- The outcome of a step. -/
structure Step where
  event : Event
  query : Query
  supply : Supply

namespace Query

/-- A search that has not begun: one partial proof with everything still to
do. -/
def ofGoals (goals : List Atom) (verbose recording : Bool) : Query where
  goals := goals
  vars := varsOf (goals.flatMap Atom.args)
  queue := Queue.empty.push ⟨goals, []⟩
  verbose := verbose
  recording := recording

/-- Whether no partial proof is left. -/
def isExhausted (q : Query) : Bool :=
  q.queue.isEmpty

/-- A query in brief. -/
def summary (q : Query) : String :=
  let goals := Text.listed (q.goals.map Atom.text)
  s!"Query({goals}; steps={q.steps}, queue={q.queue.size})"

/-- The equations that make a goal's arguments those of a clause head. -/
def equations (args : List Term) (head : Atom) : List Equation :=
  List.zipWith Equation.mk args head.args

/-- Resolve a goal with the given arguments against clauses in turn. Each
attempt uses a copy of the clause with fresh variables, whether or not it
succeeds. There is no outcome if an attempt runs out of moves. -/
def branches (moves : Nat) (args : List Term) (deferred : List Atom) (bindings : List Binding) :
    List Clause → Supply → Option (List Branch × Supply)
  | [], supply => some ([], supply)
  | clause :: rest, supply =>
    let (fresh, supply) := clause.standardizeApart supply
    match unify moves (equations args fresh.head) with
    | .unfinished => none
    | .clash => branches moves args deferred bindings rest supply
    | .solved made =>
      (branches moves args deferred bindings rest supply).map fun (others, supply) =>
        (⟨clause, deferred ++ fresh.body, bindings ++ made⟩ :: others, supply)

/-- The values that a list of bindings gives to the query variables. -/
def valuesUnder (q : Query) (bindings : List Binding) : Answer :=
  ⟨q.vars.map fun x => ⟨x, applyAll bindings (.var x)⟩⟩

/-- Judge a candidate: it is an answer only if all its values are ground. -/
def judge (q : Query) (bindings : List Binding) : Event × Query :=
  let answer := q.valuesUnder bindings
  if answer.isGround then (.answered answer, { q with answers := q.answers + 1 })
  else (.discarded, q)

/-- Resolve the first goal of a partial proof that has been taken from the
queue. -/
def expand (q : Query) (store : Store) (moves : Nat) (supply : Supply) (goal : Atom)
    (deferred : List Atom) (bindings : List Binding) : Option Step :=
  (branches moves (goal.args.map (applyAll bindings)) deferred bindings
      (store.candidates goal) supply).map fun (produced, supply) =>
    let queue := q.queue.pushAll (produced.map Branch.proof)
    let entry : Expansion := ⟨q.steps, goal, produced.length, queue.size⟩
    { event := .expanded goal (produced.map Branch.clause)
      query := { q with
        queue := queue
        history := if q.recording then q.history.push entry else q.history }
      supply := supply }

/-- Take the oldest partial proof and judge or expand it. An exhausted query
stays as it is. There is no outcome if a unification runs out of moves. -/
def step (q : Query) (store : Store) (moves : Nat) (supply : Supply) : Option Step :=
  match q.queue.pop? with
  | none => some ⟨.idle, q, supply⟩
  | some (⟨goals, bindings⟩, queue) =>
    let q := { q with queue := queue, steps := q.steps + 1 }
    match goals with
    | [] =>
      let (event, q) := q.judge bindings
      some ⟨event, q, supply⟩
    | goal :: deferred => q.expand store moves supply goal deferred bindings

end Query

end Resolvent
