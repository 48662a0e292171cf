/-
# Pulling answers

Answers are pulled from a query one at a time; between two pulls the query
rests. A search keeps with the query what a pull needs besides the store: the
supply of fresh symbols, what has been printed so far, and the number of steps
after which the user loses patience. An interruption replaces the step it falls
on, is delivered once, and leaves the query as it was.

A pull need not end, since a search need not. It is given a number of steps,
and running out of them is an outcome of its own.
-/

import Resolvent.Search.Trace

namespace Resolvent

/-- The bounds on a computation that may not end: the moves of one unification,
and the steps of one pull. -/
structure Effort where
  moves : Nat
  steps : Nat

/-- A query at work. -/
structure Search where
  query : Query
  supply : Supply
  /-- What has been printed so far. -/
  printed : String := ""
  /-- The number of steps before the one that is interrupted, if one is to
  be. -/
  patience : Option Nat := none

/-- What became of an attempt to make a step. -/
inductive Pulse
  | stepped (event : Event) (search : Search)
  | interrupted (search : Search)
  | unfinished

/-- What became of a request for the next answer. -/
inductive Pull
  | answer (answer : Answer) (search : Search)
  | exhausted (search : Search)
  | interrupted (search : Search)
  | unfinished

/-- Why no further answers are taken. -/
inductive Reason
  | limitReached | exhausted | budgetExceeded
  deriving DecidableEq

/-- The wording of a reason. -/
def Reason.text : Reason → String
  | .limitReached => "limit reached"
  | .exhausted => "exhausted"
  | .budgetExceeded => "step budget exceeded"

/-- What became of a request for several answers. -/
inductive Taking
  | taken (answers : List Answer) (reason : Reason) (search : Search)
  | interrupted (search : Search)
  | unfinished

/-- The outcome of a request with one more answer in front. -/
def Taking.after (first : Answer) : Taking → Taking
  | .taken answers reason search => .taken (first :: answers) reason search
  | .interrupted search => .interrupted search
  | .unfinished => .unfinished

namespace Search

/-- Make one step, unless it is the one that is interrupted. -/
def step (s : Search) (store : Store) (moves : Nat) : Pulse :=
  match s.patience with
  | some 0 => .interrupted { s with patience := none }
  | patience =>
    match s.query.step store moves s.supply with
    | none => .unfinished
    | some ⟨event, query, supply⟩ =>
      .stepped event
        { query, supply,
          printed := s.printed ++ query.report event,
          patience := patience.map (· - 1) }

/-- Make steps until one of them gives an answer or the query is exhausted. -/
def nextAnswer (store : Store) (moves : Nat) : (steps : Nat) → Search → Pull
  | 0, s => if s.query.isExhausted then .exhausted s else .unfinished
  | steps + 1, s =>
    if s.query.isExhausted then .exhausted s
    else
      match s.step store moves with
      | .unfinished => .unfinished
      | .interrupted s => .interrupted s
      | .stepped (.answered answer) s => .answer answer s
      | .stepped _ s => nextAnswer store moves steps s

/-- The reason to take no further answer, if there is one: enough answers, no
partial proof left, or enough steps. They are considered in this order. -/
def stopReason? (s : Search) (limit budget : Option Nat) : Option Reason :=
  if limit = some 0 then some .limitReached
  else if s.query.isExhausted then some .exhausted
  else if budget.any (· ≤ s.query.steps) then some .budgetExceeded
  else none

/-- Collect answers until there is a reason to stop. The limit is on the
answers of this request, the budget on all steps the query has ever made. -/
def takeAnswers (store : Store) (moves : Nat) :
    (steps : Nat) → (limit budget : Option Nat) → Search → Taking
  | steps, limit, budget, s =>
    match s.stopReason? limit budget with
    | some reason => .taken [] reason s
    | none =>
      match steps with
      | 0 => .unfinished
      | steps + 1 =>
        match s.step store moves with
        | .unfinished => .unfinished
        | .interrupted s => .interrupted s
        | .stepped (.answered answer) s =>
          (takeAnswers store moves steps (limit.map (· - 1)) budget s).after answer
        | .stepped _ s => takeAnswers store moves steps limit budget s

end Search

end Resolvent
