/-
# Inquiries

A query that is asked from the command line is answered without further
dialogue: a number of answers at most, and a number of steps at most. The
status of the program tells whether there was an answer. The bounds are looked
at only when the query has been read, so a mistake in the query comes before
one in a bound.
-/

import Resolvent.CommandLine.PositiveInteger
import Resolvent.KnowledgeBase
import Resolvent.Search.Pull

namespace Resolvent.CommandLine

/-- A query with the bounds on answering it, and what is to be told about the
search. -/
structure Inquiry where
  text : String
  maxAnswers : Bound := .unlimited
  maxSteps : Bound := .unlimited
  verbose : Bool := false
  history : Bool := false

/-- What is printed about an inquiry, what is complained about, and the
status. -/
structure Response where
  printed : String := ""
  complaints : String := ""
  status : Nat
  deriving DecidableEq

/-- What becomes of an inquiry. -/
inductive Inquiry.Outcome
  | response (r : Response)
  /-- A bound has no number to compare with. -/
  | numberless
  /-- The search was given up for lack of effort. -/
  | stalled
  deriving DecidableEq

namespace Inquiry

/-- The words behind the answers. They say whether the search has come to its
end. -/
def closing (answers : List Answer) (reason : Reason) (q : Query) : String :=
  match reason with
  | .exhausted => if answers.isEmpty then "false." else "no more answers."
  | .limitReached | .budgetExceeded =>
    "[stopped] " ++ reason.text ++ s!" after {q.steps} steps"

/-- The outcome of the search for answers. -/
def report (i : Inquiry) : Taking → Outcome
  | .unfinished => .stalled
  | .interrupted s => .response { printed := s.printed ++ "\nInterrupted.\n", status := 1 }
  | .taken answers reason s =>
    .response {
      printed :=
        s.printed ++ Text.lines (answers.map Answer.text ++ [closing answers reason s.query]) ++
          (if i.history then s.query.historyText else "")
      status := if answers.isEmpty then 1 else 0 }

/-- Read the query and search for answers within the bounds. -/
def respond (i : Inquiry) (base : KnowledgeBase) (effort : Effort) (patience : Option Nat) :
    Outcome :=
  match base.vocabulary.parseGoals i.text with
  | (.error e, _) => .response { complaints := "syntax error: " ++ e.message ++ "\n", status := 2 }
  | (.ok goals, vocabulary) =>
    match i.maxAnswers.limit?, i.maxSteps.limit? with
    | some limit, some budget =>
      let search : Search :=
        { query := .ofGoals goals i.verbose i.history, supply := vocabulary.supply, patience }
      i.report (search.takeAnswers base.store effort.moves effort.steps limit budget)
    | _, _ => .numberless

end Inquiry

end Resolvent.CommandLine
