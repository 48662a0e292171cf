/-
# Traces

Two accounts of a search. The trace of a verbose query tells each step as it
happens, with the clauses that were used as they stand in the store. The
history of a recording query lists the resolved goals afterwards.
-/

import Resolvent.Search.Query

namespace Resolvent

namespace Expansion

/-- An entry of the history as it is written. -/
def text (e : Expansion) : String :=
  let goal := e.goal.text
  s!"Step {e.step}: {goal} -> {e.produced} branch(es), queue {e.waiting}"

end Expansion

namespace Query

/-- The lines that tell of an event, given the query as the event left it. -/
def trace (q : Query) : Event → List String
  | .idle => []
  | .discarded => [s!"--- Step {q.steps}: candidate discarded (non-ground binding)"]
  | .answered answer =>
    let text := answer.text
    [s!"--- Step {q.steps}: answer {q.answers}: {text}"]
  | .expanded goal used =>
    let entry : Expansion := ⟨q.steps, goal, used.length, q.queue.size⟩
    used.map (fun c => "  [" ++ c.kindName ++ "] " ++ goal.text ++ " <- " ++ c.text) ++
      ["--- " ++ entry.text]

/-- What is printed at an event: its trace, if the query is verbose. -/
def report (q : Query) (event : Event) : String :=
  if q.verbose then Text.lines (q.trace event) else ""

/-- The recorded history as it is printed. -/
def historyText (q : Query) : String :=
  Text.lines (["", Text.rule, "Search history:", Text.rule] ++
    q.history.toList.map fun e => "  " ++ e.text)

end Query

end Resolvent
