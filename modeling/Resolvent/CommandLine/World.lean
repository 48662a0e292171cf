/-
# Worlds

A world is a set of surroundings as a value: a file tree, what has been printed
and what has been complained about. In a world a run of the program is a
function, from the command line and the lines of the input to all that it
leaves behind.
-/

import Resolvent.CommandLine.Run
import Resolvent.Files.Tree

namespace Resolvent.CommandLine

/-- Surroundings as a value. -/
structure World where
  files : FileTree := {}
  printed : String := ""
  complaints : String := ""

namespace World

/-- The surroundings that a world is. -/
def host : Host (StateM World) where
  openFile path := do return (← get).files.read path
  writeFile path text := do
    match (← get).files.write path text.toUTF8.toList with
    | .error e => return .error e
    | .ok files =>
      modify fun w => { w with files }
      return .ok ()
  print text := modify fun w => { w with printed := w.printed ++ text }
  complain text := modify fun w => { w with complaints := w.complaints ++ text }

/-- Carry on a dialogue with the lines of an input, prompts and all. -/
def talk (effort : Effort) (d : Dialogue) (lines : List String) : StateM World Dialogue := do
  let turns := d.run (← get).files.read effort (lines.map .line)
  host.print ("".intercalate (d.prompt?.toList ++ turns.flatMap fun turn =>
    turn.printed :: turn.dialogue.prompt?.toList))
  return (turns.getLast?.map Turn.dialogue).getD d

/-- Carry out a command line and the dialogue it may begin, which gives the
last ending. A dialogue that is over ends the run with status zero. -/
def run (effort : Effort) (patience : Option Nat) (environment : Option String)
    (arguments lines : List String) : StateM World Ending := do
  match ← CommandLine.run host effort patience environment arguments with
  | .dialogue d =>
    let d ← talk effort d lines
    match d.mode with
    | .broken e => return .unloaded e
    | .stalled => return .stalled
    | .over | .ready | .showing _ => return .finished 0
  | ending => return ending

end World

end Resolvent.CommandLine
