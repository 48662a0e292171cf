/-
# Dialogues

A dialogue is an interactive session: the user types lines at a prompt, and
while answers are being shown, replies that ask for the next answer or not. It
is a machine that takes one input at a time and says what is printed and what
it waits for next. The input may also be the end of the input or an
interruption from the keyboard; at the prompt both end the session, during the
answers both end the answers.

What the session knows changes only by consulting a file, and only if that file
can be read and is a program throughout.
-/

import Resolvent.Console.Command
import Resolvent.KnowledgeBase
import Resolvent.Listing
import Resolvent.Search.Pull

namespace Resolvent

/-- What reaches the session from the user. -/
inductive Input
  | line (text : String)
  | endOfInput
  | interruption
  deriving DecidableEq

/-- What a session waits for, or why it waits for nothing. -/
inductive Dialogue.Mode
  /-- A command. -/
  | ready
  /-- A reply to the answer that has just been shown. -/
  | showing (query : Query)
  /-- The session is over. -/
  | over
  /-- A consulted file ended the session with an error. -/
  | broken (e : LoadError)
  /-- A search was given up for lack of effort. -/
  | stalled

/-- A session. -/
structure Dialogue where
  base : KnowledgeBase
  /-- Whether every step of a search is reported. -/
  verbose : Bool := false
  /-- The number of search steps before the one that is interrupted, if one is
  to be. -/
  patience : Option Nat := none
  mode : Dialogue.Mode := .ready

/-- What a session prints in response to an input, and the session
afterwards. -/
structure Turn where
  printed : String
  dialogue : Dialogue

namespace Dialogue

/-- The prompt with which the session waits, if it does. Replies are not
prompted. -/
def prompt? (d : Dialogue) : Option String :=
  match d.mode with
  | .ready => some "?- "
  | .showing _ => some ""
  | .over | .broken _ | .stalled => none

/-- The session with the supply and the patience that a search has left. -/
def resume (d : Dialogue) (s : Search) (mode : Mode) : Dialogue :=
  { d with
    base := { d.base with vocabulary := { d.base.vocabulary with supply := s.supply } }
    patience := s.patience
    mode := mode }

/-- Show the next answer of a query. -/
def showNext (effort : Effort) (d : Dialogue) (q : Query) : Turn :=
  let search : Search :=
    { query := q, supply := d.base.vocabulary.supply, patience := d.patience }
  match search.nextAnswer d.base.store effort.moves effort.steps with
  | .answer answer s => ⟨s.printed ++ answer.text ++ "\n", d.resume s (.showing s.query)⟩
  | .exhausted s => ⟨s.printed ++ "false.\n", d.resume s .ready⟩
  | .interrupted s => ⟨s.printed ++ "\nInterrupted.\n", d.resume s .ready⟩
  | .unfinished => ⟨"", { d with mode := .stalled }⟩

/-- Consult one file. -/
def consult (openFile : OpenFile) (d : Dialogue) (path : String) : Turn :=
  let (outcome, base) := d.base.addFile openFile path
  let d := { d with base }
  match outcome with
  | .ok clauses => ⟨Text.lines (clauses.map fun c => c.kindName ++ " added: " ++ c.text), d⟩
  | .error e =>
    match e.complaint? path with
    | some complaint => ⟨complaint ++ "\n", d⟩
    | none => ⟨"", { d with mode := .broken e }⟩

/-- Consult files in turn, up to one that ends the session. -/
def consultAll (openFile : OpenFile) : Dialogue → List String → Turn
  | d, [] => ⟨"", d⟩
  | d, path :: paths =>
    let first := d.consult openFile path
    match first.dialogue.mode with
    | .broken _ => first
    | _ =>
      let others := consultAll openFile first.dialogue paths
      ⟨first.printed ++ others.printed, others.dialogue⟩

/-- Read a query and show its first answer. -/
def ask (effort : Effort) (d : Dialogue) (text : String) : Turn :=
  let (outcome, vocabulary) := d.base.vocabulary.parseGoals text
  let d := { d with base := { d.base with vocabulary } }
  match outcome with
  | .error e => ⟨"syntax error: " ++ e.message ++ "\n", d⟩
  | .ok goals => d.showNext effort (.ofGoals goals d.verbose false)

/-- Carry out a command. -/
def obey (openFile : OpenFile) (effort : Effort) (d : Dialogue) : Command → Turn
  | .nothing => ⟨"", d⟩
  | .leave => ⟨"", { d with mode := .over }⟩
  | .list => ⟨d.base.store.listing, d⟩
  | .consult paths => d.consultAll openFile paths
  | .query text => d.ask effort text

/-- Whether a reply asks for the next answer: it is blank or a semicolon. -/
def wantsMore (reply : String) : Bool :=
  let text := Text.strip reply.toList
  text = [] || text = [';']

/-- Take an input while an answer of a query is being shown. -/
def reply (effort : Effort) (d : Dialogue) (q : Query) : Input → Turn
  | .line text =>
    if wantsMore text then d.showNext effort q else ⟨"", { d with mode := .ready }⟩
  | .endOfInput | .interruption => ⟨"\n", { d with mode := .ready }⟩

/-- Take one input. -/
def receive (openFile : OpenFile) (effort : Effort) (d : Dialogue) (input : Input) : Turn :=
  match d.mode, input with
  | .ready, .line text => d.obey openFile effort (.ofLine text)
  | .ready, .endOfInput | .ready, .interruption => ⟨"\n", { d with mode := .over }⟩
  | .showing q, input => d.reply effort q input
  | .over, _ | .broken _, _ | .stalled, _ => ⟨"", d⟩

/-- Take inputs as long as the session waits for one. -/
def converse (openFile : OpenFile) (effort : Effort) : Dialogue → List Input → List Turn
  | _, [] => []
  | d, input :: inputs =>
    match d.prompt? with
    | none => []
    | some _ =>
      let turn := d.receive openFile effort input
      turn :: converse openFile effort turn.dialogue inputs

/-- A whole session: the inputs, and then the end of the input for as long as
the session waits, which is twice at most. -/
def run (openFile : OpenFile) (effort : Effort) (d : Dialogue) (inputs : List Input) :
    List Turn :=
  d.converse openFile effort (inputs ++ [.endOfInput, .endOfInput])

/-- Take replies as long as answers are being shown, and the end of the input
if the replies do not suffice. -/
def replies (effort : Effort) (d : Dialogue) (inputs : List Input) : List Turn :=
  match d.mode, inputs with
  | .showing q, [] => [d.reply effort q .endOfInput]
  | .showing q, input :: inputs =>
    let turn := d.reply effort q input
    turn :: replies effort turn.dialogue inputs
  | .ready, _ | .over, _ | .broken _, _ | .stalled, _ => []

/-- Take one line and then replies until all that it asks for is done. -/
def handle (openFile : OpenFile) (effort : Effort) (d : Dialogue) (line : String)
    (inputs : List Input) : List Turn :=
  let turn := d.receive openFile effort (.line line)
  turn :: turn.dialogue.replies effort inputs

/-- Whether the session goes on. -/
def goesOn (d : Dialogue) : Bool :=
  match d.mode with
  | .ready | .showing _ => true
  | .over | .broken _ | .stalled => false

end Dialogue

end Resolvent
