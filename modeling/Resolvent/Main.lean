/-
# The program

The outermost layer: the surroundings that the operating system provides, and
the loop that passes the lines of the standard input to a dialogue.
-/

import Resolvent.CommandLine.Run

namespace Resolvent

open CommandLine

/-- The bounds within which the program searches. -/
def ampleEffort : Effort :=
  ⟨1000000000000000, 1000000000000000⟩

/-- The number of an error of the operating system, which may be given with its
sign reversed. -/
def errorNumber (code : UInt32) : UInt32 :=
  if code < 0x80000000 then code else 0 - code

/-- The cause that stands for an error of the operating system. -/
def FileError.Cause.ofSystem : IO.Error → FileError.Cause
  | .inappropriateType _ code _ =>
    if errorNumber code = 21 then .isDirectory else .notDirectory
  | .invalidArgument _ code _ =>
    if errorNumber code = 36 then .nameTooLong else .notFound
  | _ => .notFound

/-- Try to do something with the file at a path. -/
def attempt {α : Type} (path : String) (action : IO α) : IO (Except OpenError α) := do
  if '\x00' ∈ path.toList then return .error .nullCharacter
  try return .ok (← action)
  catch e => return .error (.refused ⟨.ofSystem e, path⟩)

/-- The surroundings that the operating system provides. -/
def systemHost : Host IO where
  openFile path := attempt path do return (← IO.FS.readBinFile path).toList
  writeFile path text := attempt path (IO.FS.writeFile path text)
  print text := do
    let out ← IO.getStdout
    out.putStr text
    out.flush
  complain text := IO.eprint text

/-- The files that an input asks for, opened beforehand. -/
def openFor (d : Dialogue) (input : Input) : IO OpenFile := do
  let paths := match d.mode, input with
    | .ready, .line text =>
      match Command.ofLine text with
      | .consult paths => paths.map Path.simplest
      | _ => []
    | _, _ => []
  let opened ← paths.mapM fun path => return (path, ← systemHost.openFile path)
  return fun path =>
    match opened.find? (·.1 = path) with
    | some (_, bytes) => bytes
    | none => .error (.refused ⟨.notFound, path⟩)

/-- The next line of the standard input, and the lines that came along with
it. -/
def nextInput : List String → IO (Input × List String)
  | line :: waiting => return (.line line, waiting)
  | [] => do
    let text ← (← IO.getStdin).getLine
    match (Text.linesOf text.toList).map String.ofList with
    | line :: waiting => return (.line line, waiting)
    | [] => return (.endOfInput, [])

/-- Carry on a dialogue with the standard input until it waits for nothing. -/
partial def talk (d : Dialogue) (waiting : List String) : IO UInt32 := do
  match d.prompt?, d.mode with
  | some prompt, _ =>
    systemHost.print prompt
    let (input, waiting) ← nextInput waiting
    let turn := d.receive (← openFor d input) ampleEffort input
    systemHost.print turn.printed
    talk turn.dialogue waiting
  | none, .broken e =>
    IO.eprintln e.message
    return 1
  | none, _ => return 0

end Resolvent

open Resolvent CommandLine in
/-- The command line. -/
def main (arguments : List String) : IO UInt32 := do
  let environment ← IO.getEnv "HORNLOG_MAX_ANSWERS"
  match ← run systemHost ampleEffort none environment arguments with
  | .turnedAway status | .finished status => return status.toUInt32
  | .dialogue d => talk d []
  | .unloaded e =>
    IO.eprintln e.message
    return 1
  | .incomplete missing =>
    IO.eprintln missing.message
    return 1
  | .unwritten e =>
    IO.eprintln e.message
    return 1
  | .stalled => return 1
