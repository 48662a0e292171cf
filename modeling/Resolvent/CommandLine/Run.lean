/-
# Running a command line

A sample program and the files to load are added first, in this order; then the
store is listed and its graph is written, if that is asked for. What is left is
an inquiry or else a dialogue. A file that cannot be loaded ends the run, and
so does a value that turns out to be missing when it is needed.

The surroundings of the program are given by four operations, which open a
file, write one, print and complain. The run is the same whatever they do.
-/

import Resolvent.CommandLine.Inquiry
import Resolvent.CommandLine.Options
import Resolvent.Console.Dialogue
import Resolvent.Graph.Dot

namespace Resolvent.CommandLine

/-- The surroundings of the program. -/
structure Host (m : Type → Type) where
  /-- The bytes of the file at a path. -/
  openFile : String → m (Except OpenError (List UInt8))
  /-- Write a text to the file at a path. -/
  writeFile : String → String → m (Except OpenError Unit)
  print : String → m Unit
  complain : String → m Unit

/-- A value that was asked for on the command line and left out. -/
inductive MissingValue
  | fileName | number
  deriving DecidableEq

/-- The wording of an error about a missing value. -/
def MissingValue.message : MissingValue → String
  | .fileName => "expected str, bytes or os.PathLike object, not list"
  | .number => "'>=' not supported between instances of 'int' and 'list'"

/-- How a run goes on when the command line has been carried out. -/
inductive Ending
  /-- The command line itself ends the run. -/
  | turnedAway (status : Nat)
  | finished (status : Nat)
  | dialogue (d : Dialogue)
  /-- A program file ended the run with an error. -/
  | unloaded (e : LoadError)
  /-- A value was needed that was left out. -/
  | incomplete (missing : MissingValue)
  /-- The graph could not be written. -/
  | unwritten (e : OpenError)
  /-- A search was given up for lack of effort. -/
  | stalled

variable {m : Type → Type} [Monad m]

/-- Load files in turn, up to one that cannot be loaded or has no name. -/
def loadAll (host : Host m) :
    KnowledgeBase → List (Option String) → m (Except Ending KnowledgeBase)
  | base, [] => return .ok base
  | _, none :: _ => return .error (.incomplete .fileName)
  | base, some path :: paths => do
    let opened ← host.openFile (Path.simplest path)
    match base.addOpened opened with
    | (.ok clauses, base) =>
      host.print s!"Loaded {clauses.length} clauses from {path}\n"
      loadAll host base paths
    | (.error e, _) =>
      match e.complaint? path with
      | some complaint =>
        host.complain (complaint ++ "\n")
        return .error (.finished 2)
      | none => return .error (.unloaded e)

/-- Add a sample program. -/
def addSample (host : Host m) (base : KnowledgeBase) (sample : Programs.Sample) :
    m KnowledgeBase := do
  let (outcome, base) := base.addProgram sample.source
  let count := match outcome with
    | .ok clauses => clauses.length
    | .error _ => 0
  host.print s!"Program: {sample.name} ({count} clauses)\n"
  return base

/-- Write the graph of a store. An empty path asks for none. -/
def writeGraph (host : Host m) (store : Store) (path : String) : m (Except OpenError Unit) := do
  match ← host.writeFile path store.dependencyGraph.dot with
  | .error e => return .error e
  | .ok _ =>
    host.print ("Graph exported to " ++ path ++ "\n")
    return .ok ()

/-- Answer a query or begin a dialogue. -/
def converse (host : Host m) (effort : Effort) (patience : Option Nat) (options : Options)
    (base : KnowledgeBase) : m Ending := do
  match options.query with
  | none => return .dialogue { base, patience, verbose := options.verbose }
  | some text =>
    let inquiry : Inquiry :=
      { text, maxAnswers := options.maxAnswers, maxSteps := options.maxSteps,
        verbose := options.verbose, history := options.history }
    match inquiry.respond base effort patience with
    | .stalled => return .stalled
    | .numberless => return .incomplete .number
    | .response response =>
      host.print response.printed
      host.complain response.complaints
      return .finished response.status

/-- Do what the options ask for. -/
def execute (host : Host m) (effort : Effort) (patience : Option Nat) (options : Options) :
    m Ending := do
  let base ← match options.program with
    | some sample => addSample host {} sample
    | none => pure {}
  match ← loadAll host base options.load with
  | .error ending => return ending
  | .ok base =>
    if options.list then host.print base.store.listing
    let written ← match options.dot with
      | some path => if path = "" then pure (.ok ()) else writeGraph host base.store path
      | none => pure (.ok ())
    match written with
    | .error e => return .unwritten e
    | .ok _ => converse host effort patience options base

/-- Carry out a command line. -/
def run (host : Host m) (effort : Effort) (patience : Option Nat) (environment : Option String)
    (arguments : List String) : m Ending := do
  match Options.ofArguments environment arguments with
  | .error e =>
    host.complain e.report
    return .turnedAway 2
  | .ok .help =>
    host.print help
    return .turnedAway 0
  | .ok (.run options) => execute host effort patience options

end Resolvent.CommandLine
