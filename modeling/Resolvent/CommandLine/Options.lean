/-
# Reading the command line

Every argument is first classified on its own: as an option, as a plain
argument, or as something that looks like an option but is none. An option may
be abbreviated as long as only one setting begins that way, and a value may be
attached to it with an equals sign. Two hyphens alone make all later arguments
plain; attached as a value, they leave the setting without one. What looks like
a negative number, or contains a space, is plain unless it is an option.

Then the options take effect from left to right, so the first of two mistakes
is the one reported; a call for help ends the reading. No argument is wanted
that belongs to no option, and such arguments are reported together at the end.
-/

import Resolvent.CommandLine.PositiveInteger
import Resolvent.CommandLine.Setting
import Resolvent.Programs.Catalogue
import Resolvent.Text.Layout

namespace Resolvent.CommandLine

/-- A mistake on the command line. -/
inductive UsageError
  | ambiguous (argument : String) (candidates : List String)
  | valueMissing (s : Setting)
  | valueIgnored (s : Setting) (value : String)
  | unknownProgram (name : String)
  | badNumber (s : Setting) (e : NumberError)
  | unrecognized (arguments : List String)
  deriving DecidableEq

namespace UsageError

/-- The wording of a mistake of one setting. -/
def about (s : Setting) (text : String) : String :=
  "argument " ++ s.title ++ ": " ++ text

/-- The wording of a mistake. -/
def message : UsageError → String
  | .ambiguous argument candidates =>
    "ambiguous option: " ++ argument ++ " could match " ++ Text.listed candidates
  | .valueMissing s => about s "expected one argument"
  | .valueIgnored s value => about s ("ignored explicit argument " ++ Text.quoted value)
  | .unknownProgram name =>
    about .program ("invalid choice: " ++ Text.quoted name ++ " (choose from " ++
      Text.listed (Programs.names.map Text.quoted) ++ ")")
  | .badNumber s e => about s e.message
  | .unrecognized arguments => "unrecognized arguments: " ++ Text.separated " " arguments

/-- What is printed about a mistake: how the program is called, and the
mistake. -/
def report (e : UsageError) : String :=
  usage ++ "hornlog: error: " ++ e.message ++ "\n"

end UsageError

/-! ### Classification -/

/-- An argument by its looks. -/
inductive Argument
  | plain (text : String)
  /-- Two hyphens alone. -/
  | divider
  /-- An option, and the value attached to it with an equals sign. -/
  | option (s : Setting) (value : Option String)
  /-- The letter for help with other letters attached, by an equals sign or
  directly. -/
  | cluster (letters : List Char)
  /-- Something that looks like an option. -/
  | stranger (text : String)
  deriving DecidableEq

namespace Argument

/-- The part of a text in front of its first equals sign, and the part behind
it if there is one. -/
def splitValue (text : List Char) : List Char × Option (List Char) :=
  match text.dropWhile (· ≠ '=') with
  | [] => (text, none)
  | _ :: value => (text.takeWhile (· ≠ '='), some value)

/-- Whether a text is a hyphen with the digits of a number behind it, perhaps
with a decimal point among or in front of them. A line feed at the end does not
count. -/
def looksNegative (text : List Char) : Bool :=
  let text := if text.getLast? = some '\n' then text.dropLast else text
  let isDigit (c : Char) : Bool := (Text.digitValue? c).isSome
  match text with
  | '-' :: digits =>
    match digits.dropWhile isDigit with
    | [] => !digits.isEmpty
    | '.' :: decimals => !decimals.isEmpty && decimals.all isDigit
    | _ => false
  | _ => false

/-- An argument that begins with a hyphen and is not the exact spelling of an
option. -/
def classifyInexact (text : List Char) : Except UsageError Argument :=
  match text with
  | '-' :: 'h' :: '=' :: letters | '-' :: 'h' :: letters => .ok (.cluster letters)
  | _ =>
    let (name, value) := splitValue text
    let value := value.map String.ofList
    match Setting.spelled? (String.ofList name), value with
    | some s, some value => .ok (.option s (some value))
    | _, _ =>
      let candidates :=
        if ['-', '-'].isPrefixOf text then
          Setting.spellings.filter fun entry => name.isPrefixOf entry.1.toList
        else []
      match candidates with
      | (_, s) :: [] => .ok (.option s value)
      | _ :: _ :: _ => .error (.ambiguous (String.ofList text) (candidates.map (·.1)))
      | [] =>
        if looksNegative text ∨ ' ' ∈ text then .ok (.plain (String.ofList text))
        else .ok (.stranger (String.ofList text))

/-- An argument by its looks. A hyphen alone is plain. -/
def classify (text : String) : Except UsageError Argument :=
  match text.toList with
  | '-' :: rest =>
    match Setting.spelled? text with
    | some s => .ok (.option s none)
    | none => if rest = [] then .ok (.plain text) else classifyInexact ('-' :: rest)
  | _ => .ok (.plain text)

/-- The arguments of a command line by their looks. -/
def classifyAll : List String → Except UsageError (List Argument)
  | [] => .ok []
  | text :: rest =>
    if text = "--" then .ok (.divider :: rest.map .plain)
    else do
      let first ← classify text
      let others ← classifyAll rest
      return first :: others

end Argument

/-! ### Effects -/

/-- What a command line asks for. -/
structure Options where
  /-- The files to load. One may be asked for without a name. -/
  load : List (Option String) := []
  program : Option Programs.Sample := none
  query : Option String := none
  maxAnswers : Bound := .atMost 10
  maxSteps : Bound := .unlimited
  dot : Option String := none
  list : Bool := false
  history : Bool := false
  verbose : Bool := false

/-- What the program is called for. -/
inductive Request
  | help
  | run (options : Options)

namespace Options

/-- Give a setting its value. Files to load add up; otherwise the last value
counts. -/
def assign (options : Options) (s : Setting) (value : String) : Except UsageError Options :=
  match s with
  | .load => .ok { options with load := options.load ++ [some value] }
  | .program =>
    match Programs.find? value with
    | some program => .ok { options with program := some program }
    | none => .error (.unknownProgram value)
  | .query => .ok { options with query := some value }
  | .maxAnswers => do
    let n ← (positiveInteger value).mapError (.badNumber s)
    return { options with maxAnswers := .atMost n }
  | .maxSteps => do
    let n ← (positiveInteger value).mapError (.badNumber s)
    return { options with maxSteps := .atMost n }
  | .dot => .ok { options with dot := some value }
  | .help | .list | .history | .verbose => .ok options

/-- Leave a setting without a value. No program is preloaded and no graph is
written, the query is the empty text, and what is missing of a file or of a
bound is left to be found out. -/
def vacate (options : Options) : Setting → Options
  | .load => { options with load := options.load ++ [none] }
  | .program => { options with program := none }
  | .query => { options with query := some "" }
  | .maxAnswers => { options with maxAnswers := .numberless }
  | .maxSteps => { options with maxSteps := .numberless }
  | .dot => { options with dot := none }
  | .help | .list | .history | .verbose => options

/-- Turn a switch on. -/
def switchOn (options : Options) : Setting → Options
  | .list => { options with list := true }
  | .history => { options with history := true }
  | .verbose => { options with verbose := true }
  | .help | .load | .program | .query | .maxAnswers | .maxSteps | .dot => options

/-- Whether the letters attached to the letter for help are in order. There is
at least one, and they only repeat the letter; from the first other one on they
are a value, which help does not take. -/
def checkCluster (letters : List Char) : Except UsageError Unit :=
  let value := letters.dropWhile (· = 'h')
  if letters ≠ [] ∧ value = [] then .ok ()
  else .error (.valueIgnored .help (String.ofList value))

/-- Let arguments take effect in turn; `strays` are the arguments so far that
belong to no option, newest first. -/
def apply (options : Options) (strays : List String) :
    List Argument → Except UsageError Request
  | [] => if strays = [] then .ok (.run options) else .error (.unrecognized strays.reverse)
  | .plain text :: rest | .stranger text :: rest => apply options (text :: strays) rest
  | .divider :: rest => apply options ("--" :: strays) rest
  | .cluster letters :: _ => (checkCluster letters).map fun _ => .help
  | .option s (some value) :: rest =>
    if s.takesValue then do
      let options ← if value = "--" then .ok (options.vacate s) else options.assign s value
      apply options strays rest
    else .error (.valueIgnored s value)
  | .option s none :: rest =>
    if s = .help then .ok .help
    else if s.takesValue then
      match rest with
      | .plain value :: rest => do
        let options ← options.assign s value
        apply options strays rest
      | _ => .error (.valueMissing s)
    else apply (options.switchOn s) strays rest

/-- What a command line asks for, given the environment's word on the number of
answers. -/
def ofArguments (environment : Option String) (arguments : List String) :
    Except UsageError Request := do
  let arguments ← Argument.classifyAll arguments
  apply { maxAnswers := .atMost (defaultAnswers environment) } [] arguments

end Options

end Resolvent.CommandLine
