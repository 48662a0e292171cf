/-
# Knowledge bases

A knowledge base is a store together with the vocabulary in which its clauses
are written. Text is read with that vocabulary, so that a name means the same
in every text that is ever added, and in every query.

A program text adds all of its clauses or none of them.
-/

import Resolvent.Files.FileError
import Resolvent.Files.Path
import Resolvent.Language.Reading
import Resolvent.Store
import Resolvent.Text.Line
import Resolvent.Text.Utf8

namespace Resolvent

/-- Clauses and the vocabulary they are written in. -/
structure KnowledgeBase where
  store : Store := {}
  vocabulary : Vocabulary := {}

/-- Why a program file cannot be loaded. -/
inductive LoadError
  | unopened (e : OpenError)
  | undecodable (e : Text.Utf8Error)
  | malformed (e : ParseError)

namespace LoadError

/-- The wording of an error. -/
def message : LoadError → String
  | .unopened e => e.message
  | .undecodable e => e.message
  | .malformed e => e.message

/-- What the user is told about a file that the file system refuses or that is
not a program, with the path as it was typed. The other errors are not taken
care of: they end whatever asked for the file. -/
def complaint? (path : String) : LoadError → Option String
  | .unopened (.refused e) => some ("cannot read " ++ path ++ ": " ++ e.cause.text)
  | .malformed e => some ("syntax error in " ++ path ++ ": " ++ e.message)
  | .unopened .nullCharacter | .undecodable _ => none

end LoadError

/-- A view of the file system: the bytes of the file at a path. -/
abbrev OpenFile := String → Except OpenError (List UInt8)

namespace KnowledgeBase

/-- Add the clauses of a program text. -/
def addProgram (base : KnowledgeBase) (text : String) :
    Except ParseError (List Clause) × KnowledgeBase :=
  match base.vocabulary.parseProgram text with
  | (.ok clauses, vocabulary) => (.ok clauses, ⟨base.store.extend clauses, vocabulary⟩)
  | (.error e, vocabulary) => (.error e, { base with vocabulary })

/-- The program text in the bytes of a file. -/
def programText (bytes : List UInt8) : Except Text.Utf8Error String :=
  (Text.decodeUtf8 bytes).map fun text => String.ofList (Text.unifyLineEnds text)

/-- Add the clauses of a program file, given what opening the file has
brought. -/
def addOpened (base : KnowledgeBase) (opened : Except OpenError (List UInt8)) :
    Except LoadError (List Clause) × KnowledgeBase :=
  match opened with
  | .error e => (.error (.unopened e), base)
  | .ok bytes =>
    match programText bytes with
    | .error e => (.error (.undecodable e), base)
    | .ok text =>
      let (outcome, base) := base.addProgram text
      (outcome.mapError .malformed, base)

/-- Add the clauses of the program file at a path. The path is simplified
before the file is opened. -/
def addFile (base : KnowledgeBase) (openFile : OpenFile) (path : String) :
    Except LoadError (List Clause) × KnowledgeBase :=
  base.addOpened (openFile (Path.simplest path))

end KnowledgeBase

end Resolvent
