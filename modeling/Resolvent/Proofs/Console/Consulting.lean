/-
# What comes of consulting files

Three things can come of a file, and which of them does not depend on who
consults it. It may hold a program. There may be something wrong with it that
the user is told: the file system refuses it, or its text is not a program. Or
it has a fault of a kind that nobody takes care of, a path with the null
character in it or bytes that are no text, and then the session breaks.

A file whose text is not a program leaves the names of that text in the
vocabulary, as far as it was read. It is the store that it leaves as it was. So
what several files do to a knowledge base is told by those among them that hold
a program, in their order; only a fault keeps those behind it from being
consulted.
-/

import Resolvent.Console.Dialogue
import Resolvent.Proofs.Language.Concatenation

namespace Resolvent

/-- Whether a text is a program. -/
def isProgram (text : String) : Bool :=
  (({} : Vocabulary).parseProgram text).1.toBool

/-- Which vocabulary reads a program makes no difference to whether it is
one. -/
theorem isProgram_iff {text : String} (v : Vocabulary) :
    isProgram text ↔ ∃ clauses v', v.parseProgram text = (.ok clauses, v') := by
  have any {u : Vocabulary} (w : Vocabulary)
      (accepted : ∃ clauses u', u.parseProgram text = (.ok clauses, u')) :
      ∃ clauses w', w.parseProgram text = (.ok clauses, w') := by
    obtain ⟨clauses, u', parsed⟩ := accepted
    obtain ⟨again, w', parsed', _⟩ := Vocabulary.parseProgram_again parsed w
    exact ⟨again, w', parsed'⟩
  refine Iff.trans ?_ ⟨any (u := {}) v, any {}⟩
  unfold isProgram
  cases ({} : Vocabulary).parseProgram text with
  | mk outcome after => cases outcome <;> simp [Except.toBool]

namespace OpenFile

variable (openFile : OpenFile) (path : String)

/-- The text in the file at a path, if it can be opened and decoded. -/
def text? : Option String :=
  match openFile (Path.simplest path) with
  | .ok bytes => (KnowledgeBase.programText bytes).toOption
  | .error _ => none

/-- Whether the file at a path can be opened, and is a program throughout. -/
def holdsProgram : Bool :=
  (openFile.text? path).any isProgram

/-- What is wrong with a path or with the file there, if nobody takes care of
it. -/
def fault? : Option LoadError :=
  match openFile (Path.simplest path) with
  | .error .nullCharacter => some (.unopened .nullCharacter)
  | .error (.refused _) => none
  | .ok bytes =>
    match KnowledgeBase.programText bytes with
    | .error e => some (.undecodable e)
    | .ok _ => none

/-- The paths that are consulted when all of them are to be: those up to the
first one with such a fault. -/
def tried : List String → List String
  | [] => []
  | path :: paths => path :: if (openFile.fault? path).isSome then [] else tried paths

variable {openFile path}

/-- A fault leaves no text. -/
theorem text?_of_fault? {e : LoadError} (fault : openFile.fault? path = some e) :
    openFile.text? path = none := by
  unfold fault? at fault
  unfold text?
  split at fault
  · next opened => rw [opened]
  · cases fault
  · next bytes opened =>
      rw [opened]
      split at fault
      · next e' undecodable => simp [undecodable, Except.toOption]
      · cases fault

/-- A file that holds a text has no fault. -/
theorem fault?_of_text? {text : String} (holds : openFile.text? path = some text) :
    openFile.fault? path = none := by
  cases fault : openFile.fault? path with
  | none => rfl
  | some e => exact absurd (holds.symm.trans (text?_of_fault? fault)) (Option.some_ne_none text)

/-- Whether a text is a program does not depend on what the vocabulary knows
already. -/
theorem holdsProgram_iff_of_text? {text : String} (holds : openFile.text? path = some text)
    (v : Vocabulary) :
    openFile.holdsProgram path ↔ ∃ clauses v', v.parseProgram text = (.ok clauses, v') := by
  rw [holdsProgram, holds, Option.any_some, isProgram_iff v]

end OpenFile

namespace KnowledgeBase

variable {openFile : OpenFile}

/-- What is loaded on the way from one knowledge base to another: the paths,
each with the clauses that were read there. In between other texts may add to
the vocabulary, and searches may draw from the supply. -/
inductive Loads (openFile : OpenFile) (start : KnowledgeBase) :
    List (String × List Clause) → KnowledgeBase → Prop
  | start : Loads openFile start [] start
  | learn {loads : List (String × List Clause)} {base : KnowledgeBase} {v : Vocabulary}
      (prior : Loads openFile start loads base) (grown : base.vocabulary.Grows v) :
      Loads openFile start loads { base with vocabulary := v }
  | load {loads : List (String × List Clause)} {base : KnowledgeBase} {path text : String}
      {clauses : List Clause} {v : Vocabulary} (prior : Loads openFile start loads base)
      (holds : openFile.text? path = some text)
      (read : base.vocabulary.parseProgram text = (.ok clauses, v)) :
      Loads openFile start (loads ++ [(path, clauses)]) ⟨base.store.extend clauses, v⟩

/-- Files that are loaded after others have been loaded with them. -/
theorem Loads.trans {start between last : KnowledgeBase} {loads more : List (String × List Clause)}
    (first : start.Loads openFile loads between) (second : between.Loads openFile more last) :
    start.Loads openFile (loads ++ more) last := by
  induction second with
  | start => rwa [List.append_nil]
  | learn _ grown ih => exact .learn ih grown
  | load _ holds read ih =>
      rw [← List.append_assoc]
      exact .load ih holds read

end KnowledgeBase

namespace Dialogue

open KnowledgeBase

/-- What can come of consulting a path, with what is printed. -/
inductive Consulted (openFile : OpenFile) (path : String) (d : Dialogue) : Turn → Prop
  /-- The clauses are added, and listed as they are. -/
  | loaded {text : String} {clauses : List Clause} {v : Vocabulary}
      (holds : openFile.text? path = some text)
      (read : d.base.vocabulary.parseProgram text = (.ok clauses, v)) :
      Consulted openFile path d
        ⟨Text.lines (clauses.map fun c => c.kindName ++ " added: " ++ c.text),
          { d with base := ⟨d.base.store.extend clauses, v⟩ }⟩
  /-- The user is told why the file system refuses the file. -/
  | refused {e : FileError} (unopened : openFile (Path.simplest path) = .error (.refused e)) :
      Consulted openFile path d ⟨"cannot read " ++ path ++ ": " ++ e.cause.text ++ "\n", d⟩
  /-- The user is told why the text is not a program. -/
  | malformed {text : String} {e : ParseError} {v : Vocabulary}
      (holds : openFile.text? path = some text)
      (read : d.base.vocabulary.parseProgram text = (.error e, v)) :
      Consulted openFile path d
        ⟨"syntax error in " ++ path ++ ": " ++ e.message ++ "\n",
          { d with base := { d.base with vocabulary := v } }⟩
  /-- The session breaks. -/
  | faulty {e : LoadError} (fault : openFile.fault? path = some e) :
      Consulted openFile path d ⟨"", { d with mode := .broken e }⟩

variable {openFile : OpenFile}

/-- Consulting a file ends in one of four ways. -/
theorem consulted_consult (openFile : OpenFile) (d : Dialogue) (path : String) :
    d.Consulted openFile path (d.consult openFile path) := by
  unfold consult addFile
  cases opened : openFile (Path.simplest path) with
  | error e =>
      cases e with
      | refused e => exact .refused opened
      | nullCharacter => exact .faulty (by simp [OpenFile.fault?, opened])
  | ok bytes =>
      rw [addOpened]
      cases decoded : programText bytes with
      | error e => exact .faulty (by simp [OpenFile.fault?, opened, decoded])
      | ok text =>
          have holds : openFile.text? path = some text := by
            simp [OpenFile.text?, opened, decoded, Except.toOption]
          dsimp only [addProgram]
          cases parsed : d.base.vocabulary.parseProgram text with
          | mk read v =>
              cases read with
              | ok clauses => exact .loaded holds parsed
              | error e => exact .malformed holds parsed

variable {d : Dialogue} {path : String} {turn : Turn}

/-- Consulting a file loads it if it holds a program, and breaks the session if
it has a fault. -/
theorem Consulted.exists_loads (h : d.Consulted openFile path turn) (ready : d.mode = .ready) :
    turn.dialogue.mode = (openFile.fault? path).elim .ready .broken ∧
      ∃ loads, d.base.Loads openFile loads turn.dialogue.base ∧
        loads.map Prod.fst = [path].filter openFile.holdsProgram := by
  cases h with
  | loaded holds read =>
      have program := (OpenFile.holdsProgram_iff_of_text? holds d.base.vocabulary).mpr ⟨_, _, read⟩
      rw [OpenFile.fault?_of_text? holds, List.filter_cons_of_pos program]
      exact ⟨ready, _, .load .start holds read, rfl⟩
  | refused unopened =>
      have none : ¬ openFile.holdsProgram path := by
        simp [OpenFile.holdsProgram, OpenFile.text?, unopened]
      have sound : openFile.fault? path = .none := by
        simp [OpenFile.fault?, unopened]
      rw [sound, List.filter_cons_of_neg none]
      exact ⟨ready, [], .start, rfl⟩
  | @malformed text e v holds read =>
      have none : ¬ openFile.holdsProgram path := by
        rw [OpenFile.holdsProgram_iff_of_text? holds d.base.vocabulary]
        simp [read]
      have grown := d.base.vocabulary.grows_parseProgram text
      rw [read] at grown
      rw [OpenFile.fault?_of_text? holds, List.filter_cons_of_neg none]
      exact ⟨ready, [], .learn .start grown, rfl⟩
  | faulty fault =>
      have none : ¬ openFile.holdsProgram path := by
        simp [OpenFile.holdsProgram, OpenFile.text?_of_fault? fault]
      rw [fault, List.filter_cons_of_neg none]
      exact ⟨rfl, [], .start, rfl⟩

/-- Consulting several files loads those that hold a program, up to the first
fault, which breaks the session. -/
theorem exists_loads_consultAll (openFile : OpenFile) (ready : d.mode = .ready)
    (paths : List String) :
    (d.consultAll openFile paths).dialogue.mode =
        (paths.findSome? openFile.fault?).elim .ready .broken ∧
      ∃ loads, d.base.Loads openFile loads (d.consultAll openFile paths).dialogue.base ∧
        loads.map Prod.fst = (openFile.tried paths).filter openFile.holdsProgram := by
  induction paths generalizing d with
  | nil => exact ⟨ready, [], .start, rfl⟩
  | cons path paths ih =>
      obtain ⟨mode, loads, loaded, names⟩ :=
        (consulted_consult openFile d path).exists_loads ready
      rw [consultAll, List.findSome?_cons, OpenFile.tried]
      cases fault : openFile.fault? path with
      | some e =>
          rw [fault] at mode
          simp only [mode, Option.elim_some, Option.isSome_some, if_true]
          exact ⟨trivial, loads, loaded, names⟩
      | none =>
          rw [fault] at mode
          obtain ⟨mode', more, loaded', names'⟩ := ih mode
          simp only [mode, Option.elim_none, Option.isSome_none, Bool.false_eq_true, if_false]
          refine ⟨mode', loads ++ more, loaded.trans loaded', ?_⟩
          rw [List.map_append, names, names', ← List.filter_append, List.singleton_append]

end Dialogue

end Resolvent
