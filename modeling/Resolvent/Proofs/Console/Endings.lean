/-
# How a session ends

It ends when it is told to, or at the prompt when the input ends or is
interrupted. It was to end in no other way. Of a file that cannot be read, or
is no program, the user is told, and then the session goes on with the next
one. That holds for what the file system refuses and for what the grammar
refuses. Two things are refused by neither, a path with the null character in
it and bytes that are no text, and each of them breaks the session without a
word.

These are all the faults there are because a text may be nested as deeply as it
likes: the readings here have a stack without a bound. A host that limits how
many calls are open at a time gives up on a text that is nested more deeply,
and the session ends with it. That limit is the host's own and not part of the
model.

Searches are a matter of their own. One that is given up for lack of effort
leaves the session stalled, where with more effort it would go on or never come
back.
-/

import Resolvent.Files.Tree
import Resolvent.Proofs.Console.Consulting

namespace Resolvent.Dialogue

/-- Whether an input ends the session by being what it is. -/
def leaves (d : Dialogue) (input : Input) : Bool :=
  match d.mode, input with
  | .ready, .line text => Command.ofLine text = .leave
  | .ready, .endOfInput | .ready, .interruption => true
  | _, _ => false

/-- What the first fault is among the files that an input makes a session
consult. -/
def fault? (openFile : OpenFile) (d : Dialogue) (input : Input) : Option LoadError :=
  match d.mode, input with
  | .ready, .line text =>
    match Command.ofLine text with
    | .consult paths => paths.findSome? openFile.fault?
    | .nothing | .leave | .list | .query _ => none
  | _, _ => none

/-- What the user is told of a path without a fault. -/
inductive Reports (openFile : OpenFile) (path : String) : String → Prop
  /-- All clauses, each with its kind. -/
  | added {text : String} {clauses : List Clause} {v v' : Vocabulary}
      (holds : openFile.text? path = some text)
      (read : v.parseProgram text = (.ok clauses, v')) :
      Reports openFile path (Text.lines (clauses.map fun c => c.kindName ++ " added: " ++ c.text))
  /-- Why the file system refuses it. -/
  | refused {e : FileError} (unopened : openFile (Path.simplest path) = .error (.refused e)) :
      Reports openFile path ("cannot read " ++ path ++ ": " ++ e.cause.text ++ "\n")
  /-- Why it is no program. -/
  | malformed {text : String} {e : ParseError} {v v' : Vocabulary}
      (holds : openFile.text? path = some text)
      (read : v.parseProgram text = (.error e, v')) :
      Reports openFile path ("syntax error in " ++ path ++ ": " ++ e.message ++ "\n")

variable {openFile : OpenFile} {effort : Effort} {d : Dialogue} {input : Input}
  {paths : List String}

/-- A path without a fault leaves the three ways of telling the user about
it. -/
theorem Consulted.reports {path : String} {turn : Turn} (h : d.Consulted openFile path turn)
    (sound : openFile.fault? path = none) : Reports openFile path turn.printed := by
  cases h with
  | loaded holds read => exact .added holds read
  | refused unopened => exact .refused unopened
  | malformed holds read => exact .malformed holds read
  | faulty fault => exact absurd (sound.symm.trans fault) (Option.some_ne_none _).symm

/-- Where no file has a fault the user is told of all of them, one by one. -/
theorem exists_reports_consultAll (ready : d.mode = .ready)
    (sound : ∀ path ∈ paths, openFile.fault? path = none) :
    ∃ reports, (d.consultAll openFile paths).printed = String.join reports ∧
      List.Forall₂ (Reports openFile) paths reports := by
  induction paths generalizing d with
  | nil => exact ⟨[], rfl, .nil⟩
  | cons path paths ih =>
      obtain ⟨here, others⟩ := List.forall_mem_cons.mp sound
      have consulted := consulted_consult openFile d path
      obtain ⟨mode, _⟩ := consulted.exists_loads ready
      rw [here, Option.elim_none] at mode
      obtain ⟨reports, printed, each⟩ := ih mode others
      refine ⟨_ :: reports, ?_, .cons (consulted.reports here) each⟩
      simp only [consultAll, mode, String.join_cons, printed]

/-! ### Modes -/

/-- The session has not ended, though a search may have been given up. -/
def Mode.Open (m : Mode) : Prop :=
  m ≠ .over ∧ ∀ e, m ≠ .broken e

/-- To show an answer, or that there are no more, is no way to end. -/
theorem open_showNext (d : Dialogue) (q : Query) : (d.showNext effort q).dialogue.mode.Open := by
  unfold showNext
  dsimp only
  split <;> exact ⟨nofun, nofun⟩

/-- A query that cannot be read is as little a reason to end as one that
can. -/
theorem open_ask (ready : d.mode = .ready) (text : String) :
    (d.ask effort text).dialogue.mode.Open := by
  unfold ask
  cases d.base.vocabulary.parseGoals text with
  | mk outcome v =>
      cases outcome with
      | error e => exact ready ▸ ⟨nofun, nofun⟩
      | ok goals => exact open_showNext _ _

/-- Whatever is replied to an answer, the dialogue goes back to the prompt or
on with the search. -/
theorem open_reply (q : Query) (input : Input) : (d.reply effort q input).dialogue.mode.Open := by
  cases input with
  | line text =>
      simp only [reply]
      split
      · exact open_showNext d q
      · exact ⟨nofun, nofun⟩
  | endOfInput => exact ⟨nofun, nofun⟩
  | interruption => exact ⟨nofun, nofun⟩

/-- A session that waits is over or broken after an input for one of two
reasons, and they exclude each other. -/
theorem mode_receive (openFile : OpenFile) (effort : Effort) (d : Dialogue) (input : Input)
    (waits : d.goesOn) :
    ((d.receive openFile effort input).dialogue.mode = .over ↔ d.leaves input) ∧
      ∀ e, (d.receive openFile effort input).dialogue.mode = .broken e ↔
        d.fault? openFile input = some e := by
  have going {m : Mode} (h : m.Open) : (m = .over ↔ false = true) ∧
      ∀ e, m = .broken e ↔ Option.none = some e :=
    ⟨iff_of_false h.1 Bool.false_ne_true, fun e => iff_of_false (h.2 e) nofun⟩
  match mode : d.mode, input with
  | .showing q, input =>
    simpa only [receive, leaves, fault?, mode] using going (open_reply q input)
  | .ready, .endOfInput | .ready, .interruption =>
    simp [receive, leaves, fault?, mode]
  | .ready, .line text =>
    simp only [receive, leaves, fault?, mode]
    cases command : Command.ofLine text with
    | nothing => simpa [obey] using going (mode ▸ ⟨nofun, nofun⟩)
    | leave => simp [obey]
    | list => simpa [obey] using going (mode ▸ ⟨nofun, nofun⟩)
    | query text => simpa [obey] using going (open_ask mode text)
    | consult paths =>
        obtain ⟨ended, _⟩ := exists_loads_consultAll openFile mode paths
        simp only [obey, ended]
        cases paths.findSome? openFile.fault? <;> simp
  | .over, _ | .broken _, _ | .stalled, _ => simp [goesOn, mode] at waits

/-! ### Whole sessions -/

/-- A dialogue prompts exactly while it goes on. -/
theorem isSome_prompt? (d : Dialogue) : d.prompt?.isSome = d.goesOn := by
  unfold prompt? goesOn
  cases d.mode <;> rfl

/-- A dialogue that waits takes an input and goes on from what that has made of
it. -/
theorem converse_of_waiting (waits : d.goesOn) (inputs : List Input) :
    d.converse openFile effort (input :: inputs) =
      d.receive openFile effort input ::
        (d.receive openFile effort input).dialogue.converse openFile effort inputs := by
  obtain ⟨prompt, prompted⟩ := Option.isSome_iff_exists.mp (d.isSome_prompt?.trans waits)
  simp only [converse, prompted]

/-- No input is taken from a dialogue that has ended. -/
theorem converse_of_ended (ended : ¬ d.goesOn) (inputs : List Input) :
    d.converse openFile effort inputs = [] := by
  have unprompted : d.prompt? = none := by
    rw [← isSome_prompt?] at ended
    simpa using ended
  cases inputs with
  | nil => rfl
  | cons input inputs => simp only [converse, unprompted]

/-- The turn ends the session in one of three ways, each for a reason of its
own. -/
def Ends (openFile : OpenFile) (before : Dialogue) (input : Input) (turn : Turn) : Prop :=
  turn.dialogue.mode = .over ∧ before.leaves input ∨
    (∃ e, turn.dialogue.mode = .broken e ∧ before.fault? openFile input = some e) ∨
    turn.dialogue.mode = .stalled

/-- If a dialogue does not go on after an input then there is a reason. -/
theorem ends_of_not_goesOn (waits : d.goesOn)
    (ended : ¬ (d.receive openFile effort input).dialogue.goesOn) :
    d.Ends openFile input (d.receive openFile effort input) := by
  obtain ⟨leaves, breaks⟩ := mode_receive openFile effort d input waits
  unfold Ends
  match mode : (d.receive openFile effort input).dialogue.mode with
  | .ready | .showing _ => simp [goesOn, mode] at ended
  | .over => exact .inl ⟨rfl, leaves.mp mode⟩
  | .broken e => exact .inr (.inl ⟨e, rfl, (breaks e).mp mode⟩)
  | .stalled => exact .inr (.inr rfl)

/-- Where a session leaves inputs behind, its last turn is one that ends it. -/
theorem exists_ends_of_converse (waits : d.goesOn) {inputs : List Input}
    (few : (d.converse openFile effort inputs).length < inputs.length) :
    ∃ (before : Dialogue) (input : Input) (turn : Turn) (front : List Turn),
      d.converse openFile effort inputs = front ++ [turn] ∧
      inputs[front.length]? = some input ∧
      (d :: front.map Turn.dialogue).getLast? = some before ∧
      turn = before.receive openFile effort input ∧ before.Ends openFile input turn := by
  induction inputs generalizing d with
  | nil => exact absurd few (Nat.lt_irrefl 0)
  | cons input inputs ih =>
      rw [converse_of_waiting waits] at few ⊢
      by_cases on : (d.receive openFile effort input).dialogue.goesOn
      · obtain ⟨before, later, turn, front, turns, there, last, received, ends⟩ :=
          ih on (Nat.lt_of_succ_lt_succ few)
        refine ⟨before, later, turn, _ :: front, by rw [turns]; rfl, there, ?_, received, ends⟩
        rw [List.map_cons, List.getLast?_cons_cons]
        exact last
      · rw [converse_of_ended on]
        exact ⟨d, input, _, [], rfl, rfl, rfl, rfl, ends_of_not_goesOn waits on⟩

/-- A session that waits is over after an input only if it is told to leave, or
if the input ends or is interrupted at the prompt. It breaks only if a file
that it consults has a fault. If none of them has, it goes on, and has told the
user what became of each. So a session that is carried on by itself leaves
inputs behind only after a turn that has one of these reasons, or a search that
is given up. A host's own limit on how deeply a text may be nested is not among
the reasons, as no reading of the model has one. -/
theorem ends_only_by_faults (openFile : OpenFile) (effort : Effort) (d : Dialogue)
    (waits : d.goesOn) :
    (∀ input, let turn := d.receive openFile effort input
      (turn.dialogue.mode = .over ↔ d.leaves input) ∧
      (∀ e, turn.dialogue.mode = .broken e ↔ d.fault? openFile input = some e) ∧
      ∀ line paths, d.mode = .ready → input = .line line → Command.ofLine line = .consult paths →
        (∀ path ∈ paths, openFile.fault? path = none) →
        turn.dialogue.mode = .ready ∧ ∃ reports, turn.printed = String.join reports ∧
          List.Forall₂ (Reports openFile) paths reports) ∧
    ∀ inputs, (d.converse openFile effort inputs).length < inputs.length →
      ∃ (before : Dialogue) (input : Input) (turn : Turn) (front : List Turn),
        d.converse openFile effort inputs = front ++ [turn] ∧
        inputs[front.length]? = some input ∧
        (d :: front.map Turn.dialogue).getLast? = some before ∧
        turn = before.receive openFile effort input ∧ before.Ends openFile input turn := by
  refine ⟨fun input => ?step, fun inputs few => exists_ends_of_converse waits few⟩
  case step =>
    intro turn
    obtain ⟨leaves, breaks⟩ := mode_receive openFile effort d input waits
    refine ⟨leaves, breaks, ?_⟩
    rintro line paths ready rfl command sound
    have consulted : turn = d.consultAll openFile paths := by
      simp only [turn, receive, ready, command, obey]
    have none : paths.findSome? openFile.fault? = none := List.findSome?_eq_none_iff.mpr sound
    rw [consulted]
    refine ⟨?_, exists_reports_consultAll ready sound⟩
    rw [(exists_loads_consultAll openFile ready paths).1, none, Option.elim_none]

/-- The first of two files is not there. The user is told so, and then the
second one is loaded. The next line is the last one that is read. -/
theorem ends_only_by_faults_missing :
    let tree := FileTree.ofFiles [("a.pl", [112, 46])]
    let d : Dialogue := { base := {} }
    let turn := d.receive tree.read ⟨0, 0⟩ (.line "['b.pl', 'a.pl'].")
    d.goesOn ∧ turn.dialogue.mode = .ready ∧
      turn.printed = "cannot read b.pl: No such file or directory\nfact added: p\n" ∧
      ∃ (before : Dialogue) (turn : Turn), before.Ends tree.read (.line "halt.") turn := by
  intro tree d turn
  have command : Command.ofLine "['b.pl', 'a.pl']." = .consult ["b.pl", "a.pl"] := by
    decide +kernel
  have sound : ∀ path ∈ ["b.pl", "a.pl"], (OpenFile.fault? tree.read path).isNone := by
    decide +kernel
  obtain ⟨step, session⟩ := ends_only_by_faults tree.read ⟨0, 0⟩ d rfl
  obtain ⟨_, _, told⟩ := step (.line "['b.pl', 'a.pl'].")
  have reported :=
    told _ _ rfl rfl command fun path hp => Option.isNone_iff_eq_none.mp (sound path hp)
  let inputs : List Input := [.line "['b.pl', 'a.pl'].", .line "halt.", .line "p."]
  have two : (d.converse tree.read ⟨0, 0⟩ inputs).length = 2 := by decide +kernel
  obtain ⟨before, input, last, front, turns, there, _, _, ends⟩ := session inputs (two ▸ by decide)
  have one : front.length = 1 := by simpa [turns] using two
  rw [one] at there
  obtain rfl := Option.some.inj there
  exact ⟨rfl, reported.1, by decide +kernel, before, last, ends⟩

/-- The byte `e9` begins a character that does not come to its end, and a path
with the null character leads nowhere. Consulting them breaks a session that
was to report them and go on. -/
theorem breaks_at_bytes_and_paths :
    let tree := FileTree.ofFiles [("a.pl", [233])]
    let d : Dialogue := { base := {} }
    let turn := d.receive tree.read ⟨0, 0⟩ (.line "['a.pl'].")
    let turn' := d.receive tree.read ⟨0, 0⟩ (.line "['a\x00.pl'].")
    (turn.printed = "" ∧ turn.dialogue.goesOn = false) ∧
      turn'.printed = "" ∧ turn'.dialogue.goesOn = false := by
  decide +kernel

end Resolvent.Dialogue
