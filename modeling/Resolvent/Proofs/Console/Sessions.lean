/-
# What a session knows

A session goes on for as long as its user likes: lines are read, answers asked
for or left alone, files consulted that are there or not, searches interrupted.
Some inputs end it, and whoever runs it may go on with it after that, also if a
file has broken it. Of all this the store shows only which programs have been
consulted. It is the one from the start with the clauses of these behind it,
file by file and each with all of them.

Every text is read with the one vocabulary of the session, be it a program or a
query, accepted or refused. That vocabulary grows and nothing else, so what a
name stands for in a clause is what it will stand for in any query that
follows.
-/

import Resolvent.Proofs.Console.Consulting
import Resolvent.Proofs.Programs.Lines
import Resolvent.Proofs.Search.Telling

namespace Resolvent

namespace KnowledgeBase.Loads

variable {openFile : OpenFile} {start base : KnowledgeBase} {loads : List (String × List Clause)}

/-- The vocabulary grows with what is loaded. -/
theorem grows (h : start.Loads openFile loads base) : start.vocabulary.Grows base.vocabulary := by
  induction h with
  | start => exact .refl _
  | learn _ grown ih => exact ih.trans grown
  | @load loads base path text clauses v _ _ read ih =>
      have grown := base.vocabulary.grows_parseProgram text
      rw [read] at grown
      exact ih.trans grown

/-- The store holds what it held, and behind it all that has been loaded. -/
theorem store_eq (h : start.Loads openFile loads base) :
    base.store = start.store.extend (loads.flatMap Prod.snd) := by
  induction h with
  | start => rfl
  | learn _ _ ih => exact ih
  | load _ _ _ ih => simp [ih, Store.extend]

/-- Each program has been read from its file, by the vocabulary as it was
then. -/
theorem read (h : start.Loads openFile loads base) :
    ∀ load ∈ loads, ∃ text v v', openFile.text? load.1 = some text ∧ start.vocabulary.Grows v ∧
      v.parseProgram text = (.ok load.2, v') ∧ v'.Grows base.vocabulary := by
  induction h with
  | start => exact List.forall_mem_nil _
  | learn _ grown ih =>
      intro load loaded
      obtain ⟨text, v, v', holds, before, read, after⟩ := ih load loaded
      exact ⟨text, v, v', holds, before, read, after.trans grown⟩
  | @load loads base path text clauses v prior holds read ih =>
      have grown := base.vocabulary.grows_parseProgram text
      rw [read] at grown
      intro load loaded
      rcases List.mem_append.mp loaded with old | new
      · obtain ⟨text, v, v', holds, before, read, after⟩ := ih load old
        exact ⟨text, v, v', holds, before, read, after.trans grown⟩
      · rw [List.mem_singleton.mp new]
        exact ⟨text, base.vocabulary, v, holds, prior.grows, read, .refl v⟩

/-- All that has been loaded is written with the symbols of the vocabulary. -/
theorem over_alphabet (h : start.Loads openFile loads base) :
    ∀ c ∈ loads.flatMap Prod.snd, c.Over base.vocabulary.alphabet := by
  intro c hc
  obtain ⟨load, loaded, hc⟩ := List.mem_flatMap.mp hc
  obtain ⟨_, _, v', _, _, read, after⟩ := h.read load loaded
  exact ((Vocabulary.legible_of_parseProgram read c hc).fits).mono after.alphabet_within

end KnowledgeBase.Loads

namespace Dialogue

variable (openFile : OpenFile) (effort : Effort)

/-- The session, made to wait for a command again if it has ended. -/
def awake (d : Dialogue) : Dialogue :=
  match d.mode with
  | .over | .broken _ => { d with mode := .ready }
  | .ready | .showing _ | .stalled => d

/-- The session after inputs of any kind. -/
def after : Dialogue → List Input → Dialogue
  | d, [] => d
  | d, input :: inputs => after (d.awake.receive openFile effort input).dialogue inputs

/-- The paths that a session consults on an input. -/
def consults (d : Dialogue) (input : Input) : List String :=
  match d.mode, input with
  | .ready, .line text =>
    match Command.ofLine text with
    | .consult paths => openFile.tried paths
    | .nothing | .leave | .list | .query _ => []
  | _, _ => []

/-- The paths that a session consults in the course of inputs. -/
def consulted : Dialogue → List Input → List String
  | _, [] => []
  | d, input :: inputs =>
    d.awake.consults openFile input ++
      consulted (d.awake.receive openFile effort input).dialogue inputs

variable {openFile : OpenFile} {effort : Effort} {d : Dialogue}

open KnowledgeBase

/-- Showing an answer draws from the supply, and does nothing else to the
knowledge base. -/
theorem loads_showNext (d : Dialogue) (q : Query) :
    d.base.Loads openFile [] (d.showNext effort q).dialogue.base := by
  have resumed {s : Search} {mode : Mode} (drawn : d.base.vocabulary.supply.next ≤ s.supply.next) :
      d.base.Loads openFile [] (d.resume s mode).base :=
    .learn .start ⟨List.prefix_rfl, List.prefix_rfl, List.prefix_rfl, drawn⟩
  let search : Search :=
    { query := q, supply := d.base.vocabulary.supply, patience := d.patience }
  have pulled {s : Search}
      (left : (search.nextAnswer d.base.store effort.moves effort.steps).search? = some s) :
      d.base.vocabulary.supply.next ≤ s.supply.next :=
    Search.next_le_nextAnswer left
  unfold showNext
  dsimp only
  split
  · next found => exact resumed (pulled (by rw [found]; rfl))
  · next ended => exact resumed (pulled (by rw [ended]; rfl))
  · next interrupted => exact resumed (pulled (by rw [interrupted]; rfl))
  · exact .start

/-- A query loads nothing, though its names are learned. -/
theorem loads_ask (d : Dialogue) (text : String) :
    d.base.Loads openFile [] (d.ask effort text).dialogue.base := by
  have grown := d.base.vocabulary.grows_parseGoals text
  unfold ask
  cases parsed : d.base.vocabulary.parseGoals text with
  | mk outcome v =>
      rw [parsed] at grown
      have learnt : d.base.Loads openFile [] { d.base with vocabulary := v } := .learn .start grown
      cases outcome with
      | error e => exact learnt
      | ok goals =>
          let learner : Dialogue := { d with base := { d.base with vocabulary := v } }
          exact learnt.trans (loads_showNext learner (.ofGoals goals d.verbose false))

/-- What an input loads are the programs at the paths that it consults.
Queries, replies, listings and the end of the session load nothing. -/
theorem exists_loads_receive (openFile : OpenFile) (effort : Effort) (d : Dialogue)
    (input : Input) :
    ∃ loads, d.base.Loads openFile loads (d.receive openFile effort input).dialogue.base ∧
      loads.map Prod.fst = (d.consults openFile input).filter openFile.holdsProgram := by
  match mode : d.mode, input with
  | .ready, .line text =>
    simp only [receive, consults, mode]
    cases Command.ofLine text with
    | nothing => exact ⟨[], .start, rfl⟩
    | leave => exact ⟨[], .start, rfl⟩
    | list => exact ⟨[], .start, rfl⟩
    | consult paths => exact (exists_loads_consultAll openFile mode paths).2
    | query text => exact ⟨[], loads_ask d text, rfl⟩
  | .ready, .endOfInput | .ready, .interruption | .over, _ | .broken _, _ | .stalled, _ =>
    simp only [receive, consults, mode]
    exact ⟨[], .start, rfl⟩
  | .showing q, input =>
    refine ⟨[], ?_, by simp [consults, mode]⟩
    simp only [receive, mode]
    cases input with
    | line text =>
        simp only [reply]
        split
        · exact loads_showNext d q
        · exact .start
    | endOfInput => exact .start
    | interruption => exact .start

/-- To wake a dialogue up changes nothing in what it knows. -/
theorem awake_base (d : Dialogue) : d.awake.base = d.base := by
  unfold awake
  split <;> rfl

/-- Over a whole session the programs are loaded that have been consulted, in
that order. -/
theorem exists_loads_after (openFile : OpenFile) (effort : Effort) (d : Dialogue)
    (inputs : List Input) :
    ∃ loads, d.base.Loads openFile loads (d.after openFile effort inputs).base ∧
      loads.map Prod.fst = (d.consulted openFile effort inputs).filter openFile.holdsProgram := by
  induction inputs generalizing d with
  | nil => exact ⟨[], .start, rfl⟩
  | cons input inputs ih =>
      obtain ⟨loads, loaded, names⟩ := exists_loads_receive openFile effort d.awake input
      obtain ⟨more, loaded', names'⟩ := ih (d.awake.receive openFile effort input).dialogue
      rw [awake_base] at loaded
      refine ⟨loads ++ more, loaded.trans loaded', ?_⟩
      rw [List.map_append, names, names', consulted, List.filter_append]

/-! ### Turns -/

/-- A dialogue that waits is awake. -/
theorem awake_of_waiting (waiting : d.prompt?.isSome) : d.awake = d := by
  unfold prompt? at waiting
  unfold awake
  split at waiting <;> simp_all

/-- In a session that is carried on by itself, each turn leads to what the
inputs up to it lead to. -/
theorem dialogue_of_converse {inputs : List Input} {i : Nat} {turn : Turn}
    (there : (d.converse openFile effort inputs)[i]? = some turn) :
    turn.dialogue = d.after openFile effort (inputs.take (i + 1)) := by
  induction inputs generalizing d i with
  | nil => simp [converse] at there
  | cons input inputs ih =>
      cases waits : d.prompt? with
      | none => simp [converse, waits] at there
      | some prompt =>
          have same : d.awake = d := awake_of_waiting (by rw [waits]; rfl)
          simp only [converse, waits] at there
          rw [List.take_succ_cons, after, same]
          cases i with
          | zero =>
              cases there
              rfl
          | succ i => exact ih there

/-- After some replies the dialogue is where these inputs lead, with the end of
the input behind them. -/
theorem dialogue_of_replies {inputs : List Input} {i : Nat} {turn : Turn}
    (there : (d.replies effort inputs)[i]? = some turn) :
    turn.dialogue = d.after openFile effort ((inputs ++ [Input.endOfInput]).take (i + 1)) := by
  induction inputs generalizing d i with
  | nil =>
      match mode : d.mode with
      | .showing q =>
        unfold replies at there
        simp only [mode] at there
        cases i with
        | zero =>
            cases there
            simp [after, awake, receive, mode]
        | succ i => simp at there
      | .ready | .over | .broken _ | .stalled => simp [replies, mode] at there
  | cons input inputs ih =>
      match mode : d.mode with
      | .showing q =>
        unfold replies at there
        simp only [mode] at there
        have received : (d.awake.receive openFile effort input) = d.reply effort q input := by
          simp [awake, receive, mode]
        rw [List.cons_append, List.take_succ_cons, after, received]
        cases i with
        | zero =>
            cases there
            rfl
        | succ i => exact ih there
      | .ready | .over | .broken _ | .stalled => simp [replies, mode] at there

/-- So it is with a line that is handled together with the replies to its
answers. -/
theorem dialogue_of_handle {line : String} {inputs : List Input} {i : Nat} {turn : Turn}
    (there : (d.awake.handle openFile effort line inputs)[i]? = some turn) :
    turn.dialogue = d.after openFile effort
      ((Input.line line :: inputs ++ [Input.endOfInput]).take (i + 1)) := by
  cases i with
  | zero =>
      cases there
      rfl
  | succ i =>
      exact dialogue_of_replies (d := (d.awake.receive openFile effort (.line line)).dialogue) there

/-- Inputs may be taken one part after the other. -/
theorem after_append (d : Dialogue) (front back : List Input) :
    d.after openFile effort (front ++ back) =
      (d.after openFile effort front).after openFile effort back := by
  induction front generalizing d with
  | nil => rfl
  | cons input front ih => exact ih _

/-- Whatever a session is given, its store is what it was at the start, and
behind it the clauses of those consulted files that hold a program: of each of
them all clauses, in the order in which the files have been consulted. Any
query that is accepted then is written with the same symbols as these clauses,
so that a name means the same in both.

These are the states of a session that is carried on by itself, and of one that
a host carries on line by line, also after it has ended or broken. -/
theorem store_of_session (openFile : OpenFile) (effort : Effort) (start : Dialogue)
    (inputs : List Input) :
    let final := start.after openFile effort inputs
    (∃ loads : List (String × List Clause),
      loads.map Prod.fst =
        (start.consulted openFile effort inputs).filter openFile.holdsProgram ∧
      final.base.store = start.base.store.extend (loads.flatMap Prod.snd) ∧
      ∀ load ∈ loads, ∃ text v v', openFile.text? load.1 = some text ∧
        start.base.vocabulary.Grows v ∧ v.parseProgram text = (.ok load.2, v') ∧
        v'.Grows final.base.vocabulary) ∧
    (∀ text goals v, final.base.vocabulary.parseGoals text = (.ok goals, v) →
      (∀ a ∈ goals, a.Over v.alphabet) ∧
      (∀ c ∈ final.base.store.clauses,
        (c ∈ start.base.store.clauses → c.Over start.base.vocabulary.alphabet) →
          c.Over v.alphabet) ∧
      ∀ role : SymbolRole, Set.InjOn Symbol.name {s : Symbol role | v.Knows s}) ∧
    (∀ (i : Nat) (turn : Turn), (start.run openFile effort inputs)[i]? = some turn →
      turn.dialogue = start.after openFile effort
        ((inputs ++ [Input.endOfInput, .endOfInput]).take (i + 1))) ∧
    ∀ (line : String) (replies : List Input) (i : Nat) (turn : Turn),
      (final.awake.handle openFile effort line replies)[i]? = some turn →
        turn.dialogue = start.after openFile effort
          (inputs ++ (Input.line line :: replies ++ [Input.endOfInput]).take (i + 1)) := by
  intro final
  obtain ⟨loads, loaded, names⟩ :=
    exists_loads_after openFile effort start inputs
  refine ⟨⟨loads, names, loaded.store_eq, loaded.read⟩, ?query, ?run, ?handle⟩
  case query =>
    intro text goals v read
    have grown := final.base.vocabulary.grows_parseGoals text
    rw [read] at grown
    refine ⟨(Vocabulary.legible_of_parseGoals read).2.1, fun c stored known => ?_,
      fun role s hs s' hs' same => Vocabulary.eq_of_knows hs hs' same⟩
    rw [loaded.store_eq, Store.mem_clauses_extend] at stored
    rcases stored with old | new
    · exact (known old).mono (loaded.grows.trans grown).alphabet_within
    · exact (loaded.over_alphabet c new).mono grown.alphabet_within
  case run => exact fun i turn there => dialogue_of_converse there
  case handle =>
    intro line replies i turn there
    rw [after_append]
    exact dialogue_of_handle there

/-- The first line consults a file that is malformed behind its first clause, a
program, no file, and bytes that are no text. That breaks the session, which
goes on with a query and with the program once more. -/
theorem store_of_session_broken :
    let openFile : OpenFile := fun path =>
      if path = "g" then .ok [114, 40, 98, 41, 46]
      else if path = "m" then .ok [112, 46, 32, 113, 40]
      else if path = "b" then .ok [233]
      else .error (.refused ⟨.notFound, path⟩)
    let start : Dialogue := { base := {} }
    let inputs : List Input :=
      [.line "['m', g, n, b, g].", .line "r(X).", .line ";", .line "consult(g)."]
    let final := start.after openFile ⟨5, 5⟩ inputs
    let fact : Atom := ⟨⟨2, "r"⟩, [.const ⟨3, "b"⟩]⟩
    final.base.store = ⟨[fact, fact], []⟩ ∧
    (∃ loads : List (String × List Clause), loads.map Prod.fst = ["g", "g"] ∧
      final.base.store = Store.extend {} (loads.flatMap Prod.snd)) ∧
    (∃ goals v, final.base.vocabulary.parseGoals "r(X)" = (.ok goals, v) ∧
      (∀ a ∈ goals, a.Over v.alphabet) ∧ (Clause.fact fact).Over v.alphabet) ∧
    (∃ turn, (start.run openFile ⟨5, 5⟩ inputs)[0]? = some turn ∧
      turn.dialogue = start.after openFile ⟨5, 5⟩ [.line "['m', g, n, b, g]."]) ∧
    ∃ turn, (final.awake.handle openFile ⟨5, 5⟩ "quit" [])[0]? = some turn ∧
      turn.dialogue = start.after openFile ⟨5, 5⟩ (inputs ++ [.line "quit"]) := by
  intro openFile start inputs final fact
  obtain ⟨⟨loads, names, stored, _⟩, query, run, handle⟩ :=
    store_of_session openFile ⟨5, 5⟩ start inputs
  have programs : (start.consulted openFile ⟨5, 5⟩ inputs).filter openFile.holdsProgram =
      ["g", "g"] := by decide +kernel
  have facts : final.base.store = ⟨[fact, fact], []⟩ := by decide +kernel
  have accepted : (final.base.vocabulary.parseGoals "r(X)").1 =
      .ok [⟨⟨2, "r"⟩, [.var ⟨5, "X"⟩]⟩] := by decide +kernel
  have read : final.base.vocabulary.parseGoals "r(X)" = (.ok _, _) := Prod.ext accepted rfl
  obtain ⟨fits, kept, _⟩ := query _ _ _ read
  refine ⟨facts, ⟨loads, names.trans programs, stored⟩, ⟨_, _, read, fits, ?_⟩,
    ⟨_, rfl, run 0 _ rfl⟩, ⟨_, rfl, handle "quit" [] 0 _ rfl⟩⟩
  refine kept _ ?_ fun none => absurd none List.not_mem_nil
  rw [facts]
  exact List.mem_cons_self

end Dialogue

end Resolvent
