/-
# The same answers at the prompt and on the command line

On the command line a query is read as it stands and answered at one go. At the
prompt the line is trimmed before it is read, and the answers are pulled one by
one, each for the reply to the one before it. Still both show the same answers
in the same order, and both tell whether there are any.

What the two searches have in common is what is left of them when they are
muted. At the prompt a search is begun anew with every reply, since nothing of
what it has printed is kept, but muted it is the search that the last pull has
left.
-/

import Resolvent.CommandLine.Inquiry
import Resolvent.Console.Dialogue
import Resolvent.Proofs.Language.Trimming
import Resolvent.Proofs.Search.Telling

namespace Resolvent

/-! ### Reading the line -/

/-- A line that is neither a word that leaves, nor the one that lists, nor of a
form that consults. -/
structure Command.Ordinary (line : String) : Prop where
  not_word : String.ofList (body line.toList) ∉ ["halt", "quit", "exit", "listing"]
  not_consulting : consulted? (body line.toList) = none

/-- What the prompt takes away from a query makes no difference to it. -/
theorem Vocabulary.parseGoals_body {v v' : Vocabulary} {text : String} {goals : List Atom}
    (parsed : v.parseGoals text = (.ok goals, v')) :
    v.parseGoals (String.ofList (Command.body text.toList)) = (.ok goals, v') := by
  have stripped := parseGoals_strip parsed
  unfold Command.body
  dsimp only
  split
  · next stop =>
    have shorter := parseGoals_dropLast stripped (by rwa [String.toList_ofList])
    rw [String.toList_ofList] at shorter
    have both := parseGoals_strip shorter
    rwa [String.toList_ofList] at both
  · exact stripped

/-- An ordinary text is a query at the prompt. -/
theorem Command.Ordinary.ofLine {text : String} (ordinary : Command.Ordinary text)
    (some : Command.body text.toList ≠ []) :
    Command.ofLine text = .query (String.ofList (Command.body text.toList)) := by
  obtain ⟨not_word, not_consulting⟩ := ordinary
  simp only [List.mem_cons, List.not_mem_nil, or_false, not_or] at not_word
  obtain ⟨not_halt, not_quit, not_exit, not_listing⟩ := not_word
  unfold Command.ofLine
  dsimp only
  rw [if_neg some, if_neg (by simp [not_halt, not_quit, not_exit]), if_neg not_listing,
    not_consulting]

/-! ### Answering at one go -/

namespace CommandLine.Inquiry

/-- The inquiry is answered with what a request for so many answers gives. -/
theorem exists_taken_of_respond {i : Inquiry} {base : KnowledgeBase} {effort : Effort} {n : Nat}
    {goals : List Atom} {v : Vocabulary} {r : Response}
    (accepted : base.vocabulary.parseGoals i.text = (.ok goals, v))
    (many : i.maxAnswers = .atMost n) (unlimited : i.maxSteps = .unlimited)
    (returned : i.respond base effort none = .response r) :
    ∃ answers reason s, Search.Taken base.store none (some n)
        { query := .ofGoals goals i.verbose i.history, supply := v.supply } answers reason s ∧
      r = {
        printed := s.printed ++
          Text.lines (answers.map Answer.text ++ [closing answers reason s.query]) ++
          (if i.history then s.query.historyText else "")
        status := if answers.isEmpty then 1 else 0 } := by
  unfold respond at returned
  rw [accepted, many, unlimited] at returned
  dsimp only [Bound.limit?] at returned
  cases made : Search.takeAnswers base.store effort.moves effort.steps (some n) none
      { query := .ofGoals goals i.verbose i.history, supply := v.supply, patience := none } with
  | unfinished =>
      rw [made] at returned
      cases returned
  | interrupted s => exact absurd made (Search.takeAnswers_ne_interrupted rfl)
  | taken answers reason s =>
      rw [made] at returned
      cases returned
      exact ⟨answers, reason, s, Search.taken_of_takeAnswers made, rfl⟩

/-- The closing line is `false.` for a search that has come to its end without
an answer. -/
theorem closing_eq_false_iff {answers : List Answer} {reason : Reason} {q : Query} :
    closing answers reason q = "false." ↔ reason = .exhausted ∧ answers = [] := by
  cases reason with
  | exhausted => cases answers <;> simp [closing]
  | limitReached | budgetExceeded =>
      refine ⟨fun same => ?_, nofun⟩
      have letters := congrArg (·.toList.head?) same
      simp [closing] at letters

end CommandLine.Inquiry

/-! ### Showing answers one by one -/

/-- What is printed is this text, behind the reports of the steps if these are
asked for. -/
def Tells (verbose : Bool) (text printed : String) : Prop :=
  ∃ reports, (verbose = false → reports = "") ∧ printed = reports ++ text

namespace Dialogue

/-- The search that a session makes for the next answer of a query. -/
def search (d : Dialogue) (q : Query) : Search where
  query := q
  supply := d.base.vocabulary.supply
  patience := d.patience

/-- The inputs ask so many times for a further answer, and then for no more. -/
def Asks (more : Nat) (inputs : List Input) : Prop :=
  ∃ (wishes : List String) (last : Input), wishes.length = more ∧
    (∀ wish ∈ wishes, wantsMore wish) ∧ (∀ text, last = .line text → ¬ wantsMore text) ∧
    inputs = wishes.map Input.line ++ [last]

variable {effort : Effort} {d : Dialogue} {q : Query} {verbose : Bool} {answers : List Answer}
  {reason : Reason} {s : Search} {n : Nat} {inputs : List Input}

/-- Where a pull comes back, it shows the first of the answers, or that there
are none. -/
theorem showNext_cases (patient : d.patience = none) (quiet : verbose = false → q.verbose = false)
    (moved : (d.showNext effort q).dialogue.mode ≠ .stalled) :
    ∃ s', s'.patience = none ∧ (verbose = false → s'.Silent) ∧
      ((∃ answer, Search.Taken d.base.store none (some 1) (d.search q).muted [answer] .limitReached
          s'.muted ∧
        d.showNext effort q =
          ⟨s'.printed ++ answer.text ++ "\n", d.resume s' (.showing s'.query)⟩) ∨
      (Search.Taken d.base.store none (some 1) (d.search q).muted [] .exhausted s'.muted ∧
        d.showNext effort q = ⟨s'.printed ++ "false.\n", d.resume s' .ready⟩)) := by
  have request := Search.takeAnswers_one d.base.store effort.moves effort.steps (d.search q)
  have kept {s' : Search} (left : ((d.search q).nextAnswer d.base.store effort.moves
      effort.steps).search? = some s') : s'.patience = none ∧ (verbose = false → s'.Silent) :=
    ⟨Search.patience_nextAnswer left patient, fun unasked =>
      Search.Silent.nextAnswer ⟨quiet unasked, rfl⟩ left⟩
  cases pulled : (d.search q).nextAnswer d.base.store effort.moves effort.steps with
  | answer answer s' =>
      rw [pulled] at request
      obtain ⟨patient', silent⟩ := kept (by rw [pulled]; rfl)
      refine ⟨s', patient', silent, .inl ⟨answer, (Search.taken_of_takeAnswers request).muted, ?_⟩⟩
      unfold search at pulled
      simp only [showNext, pulled]
  | exhausted s' =>
      rw [pulled] at request
      obtain ⟨patient', silent⟩ := kept (by rw [pulled]; rfl)
      refine ⟨s', patient', silent, .inr ⟨(Search.taken_of_takeAnswers request).muted, ?_⟩⟩
      unfold search at pulled
      simp only [showNext, pulled]
  | interrupted s' => exact absurd pulled (Search.nextAnswer_ne_interrupted patient)
  | unfinished =>
      unfold search at pulled
      simp [showNext, pulled] at moved

/-- What the last turn shows: that no answer is left, or no more than the end
of a line. -/
def Closes (verbose : Bool) (n : Nat) (answers : List Answer) (reason : Reason) (last : Turn) :
    Prop :=
  reason = .exhausted ∧ Tells verbose "false.\n" last.printed ∨
    reason = .limitReached ∧ answers.length = n ∧ (last.printed = "" ∨ last.printed = "\n")

/-- Whatever does not ask for more brings the prompt back. -/
theorem reply_of_stop (effort : Effort) (d : Dialogue) (q : Query) {last : Input}
    (stops : ∀ text, last = .line text → ¬ wantsMore text) :
    ∃ printed, (printed = "" ∨ printed = "\n") ∧
      d.reply effort q last = ⟨printed, { d with mode := .ready }⟩ := by
  cases last with
  | line text => exact ⟨"", .inl rfl, if_neg (stops text rfl)⟩
  | endOfInput => exact ⟨"\n", .inr rfl, rfl⟩
  | interruption => exact ⟨"\n", .inr rfl, rfl⟩

/-- At the prompt there is nothing to reply to. -/
theorem replies_of_ready (ready : d.mode = .ready) : d.replies effort inputs = [] := by
  unfold replies
  rw [ready]

/-- The replies to the answers of a query lead to those answers that a request
for as many gives, one by one. -/
theorem replies_of_taken (showing : d.mode = .showing q) (patient : d.patience = none)
    (quiet : verbose = false → q.verbose = false) (asks : Asks n inputs)
    (moved : ∀ turn ∈ d.replies effort inputs, turn.dialogue.mode ≠ .stalled)
    (taken : Search.Taken d.base.store none (some n) (d.search q).muted answers reason s) :
    ∃ shown last, d.replies effort inputs = shown ++ [last] ∧
      List.Forall₂ (fun answer turn => Tells verbose (answer.text ++ "\n") turn.printed)
        answers shown ∧
      Closes verbose n answers reason last := by
  obtain ⟨wishes, stop, rfl, wanted, stops, rfl⟩ := asks
  induction wishes generalizing d q answers with
  | nil =>
      obtain ⟨printed, plain, turn⟩ := reply_of_stop effort d q stops
      obtain ⟨rfl, rfl, -⟩ := taken.unique (.stop rfl)
      refine ⟨[], ⟨printed, { d with mode := .ready }⟩, ?_, .nil, .inr ⟨rfl, rfl, plain⟩⟩
      simp [replies, showing, turn]
  | cons wish wishes ih =>
      obtain ⟨wished, others⟩ := List.forall_mem_cons.mp wanted
      have made : d.replies effort ((wish :: wishes).map Input.line ++ [stop]) =
          d.showNext effort q :: (d.showNext effort q).dialogue.replies effort
            (wishes.map Input.line ++ [stop]) := by
        simp [replies, showing, reply, wished]
      rw [made] at moved ⊢
      obtain ⟨first, later⟩ := List.forall_mem_cons.mp moved
      obtain ⟨s', patient', silent, shown | ended⟩ := showNext_cases patient quiet first
      · obtain ⟨answer, told, turn⟩ := shown
        rw [List.length_cons, Nat.add_comm] at taken
        obtain ⟨rest, rfl, taken'⟩ := taken.exists_rest told
        rw [turn] at later ⊢
        obtain ⟨shown, last, turns, each, closes⟩ := ih (d := d.resume s' (.showing s'.query))
          rfl patient' (fun unasked => (silent unasked).not_verbose) taken' others later
        refine ⟨_ :: shown, last, by rw [turns]; rfl, .cons ?_ each, ?_⟩
        · exact ⟨s'.printed, fun unasked => (silent unasked).nothing, String.append_assoc⟩
        · refine closes.imp_right fun ⟨limit, all, plain⟩ => ⟨limit, ?_, plain⟩
          rw [List.length_append, all, List.length_cons, Nat.add_comm]
          rfl
      · obtain ⟨told, turn⟩ := ended
        have nothing := (Search.taken_iff_of_lt Nat.one_pos).mp told
        obtain ⟨rfl, rfl, -⟩ := taken.unique ((Search.taken_iff_of_lt (Nat.succ_pos _)).mpr nothing)
        rw [turn, replies_of_ready rfl]
        exact ⟨[], _, rfl, .nil,
          .inl ⟨rfl, s'.printed, fun unasked => (silent unasked).nothing, rfl⟩⟩

/-- The session as if it had just shown an answer of a query, of which it has
made no step yet. -/
def asking (d : Dialogue) (goals : List Atom) (v : Vocabulary) : Dialogue :=
  { d with
    base := { d.base with vocabulary := v }
    mode := .showing (.ofGoals goals d.verbose false) }

/-- To ask a query is to wish for the next of its answers, of which none has
been shown. -/
theorem handle_eq_replies {openFile : OpenFile} {text : String} {goals : List Atom} {v : Vocabulary}
    (accepted : d.base.vocabulary.parseGoals text = (.ok goals, v))
    (ordinary : Command.Ordinary text) (ready : d.mode = .ready) :
    d.handle openFile effort text inputs =
      (d.asking goals v).replies effort (.line "" :: inputs) := by
  have read := Vocabulary.parseGoals_body accepted
  have some := Vocabulary.toList_ne_nil_of_parseGoals read
  rw [String.toList_ofList] at some
  have obeyed : d.receive openFile effort (.line text) = d.obey openFile effort (.ofLine text) := by
    simp only [receive, ready]
  rw [handle, obeyed, ordinary.ofLine some, obey, ask, read]
  rfl

open CommandLine

/-- The command line and the prompt show the same answers.

Let a query be asked for so many answers on the command line, and let it be
asked at the prompt, with a reply for each further one of them and then one
that stops. If both come back, then the same answers have been printed in the
same order, after what was reported about the search if that was asked for. The
prompt goes on from there to say that there are no more, or to take the reply
that stops. The status tells whether the prompt has shown an answer, and
`false` is printed at the end of no answers when the prompt says so at once. -/
theorem same_answers (openFile : OpenFile) (effort effort' : Effort) (d : Dialogue) (text : String)
    (n : Nat) (inputs : List Input) (verbose history : Bool) (goals : List Atom) (v : Vocabulary)
    (r : Response) (positive : 1 ≤ n)
    (accepted : d.base.vocabulary.parseGoals text = (.ok goals, v))
    (ordinary : Command.Ordinary text) (ready : d.mode = .ready) (patient : d.patience = none)
    (asks : Asks (n - 1) inputs)
    (returned : Inquiry.respond ⟨text, .atMost n, .unlimited, verbose, history⟩ d.base effort none =
      .response r)
    (handled : ∀ turn ∈ d.handle openFile effort' text inputs, turn.dialogue.mode ≠ .stalled) :
    ∃ (answers : List Answer) (reason : Reason) (s : Search) (shown : List Turn) (last : Turn),
      Search.Takes d.base.store (some n) none
        { query := .ofGoals goals verbose history, supply := v.supply } answers reason s ∧
      r.printed = s.printed ++
        Text.lines (answers.map Answer.text ++ [Inquiry.closing answers reason s.query]) ++
        (if history then s.query.historyText else "") ∧
      (verbose = false → s.printed = "") ∧
      d.handle openFile effort' text inputs = shown ++ [last] ∧
      List.Forall₂ (fun answer turn => Tells d.verbose (answer.text ++ "\n") turn.printed)
        answers shown ∧
      Closes d.verbose n answers reason last ∧
      (r.status = 0 ↔ shown ≠ []) ∧
      (Inquiry.closing answers reason s.query = "false." ↔
        shown = [] ∧ Tells d.verbose "false.\n" last.printed) := by
  obtain ⟨answers, reason, s, taken, rfl⟩ :=
    Inquiry.exists_taken_of_respond accepted rfl rfl returned
  obtain ⟨wishes, stop, many, wanted, stops, rfl⟩ := asks
  have asks : Asks n (.line "" :: (wishes.map Input.line ++ [stop])) :=
    ⟨"" :: wishes, stop, by rw [List.length_cons, many, Nat.sub_add_cancel positive],
      List.forall_mem_cons.mpr ⟨by decide, wanted⟩, stops, rfl⟩
  rw [handle_eq_replies accepted ordinary ready] at handled ⊢
  obtain ⟨shown, last, turns, each, closes⟩ :=
    replies_of_taken (d := d.asking goals v) rfl patient (fun quiet => quiet) asks handled
      taken.muted
  have none_shown : shown = [] ↔ answers = [] := by
    rw [← List.length_eq_zero_iff, ← each.length_eq, List.length_eq_zero_iff]
  have silent (unasked : verbose = false) : s.Silent := Search.Silent.taken ⟨unasked, rfl⟩ taken
  refine ⟨answers, reason, s, shown, last, Search.takes_iff_taken.mpr taken, rfl,
    fun unasked => (silent unasked).nothing, turns, each, closes, ?status, ?none⟩
  case status => cases answers <;> simp [none_shown]
  case none =>
    rw [Inquiry.closing_eq_false_iff, none_shown]
    constructor
    · rintro ⟨rfl, rfl⟩
      obtain ⟨-, told⟩ | ⟨limit, -⟩ := closes
      · exact ⟨rfl, told⟩
      · cases limit
    · rintro ⟨rfl, -⟩
      obtain ⟨exhausted, -⟩ | ⟨-, all, -⟩ := closes
      · exact ⟨exhausted, rfl⟩
      · exact absurd all (Nat.ne_of_lt positive)

/-- The text ends with a comment, and this with a full stop. -/
theorem same_answers_commented :
    let p : Predicate := ⟨0, "p"⟩
    let base : KnowledgeBase :=
      ⟨⟨[⟨p, [.const ⟨1, "a"⟩]⟩, ⟨p, [.const ⟨2, "b"⟩]⟩], []⟩,
        ⟨[⟨1, "a"⟩, ⟨2, "b"⟩], [], [p], ⟨3⟩⟩⟩
    let d : Dialogue := { base }
    let openFile : OpenFile := fun path => .error (.refused ⟨.notFound, path⟩)
    let text := "?- p(X) % of both."
    let inputs : List Input := [.line ";", .line " ", .line "stop"]
    Inquiry.respond ⟨text, .atMost 3, .unlimited, false, false⟩ base ⟨5, 9⟩ none =
      .response { printed := "X -> a\nX -> b\nno more answers.\n", status := 0 } ∧
    (d.handle openFile ⟨5, 9⟩ text inputs).map Turn.printed = ["X -> a\n", "X -> b\n", "false.\n"] ∧
    ∃ (answers : List Answer) (shown : List Turn) (last : Turn),
      d.handle openFile ⟨5, 9⟩ text inputs = shown ++ [last] ∧
      List.Forall₂ (fun answer turn => Tells false (answer.text ++ "\n") turn.printed)
        answers shown ∧
      shown ≠ [] := by
  intro p base d openFile text inputs
  have returned : Inquiry.respond ⟨text, .atMost 3, .unlimited, false, false⟩ base ⟨5, 9⟩ none =
      .response { printed := "X -> a\nX -> b\nno more answers.\n", status := 0 } := by
    decide +kernel
  have printed : (d.handle openFile ⟨5, 9⟩ text inputs).map Turn.printed =
      ["X -> a\n", "X -> b\n", "false.\n"] := by decide +kernel
  have accepted : (base.vocabulary.parseGoals text).1 =
      .ok [⟨p, [.var ⟨3, "X"⟩]⟩] := by decide +kernel
  have going : ∀ turn ∈ d.handle openFile ⟨5, 9⟩ text inputs, turn.dialogue.goesOn := by
    decide +kernel
  have ordinary : Command.Ordinary text := ⟨by decide +kernel, by decide +kernel⟩
  have asks : Asks (3 - 1) inputs :=
    ⟨[";", " "], .line "stop", rfl, by decide, by simp; decide, rfl⟩
  obtain ⟨answers, _, _, shown, last, _, _, _, turns, each, _, status, _⟩ :=
    same_answers openFile ⟨5, 9⟩ ⟨5, 9⟩ d text 3 inputs false false _ _ _ (by decide)
      (Prod.ext accepted rfl) ordinary rfl rfl asks returned
      (fun turn there stalled => by simpa [goesOn, stalled] using going turn there)
  exact ⟨returned, printed, answers, shown, last, turns, each, status.mp rfl⟩

end Dialogue

end Resolvent
