/-
# The account of a search

A search counts its steps and its answers, and records the goals that it
resolves if it is asked to. The visits of a run tell all of this once more, and
they tell how many items wait: one has been there from the start, every visit
takes one away, and adds as many as it has made. That is an equation of counts
after any number of steps, so the log can be written down from the visits
alone, and it is shown that the search writes the same.

A step that finds the queue empty is no visit and counts for nothing. That is
why the number of steps that a query tells is the number of visits, which may
be less than the length of the run.
-/

import Resolvent.Proofs.Search.MoreClauses

namespace Resolvent

namespace Visit

/-- Whether a candidate was visited that gave no answer. -/
def isDiscarded (visit : Visit) : Bool :=
  visit.item.goals.isEmpty && visit.answer?.isNone

/-- The entry that a visit calls for, if there was a goal to resolve. -/
def entry? (visit : Visit) (step waiting : Nat) : Option Expansion :=
  visit.item.goals.head?.map fun goal => ⟨step, goal, visit.added, waiting⟩

end Visit

namespace Query

/-- The number of items that wait after some visits: the first item and all
that were added, without those that were visited. -/
def waitingAfter (visits : List Visit) : Nat :=
  1 + (visits.map Visit.added).sum - visits.length

/-- The log that visits call for. The steps are numbered from one, by the
visits made in them. -/
def log (visits : List Visit) : List Expansion :=
  (visits.zipIdx 1).filterMap fun (visit, n) => visit.entry? n (waitingAfter (visits.take n))

/-- A visit adds at most one entry to the log, at its end. -/
theorem log_concat (visits : List Visit) (visit : Visit) :
    log (visits ++ [visit]) = log visits ++
      (visit.entry? (visits.length + 1) (waitingAfter (visits ++ [visit]))).toList := by
  rw [log, List.zipIdx_append, List.filterMap_append]
  congr 1
  · refine List.filterMap_congr fun ⟨v, n⟩ numbered => ?_
    have early : n ≤ visits.length := by
      have := List.snd_lt_of_mem_zipIdx numbered
      omega
    dsimp only
    rw [List.take_append_of_le_length early]
  · have whole : (visits ++ [visit]).take (1 + visits.length) = visits ++ [visit] :=
      List.take_of_length_le (by simp [Nat.add_comm])
    rw [List.zipIdx_singleton, List.filterMap_cons, List.filterMap_nil]
    dsimp only
    rw [whole, Nat.add_comm 1]
    cases visit.entry? (visits.length + 1) (waitingAfter (visits ++ [visit])) <;> rfl

/-- There are as many entries as visits to items with goals left. -/
theorem length_log (visits : List Visit) :
    (log visits).length = visits.countP fun visit => !visit.item.goals.isEmpty := by
  induction visits using List.reverseRecOn with
  | nil => rfl
  | append_singleton visits visit ih =>
      obtain ⟨⟨goals, bindings⟩, event⟩ := visit
      rw [log_concat, List.length_append, List.countP_append, ih]
      cases goals <;> rfl

/-- The log tells of all items that have been added, if candidates add none. -/
theorem sum_produced_log {visits : List Visit}
    (candidates : ∀ visit ∈ visits, visit.item.goals = [] → visit.added = 0) :
    ((log visits).map Expansion.produced).sum = (visits.map Visit.added).sum := by
  induction visits using List.reverseRecOn with
  | nil => rfl
  | append_singleton visits visit ih =>
      rw [List.forall_mem_append, List.forall_mem_singleton] at candidates
      obtain ⟨before, last⟩ := candidates
      rw [log_concat, List.map_append, List.sum_append, List.map_append, List.sum_append, ih before]
      obtain ⟨⟨goals, bindings⟩, event⟩ := visit
      cases goals with
      | nil => simp [Visit.entry?, last rfl]
      | cons goal deferred => simp [Visit.entry?]

/-- A visit has given an answer, or was made to a candidate in vain, or to a
goal. -/
theorem length_eq_countP {visits : List Visit}
    (goals : ∀ visit ∈ visits, visit.item.goals ≠ [] → visit.answer? = none) :
    visits.countP (·.answer?.isSome) + visits.countP Visit.isDiscarded +
      visits.countP (fun visit => !visit.item.goals.isEmpty) = visits.length := by
  induction visits with
  | nil => rfl
  | cons visit visits ih =>
      obtain ⟨first, others⟩ := List.forall_mem_cons.mp goals
      simp only [List.countP_cons, List.length_cons, ← ih others]
      cases answer : visit.answer? <;> cases waiting : visit.item.goals <;>
        simp_all [Visit.isDiscarded] <;> omega

variable {store : Store} {goals : List Atom} {start q q' : Query}
  {given given' supply after : Supply} {verbose recording : Bool} {k : Nat} {visits : List Visit}
  {event : Event}

/-- What a step does to the queue. -/
theorem Stepped.exists_queue (step : q.Stepped store supply event q' after) {item : PartialProof}
    {rest : List PartialProof} (front : q.queue.toList = item :: rest) :
    ∃ more, q'.queue.toList = rest ++ more ∧ more.length = event.successors := by
  have left : ∃ more, q'.queue.toList = rest ++ more := by
    cases step with
    | idle empty => simp [front] at empty
    | answered head | discarded head =>
        rw [front, List.cons.injEq] at head
        exact ⟨[], by rw [List.append_nil, head.2]⟩
    | expanded head made =>
        rw [front, List.cons.injEq] at head
        exact ⟨_, by rw [Queue.toList_pushAll, head.2]⟩
  obtain ⟨more, left⟩ := left
  exact ⟨more, left, (step.successors_eq front left).symm⟩

/-- The counters and the log of a query agree with the visits it has made. -/
structure Accounts (visits : List Visit) (q : Query) : Prop where
  steps : q.steps = visits.length
  answers : q.answers = visits.countP (·.answer?.isSome)
  waiting : 1 + (visits.map Visit.added).sum = visits.length + q.queue.size
  history : q.recording → q.history.toList = log visits

/-- The counters of a new query are those before any visit. -/
theorem accounts_ofGoals (goals : List Atom) (verbose recording : Bool) :
    (ofGoals goals verbose recording).Accounts [] where
  steps := rfl
  answers := rfl
  waiting := rfl
  history _ := rfl

/-- What has been added and not yet visited is what waits. -/
theorem size_eq_waitingAfter (waiting : 1 + (visits.map Visit.added).sum =
    visits.length + q.queue.size) : q.queue.size = waitingAfter visits := by
  unfold waitingAfter
  omega

/-- A step that visits an item accounts for it. -/
theorem Accounts.visit (h : q.Accounts visits) (step : q.Stepped store supply event q' after)
    (visit : Visit) {rest : List PartialProof} (front : q.queue.toList = visit.item :: rest)
    (came : visit.event = event) : q'.Accounts (visits ++ [visit]) := by
  subst came
  obtain ⟨more, left, added⟩ := step.exists_queue front
  have waiting : 1 + ((visits ++ [visit]).map Visit.added).sum =
      (visits ++ [visit]).length + q'.queue.size := by
    have before := h.waiting
    rw [Queue.size_eq_length, front, List.length_cons] at before
    rw [List.map_append, List.sum_append, Queue.size_eq_length, left, List.length_append,
      List.length_append, added]
    simp only [List.map_cons, List.map_nil, List.sum_singleton, List.length_singleton, Visit.added]
    omega
  obtain ⟨item, event⟩ := visit
  cases step with
  | idle empty => simp [front] at empty
  | answered head | discarded head =>
      obtain ⟨rfl, _⟩ := List.cons.inj (head.symm.trans front)
      refine ⟨by simp [h.steps], by simp [h.answers, Visit.answer?, Event.answer?], waiting,
        fun recording => ?_⟩
      rw [log_concat, h.history recording]
      exact (List.append_nil _).symm
  | expanded head =>
      obtain ⟨rfl, _⟩ := List.cons.inj (head.symm.trans front)
      refine ⟨by simp [h.steps], by simp [h.answers, Visit.answer?, Event.answer?], waiting,
        fun recording => ?_⟩
      have recording : q.recording = true := recording
      have size := size_eq_waitingAfter waiting
      dsimp only at size
      rw [log_concat, ← size]
      simp [recording, h.history recording, h.steps, Visit.entry?, Visit.added, Event.successors]

namespace Run

/-- A run keeps its accounts. -/
theorem accounts (run : Run store (ofGoals goals verbose recording) given k visits q supply) :
    q.Accounts visits := by
  induction run with
  | nil => exact accounts_ofGoals goals verbose recording
  | @step k moves visits q q' event supply drawn after prior later made ih =>
      have step := stepped_of_step made
      cases front : q.queue.toList with
      | nil =>
          rw [step_of_empty front] at made
          cases made
          rwa [List.head?_nil, Option.toList_none, List.map_nil, List.append_nil]
      | cons item rest => exact ih.visit step ⟨item, event⟩ front rfl

/-- A query goes on recording the goals that it resolves, or not, as it was
asked to. -/
theorem recording_eq (run : Run store start given k visits q supply) :
    q.recording = start.recording := by
  induction run with
  | nil => rfl
  | step _ _ made ih =>
      rw [← ih]
      cases stepped_of_step made <;> rfl

/-- Only a goal that is resolved adds to the queue, and it gives no answer. -/
theorem added_eq_zero (run : Run store start given k visits q supply) :
    ∀ visit ∈ visits, visit.item.goals = [] → visit.added = 0 := by
  rintro ⟨item, event⟩ made candidate
  cases run.outcome _ made with
  | answered | discarded => rfl
  | expanded => cases candidate

/-- Nothing is answered by a visit to an item with goals left. -/
theorem answer?_eq_none (run : Run store start given k visits q supply) :
    ∀ visit ∈ visits, visit.item.goals ≠ [] → visit.answer? = none := by
  rintro ⟨item, event⟩ made goal
  cases run.outcome _ made with
  | answered | discarded => exact absurd rfl goal
  | expanded => rfl

/-- Every visit of a run was made by a step of it, which took the oldest item
of the queue. -/
theorem exists_step (run : Run store start given k visits q supply) {n : Nat} {visit : Visit}
    (there : visits[n]? = some visit) :
    ∃ (i j : Nat) (before after : Query) (between later : Supply) (rest : List PartialProof),
      Run store start given i (visits.take n) before between ∧
      before.queue.toList = visit.item :: rest ∧
      (∃ drawn, before.Stepped store drawn visit.event after later) ∧
      Run store start given (i + 1) (visits.take (n + 1)) after later ∧
      Run store after later j (visits.drop (n + 1)) q supply := by
  induction run with
  | nil => simp at there
  | @step k moves visits q q' event supply drawn after prior later made ih =>
      by_cases early : n < visits.length
      · rw [List.getElem?_append_left early] at there
        obtain ⟨i, j, before, next, between, then_, rest, first, front, stepped, second, others⟩ :=
          ih there
        refine ⟨i, j + 1, before, next, between, then_, rest, ?_, front, stepped, ?_, ?_⟩
        · rwa [List.take_append_of_le_length (Nat.le_of_lt early)]
        · rwa [List.take_append_of_le_length early]
        · rw [List.drop_append_of_le_length early]
          exact others.step later made
      · rw [List.getElem?_append_right (Nat.le_of_not_lt early)] at there
        cases front : q.queue.toList with
        | nil => simp [front] at there
        | cons item rest =>
            have last : n = visits.length ∧ visit = ⟨item, event⟩ := by
              have within := (List.getElem?_eq_some_iff.mp there).1
              simp only [front, List.head?_cons, Option.toList_some, List.map_cons, List.map_nil,
                List.length_singleton] at within there
              obtain rfl : n = visits.length := by omega
              simpa [eq_comm] using there
            obtain ⟨rfl, rfl⟩ := last
            have next := prior.step later made
            rw [front] at next
            refine ⟨k, 0, q, q', supply, after, rest, ?_, front, ⟨drawn, stepped_of_step made⟩,
              ?_, ?_⟩
            · rwa [List.take_left]
            · rwa [List.take_of_length_le (by simp)]
            · simpa using Run.nil

/-- Two runs for the same goals are in lockstep after as many steps, whatever
others draw. -/
theorem lockstep {visits' : List Visit} {supply' : Supply} {verbose' recording' : Bool}
    (known : given.Knows store goals) (known' : given'.Knows store goals)
    (run : Run store (ofGoals goals verbose recording) given k visits q supply)
    (run' : Run store (ofGoals goals verbose' recording') given' k visits' q' supply') :
    visits'.map Visit.answer? = visits.map Visit.answer? ∧ Lockstep supply supply' q q' ∧
      given.next ≤ supply.next ∧ given'.next ≤ supply'.next := by
  induction run generalizing visits' q' supply' with
  | nil =>
      cases run' with
      | nil => exact ⟨rfl, lockstep_ofGoals known known' .., Nat.le_refl _, Nat.le_refl _⟩
  | @step k moves visits q q₁ event supply drawn after prior later made ih =>
      cases run' with
      | @step _ moves' visits' q' q₁' event' supply' drawn' after' prior' later' made' =>
          obtain ⟨answers, lockstep, grown, grown'⟩ := ih prior'
          have grown := Nat.le_trans grown later
          have grown' := Nat.le_trans grown' later'
          have steps := (lockstep.mono later later').step (.refl store) (known.mono grown).of_goals
            (known'.mono grown').of_goals (max moves moves')
          rw [step_of_le (Nat.le_max_left ..) made, step_of_le (Nat.le_max_right ..) made'] at steps
          cases steps with
          | some next =>
              refine ⟨?_, next.lockstep, Nat.le_trans grown next.grows,
                Nat.le_trans grown' next.grows'⟩
              rw [List.map_append, List.map_append, answers, List.map_map, List.map_map]
              exact congrArg (_ ++ ·) (lockstep.map_visits next.answer)

/-- The history of a recording search accounts for every item of its queue.
There is an entry for each visit to an item with a goal, in the order of the
visits, with the number of the step, the number of items it added, and the
number of items that waited then. Each visit was made by a step of the run, to
the oldest item, and left behind it the others and as many new ones as the log
says. All items that ever were in the queue have been visited or wait in it.
Every step has given an answer, or discarded a candidate, or made an entry. And
a search that neither records nor reports makes as many steps, with whatever
supply, and then any such search has given the same answers and has the same
items in its queue, up to the identity of fresh variables. -/
theorem accounted (known : given.Knows store goals)
    (run : Run store (ofGoals goals verbose true) given k visits q supply) :
    (q.history.toList = log visits ∧ ∀ n visit, visits[n]? = some visit →
      ∃ (i j : Nat) (before after : Query) (between later : Supply) (rest more : List PartialProof),
        Run store (ofGoals goals verbose true) given i (visits.take n) before between ∧
        before.queue.toList = visit.item :: rest ∧
        Run store (ofGoals goals verbose true) given (i + 1) (visits.take (n + 1)) after later ∧
        after.queue.toList = rest ++ more ∧ visit.added = more.length ∧ after.steps = n + 1 ∧
        after.queue.size = waitingAfter (visits.take (n + 1)) ∧
        Run store after later j (visits.drop (n + 1)) q supply) ∧
    1 + (q.history.toList.map Expansion.produced).sum = q.steps + q.queue.size ∧
    q.answers + visits.countP Visit.isDiscarded + q.history.size = q.steps ∧
    ∀ given' : Supply, given'.Knows store goals →
      (∃ visits' q' supply', Run store (ofGoals goals false false) given' k visits' q' supply') ∧
      ∀ visits' q' supply', Run store (ofGoals goals false false) given' k visits' q' supply' →
        visits'.map Visit.answer? = visits.map Visit.answer? ∧ q'.answers = q.answers ∧
        q'.steps = q.steps ∧ List.Forall₂ (PartialProof.Alike (ofGoals goals false false).vars
          supply supply') q.queue.toList q'.queue.toList := by
  have accounts := run.accounts
  have history := accounts.history run.recording_eq
  refine ⟨⟨history, fun n visit there => ?step⟩, ?conserved, ?counted,
    fun given' known' => ⟨?made, ?same⟩⟩
  case step =>
    obtain ⟨i, j, before, after, between, later, rest, first, front, ⟨_, stepped⟩, second,
      others⟩ := run.exists_step there
    obtain ⟨more, left, added⟩ := stepped.exists_queue front
    have counts := second.accounts
    have length : (visits.take (n + 1)).length = n + 1 :=
      List.length_take_of_le (List.getElem?_eq_some_iff.mp there).1
    exact ⟨i, j, before, after, between, later, rest, more, first, front, second, left, added.symm,
      counts.steps.trans length, size_eq_waitingAfter counts.waiting, others⟩
  case conserved =>
    rw [history, sum_produced_log run.added_eq_zero, accounts.waiting, accounts.steps]
  case counted =>
    rw [← Array.length_toList, history, length_log, accounts.answers, accounts.steps,
      length_eq_countP run.answer?_eq_none]
  case made =>
    obtain ⟨visits', q', supply', again, _⟩ := run.exists_again known known' false false
    exact ⟨visits', q', supply', again⟩
  case same =>
    intro visits' q' supply' run'
    obtain ⟨answers, lockstep, _⟩ := lockstep known known' run run'
    have given_alike : visits'.countP (·.answer?.isSome) = visits.countP (·.answer?.isSome) := by
      simpa [List.countP_map, Function.comp_def] using congrArg (List.countP Option.isSome) answers
    refine ⟨answers, ?_, lockstep.steps, run.vars_eq ▸ lockstep.waiting⟩
    rw [run'.accounts.answers, accounts.answers, given_alike]

/-- The program `p(a). p(X).` is asked for `p(Y)`. One of two candidates is an
answer, the other one is discarded, and a fourth step finds nothing to do. -/
theorem accounted_open :
    let store : Store := ⟨[⟨⟨3, "p"⟩, [.const Tiny.a]⟩, ⟨⟨3, "p"⟩, [.var Tiny.x]⟩], []⟩
    let goal : Atom := ⟨⟨3, "p"⟩, [.var Tiny.y]⟩
    ∃ visits q after, Run store (ofGoals [goal] true true) Tiny.supply 4 visits q after ∧
      q.history.toList = log visits ∧ q.history.toList = [⟨1, goal, 2, 2⟩] ∧
      1 + 2 = q.steps + q.queue.size ∧ 1 + visits.countP Visit.isDiscarded + 1 = q.steps ∧
      ∃ visits' q' after', Run store (ofGoals [goal] false false) ⟨9⟩ 4 visits' q' after' ∧
        visits'.map Visit.answer? = visits.map Visit.answer? ∧ q'.answers = 1 := by
  intro store goal
  have known : Tiny.supply.Knows store [goal] := by
    apply Supply.Knows.of_vars <;> decide
  have start : Run store (ofGoals [goal] true true) Tiny.supply 0 [] _ _ := .nil
  have first := start.step (Nat.le_refl _) (show Query.step _ _ 1 _ = some ⟨_, _, _⟩ from rfl)
  have second := first.step (Nat.le_refl _) (show Query.step _ _ 0 _ = some ⟨_, _, _⟩ from rfl)
  have third := second.step (Nat.le_refl _) (show Query.step _ _ 0 _ = some ⟨_, _, _⟩ from rfl)
  have fourth := third.step (Nat.le_refl _) (show Query.step _ _ 0 _ = some ⟨_, _, _⟩ from rfl)
  obtain ⟨⟨history, _⟩, conserved, counted, muted⟩ := fourth.accounted known
  obtain ⟨⟨visits', q', after', again⟩, same⟩ := muted ⟨9⟩ (known.mono (by decide))
  obtain ⟨answers, number, _⟩ := same _ _ _ again
  exact ⟨_, _, _, fourth, history, rfl, conserved, counted, visits', q', after', again, answers,
    number⟩

end Run

end Query

end Resolvent
