/-
# Requests go on where the last one stopped

A request for several answers makes steps until it has a reason to stop, and
gives the answers of these steps. Nothing of it is remembered but the query:
the next request goes on with the steps that would have been made anyway. So
two requests are one larger request, and pulling the answers one by one gives
the same ones.

The two bounds of a request are not alike. The limit counts the answers of this
request and the budget all steps of the query, and the limit is looked at
first. That is why a further request has to ask for one answer at least: asked
for none, an exhausted query reports the limit.
-/

import Resolvent.Proofs.Search.Budget

namespace Resolvent

namespace Event

/-- A step gives one answer at most. -/
theorem length_answers_le (event : Event) : event.answers.length ≤ 1 := by
  cases event <;> simp [answers]

end Event

/-- What a pull gives: an answer, or the news that there is none. -/
def Pull.told : Pull → Option (Option Answer × Search)
  | .answer found s => some (some found, s)
  | .exhausted s => some (none, s)
  | .interrupted _ | .unfinished => none

namespace Search

variable {store : Store} {s s' s'' : Search} {limit budget : Option Nat} {answers : List Answer}
  {reason : Reason} {moves steps : Nat} {event : Event}

/-! ### Steps -/

/-- The search makes some steps, of which each is given as many moves as it
needs. -/
inductive Steps (store : Store) : Search → List Event → Search → Prop
  | nil (s : Search) : Steps store s [] s
  | cons {s s' s'' : Search} {moves : Nat} {event : Event} {events : List Event}
      (made : s.step store moves = .stepped event s') (rest : Steps store s' events s'') :
      Steps store s (event :: events) s''

/-- What is behind a step, whether or not an interruption is to come. -/
theorem query_step_of_stepped (made : s.step store moves = .stepped event s') :
    s.query.step store moves s.supply = some ⟨event, s'.query, s'.supply⟩ := by
  unfold step at made
  split at made
  · cases made
  · split at made
    · cases made
    · next out =>
      cases made
      exact out

/-- With more moves a step is the same. -/
theorem step_of_le {more : Nat} (h : moves ≤ more) (made : s.step store moves = .stepped event s') :
    s.step store more = .stepped event s' := by
  have same : s.query.step store more s.supply = s.query.step store moves s.supply := by
    rw [query_step_of_stepped made]
    exact Query.step_of_le h (query_step_of_stepped made)
  rw [← made]
  unfold step
  rw [same]

/-- There is no choice in what a step does. -/
theorem step_unique {more : Nat} {event' : Event} (made : s.step store moves = .stepped event s')
    (again : s.step store more = .stepped event' s'') : event = event' ∧ s' = s'' := by
  have first := step_of_le (Nat.le_max_left moves more) made
  have second := step_of_le (Nat.le_max_right moves more) again
  exact Pulse.stepped.inj (first.symm.trans second)

/-- A step that has something to do is counted. -/
theorem steps_of_stepped (waiting : ¬ s.query.isExhausted)
    (made : s.step store moves = .stepped event s') :
    s'.query.steps = s.query.steps + 1 :=
  steps_moved waiting (query_step_of_stepped made)

/-! ### Requests without bounds on the effort -/

/-- The request comes back with these answers and for this reason, if it is
given enough moves and enough steps. -/
def Takes (store : Store) (limit budget : Option Nat) (s : Search) (answers : List Answer)
    (reason : Reason) (s' : Search) : Prop :=
  ∃ moves steps, takeAnswers store moves steps limit budget s = .taken answers reason s'

/-- The course of a request that comes back, step by step. -/
inductive Taken (store : Store) (budget : Option Nat) :
    Option Nat → Search → List Answer → Reason → Search → Prop
  | stop {limit : Option Nat} {s : Search} {reason : Reason}
      (stopped : s.stopReason? limit budget = some reason) :
      Taken store budget limit s [] reason s
  | step {limit : Option Nat} {s s' s'' : Search} {moves : Nat} {event : Event}
      {answers : List Answer} {reason : Reason} (go_on : s.stopReason? limit budget = none)
      (made : s.step store moves = .stepped event s')
      (rest : Taken store budget (limit.map (· - event.answers.length)) s' answers reason s'') :
      Taken store budget limit s (event.answers ++ answers) reason s''

/-- What is taken with some effort is taken. -/
theorem taken_of_takeAnswers
    (taken : takeAnswers store moves steps limit budget s = .taken answers reason s') :
    Taken store budget limit s answers reason s' := by
  induction steps generalizing limit s answers with
  | zero =>
      cases stopped : s.stopReason? limit budget with
      | some why =>
          rw [takeAnswers_of_stop stopped] at taken
          cases taken
          exact .stop stopped
      | none =>
          unfold takeAnswers at taken
          simp [stopped] at taken
  | succ steps ih =>
      cases stopped : s.stopReason? limit budget with
      | some why =>
          rw [takeAnswers_of_stop stopped] at taken
          cases taken
          exact .stop stopped
      | none =>
          cases made : s.step store moves with
          | interrupted later =>
              unfold takeAnswers at taken
              simp [stopped, made] at taken
          | unfinished =>
              unfold takeAnswers at taken
              simp [stopped, made] at taken
          | stepped event later =>
              rw [takeAnswers_of_step stopped made] at taken
              cases rest : takeAnswers store moves steps (limit.map (· - event.answers.length))
                  budget later with
              | taken others why last =>
                  rw [rest, Taking.following, Taking.taken.injEq] at taken
                  obtain ⟨rfl, rfl, rfl⟩ := taken
                  exact .step stopped made (ih rest)
              | interrupted last => simp [rest, Taking.following] at taken
              | unfinished => simp [rest, Taking.following] at taken

/-- Enough moves and enough steps are still enough if there are more of
them. -/
theorem Taken.exists_effort (h : Taken store budget limit s answers reason s') :
    ∃ moves steps, ∀ more further, moves ≤ more → steps ≤ further →
      takeAnswers store more further limit budget s = .taken answers reason s' := by
  induction h with
  | stop stopped => exact ⟨0, 0, fun _ _ _ _ => takeAnswers_of_stop stopped⟩
  | @step limit s s' s'' few event answers reason go_on made _ ih =>
      obtain ⟨moves, steps, enough⟩ := ih
      refine ⟨max few moves, steps + 1, fun more further le le' => ?_⟩
      obtain ⟨further, rfl⟩ : ∃ k, further = k + 1 := ⟨further - 1, by omega⟩
      rw [takeAnswers_of_step go_on (step_of_le (by omega) made),
        enough more further (by omega) (by omega), Taking.following]

/-- To be taken with some effort or without speaking of effort is the same. -/
theorem takes_iff_taken :
    s.Takes store limit budget answers reason s' ↔
      Taken store budget limit s answers reason s' := by
  constructor
  · rintro ⟨moves, steps, taken⟩
    exact taken_of_takeAnswers taken
  · intro h
    obtain ⟨moves, steps, enough⟩ := h.exists_effort
    exact ⟨moves, steps, enough moves steps (Nat.le_refl _) (Nat.le_refl _)⟩

/-- A request that comes back does so in one way. -/
theorem Taken.unique {answers' : List Answer} {reason' : Reason}
    (h : Taken store budget limit s answers reason s')
    (h' : Taken store budget limit s answers' reason' s'') :
    answers = answers' ∧ reason = reason' ∧ s' = s'' := by
  obtain ⟨moves, steps, enough⟩ := h.exists_effort
  obtain ⟨moves', steps', enough'⟩ := h'.exists_effort
  have first := enough (max moves moves') (max steps steps') (Nat.le_max_left _ _)
    (Nat.le_max_left _ _)
  have second := enough' (max moves moves') (max steps steps') (Nat.le_max_right _ _)
    (Nat.le_max_right _ _)
  exact Taking.taken.inj (first.symm.trans second)

/-! ### Where a request stops -/

/-- The reason to stop when so many answers have been given, if there is one:
enough answers, no partial proof left, or enough steps. They are considered in
this order. -/
def reason? (limit budget : Option Nat) (given : Nat) (q : Query) : Option Reason :=
  if limit.any (· ≤ given) then some .limitReached
  else if q.isExhausted then some .exhausted
  else if budget.any (· ≤ q.steps) then some .budgetExceeded
  else none

/-- A request that has still to give some answers has as much reason to stop as
one that was to give more and has given some. -/
theorem stopReason?_map_sub (s : Search) (limit budget : Option Nat) (given : Nat) :
    s.stopReason? (limit.map (· - given)) budget = reason? limit budget given s.query := by
  have same : limit.map (· - given) = some 0 ↔ limit.any (· ≤ given) := by
    cases limit <;> simp [Nat.sub_eq_zero_iff_le]
  simp only [stopReason?, reason?, same]

/-- A search stops for the reason that its query gives. -/
theorem stopReason?_eq (s : Search) (limit budget : Option Nat) :
    s.stopReason? limit budget = reason? limit budget 0 s.query := by
  rw [← stopReason?_map_sub]
  cases limit <;> rfl

/-- A request that is in part fulfilled is one for the rest. -/
theorem reason?_map_sub (limit budget : Option Nat) (given more : Nat) (q : Query) :
    reason? (limit.map (· - given)) budget more q = reason? limit budget (given + more) q := by
  have same : (limit.map (· - given)).any (· ≤ more) = limit.any (· ≤ given + more) := by
    cases limit <;> simp [Nat.add_comm]
  simp only [reason?, same]

/-- Steps after which there is a reason to stop, and before each of which there
was none. -/
structure StopsAfter (store : Store) (limit budget : Option Nat) (s : Search)
    (events : List Event) (reason : Reason) (s' : Search) : Prop where
  made : s.Steps store events s'
  stops : reason? limit budget (events.flatMap Event.answers).length s'.query = some reason
  goes_on : ∀ front event rest, events = front ++ event :: rest →
    ∃ between, s.Steps store front between ∧
      reason? limit budget (front.flatMap Event.answers).length between.query = none

/-- Limits are the same if they give the same reasons as long as no more
answers are given. -/
theorem StopsAfter.congr {limit' : Option Nat} {events : List Event}
    (h : s.StopsAfter store limit budget events reason s')
    (same : ∀ given ≤ (events.flatMap Event.answers).length, ∀ q,
      reason? limit budget given q = reason? limit' budget given q) :
    s.StopsAfter store limit' budget events reason s' := by
  refine ⟨h.made, (same _ (Nat.le_refl _) _).symm.trans h.stops, ?_⟩
  intro front event rest whole
  obtain ⟨between, made, none⟩ := h.goes_on front event rest whole
  exact ⟨between, made, (same _ (by simp [whole]) _).symm.trans none⟩

/-- A request stops after the first of its steps after which there is a reason
to. -/
theorem taken_iff_stopsAfter :
    Taken store budget limit s answers reason s' ↔
      ∃ events, answers = events.flatMap Event.answers ∧
        s.StopsAfter store limit budget events reason s' := by
  constructor
  · intro h
    induction h with
    | @stop limit s reason stopped =>
        rw [stopReason?_eq] at stopped
        exact ⟨[], rfl, .nil s, stopped, by simp⟩
    | @step limit s s' s'' moves event answers reason go_on made _ ih =>
        obtain ⟨events, rfl, later, stops, goes_on⟩ := ih
        refine ⟨event :: events, rfl, .cons made later, ?_, ?_⟩
        · rw [reason?_map_sub] at stops
          simpa using stops
        · intro front last rest same
          cases front with
          | nil => exact ⟨s, .nil s, by rw [← go_on, stopReason?_eq]; rfl⟩
          | cons first front =>
              obtain ⟨rfl, others⟩ := List.cons.inj same
              obtain ⟨between, before, none⟩ := goes_on front last rest others
              rw [reason?_map_sub] at none
              exact ⟨between, .cons made before, by simpa using none⟩
  · rintro ⟨events, rfl, made, stops, goes_on⟩
    induction made generalizing limit with
    | nil s => exact .stop ((stopReason?_eq s limit budget).trans stops)
    | @cons s s' s'' moves event events made _ ih =>
        refine .step ?_ made (ih ?_ ?_)
        · obtain ⟨between, before, none⟩ := goes_on [] event events rfl
          cases before
          exact (stopReason?_eq s limit budget).trans none
        · rw [reason?_map_sub]
          simpa using stops
        · intro front last rest same
          obtain ⟨between, before, none⟩ := goes_on (event :: front) last rest (by rw [same]; rfl)
          cases before with
          | cons again before =>
              obtain ⟨-, rfl⟩ := step_unique made again
              refine ⟨between, before, ?_⟩
              rw [reason?_map_sub]
              simpa using none

/-! ### The bounds -/

/-- A search goes on as long as something is wanted, something waits and the
budget lasts. -/
theorem stopReason?_eq_none_iff :
    s.stopReason? limit budget = none ↔
      limit ≠ some 0 ∧ ¬ s.query.isExhausted ∧ ∀ n ∈ budget, s.query.steps < n := by
  unfold stopReason?
  by_cases enough : limit = some 0
  · simp [enough]
  · by_cases exhausted : s.query.isExhausted
    · simp [enough, exhausted]
    · cases budget <;> simp [enough, exhausted]

/-- No step is made beyond the budget. -/
theorem Taken.steps_le {n : Nat} (h : Taken store (some n) limit s answers reason s') :
    s'.query.steps ≤ max n s.query.steps := by
  generalize bounded : some n = budget at h
  induction h with
  | stop => exact Nat.le_max_right _ _
  | step go_on made _ ih =>
      subst bounded
      obtain ⟨-, waiting, under⟩ := stopReason?_eq_none_iff.mp go_on
      have counted := steps_of_stepped waiting made
      have before := under n rfl
      omega

/-- No answer is given beyond the limit, and as many as that if the limit is
the reason. -/
theorem Taken.length_le {n : Nat} (h : Taken store budget (some n) s answers reason s') :
    answers.length ≤ n ∧ (reason = .limitReached → answers.length = n) := by
  generalize bounded : some n = limit at h
  induction h generalizing n with
  | @stop limit s reason stopped =>
      subst bounded
      refine ⟨Nat.zero_le _, ?_⟩
      rintro rfl
      unfold stopReason? at stopped
      split at stopped
      · next enough => simpa using enough.symm
      · split at stopped
        · cases stopped
        · split at stopped <;> cases stopped
  | @step limit s s' s'' moves event answers reason go_on made _ ih =>
      subst bounded
      obtain ⟨some_due, -, -⟩ := stopReason?_eq_none_iff.mp go_on
      have one := event.length_answers_le
      have due : n ≠ 0 := fun none => some_due (congrArg some none)
      obtain ⟨most, all⟩ := ih (n := n - event.answers.length) rfl
      rw [List.length_append]
      exact ⟨by omega, fun limit => by have := all limit; omega⟩

/-! ### One request after another -/

/-- As long as answers are due, it makes no difference to the reason how
many. -/
theorem stopReason?_succ (s : Search) (budget : Option Nat) (a b : Nat) :
    s.stopReason? (some (a + 1)) budget = s.stopReason? (some (b + 1)) budget := by
  simp [stopReason?]

/-- A request can be interrupted after some of its answers. -/
theorem Taken.exists_split {a b : Nat}
    (h : Taken store budget (some (a + (b + 1))) s answers reason s'') :
    ∃ first why s' second, answers = first ++ second ∧
      Taken store budget (some a) s first why s' ∧
      Taken store budget (some (b + 1)) s' second reason s'' := by
  generalize bounded : some (a + (b + 1)) = limit at h
  induction h generalizing a with
  | @stop limit s reason stopped =>
      subst bounded
      rw [← Nat.add_assoc, stopReason?_succ s budget (a + b) b] at stopped
      cases a with
      | zero => exact ⟨[], .limitReached, s, [], rfl, .stop rfl, .stop stopped⟩
      | succ a =>
          refine ⟨[], reason, s, [], rfl, .stop ?_, .stop stopped⟩
          rw [stopReason?_succ s budget a b, stopped]
  | @step limit s s' s'' moves event answers reason go_on made rest ih =>
      subst bounded
      cases a with
      | zero =>
          rw [Nat.zero_add] at go_on rest
          exact ⟨[], .limitReached, s, _, rfl, .stop rfl, .step go_on made rest⟩
      | succ a =>
          have one := event.length_answers_le
          have still : some (a + 1 - event.answers.length + (b + 1)) =
              (some (a + 1 + (b + 1))).map (· - event.answers.length) := by
            simp only [Option.map_some, Option.some.injEq]
            omega
          obtain ⟨first, why, between, second, rfl, here, later⟩ := ih still
          refine ⟨event.answers ++ first, why, between, second, by rw [List.append_assoc],
            .step ?_ made here, later⟩
          rw [stopReason?_succ s budget a (a + 1 + b)]
          exact go_on

/-- After a request another one goes on, as if it had been asked for all
answers at once. -/
theorem Taken.append {a b : Nat} {first second : List Answer} {why : Reason}
    (h : Taken store budget (some a) s first why s')
    (h' : Taken store budget (some (b + 1)) s' second reason s'') :
    Taken store budget (some (a + (b + 1))) s (first ++ second) reason s'' := by
  generalize bounded : some a = limit at h
  induction h generalizing a with
  | @stop limit s why stopped =>
      subst bounded
      cases a with
      | zero => rwa [Nat.zero_add]
      | succ a =>
          -- What stopped the first request stops the second one before its
          -- first step.
          have again : Taken store budget (some (b + 1)) s [] why s :=
            .stop ((stopReason?_succ s budget b a).trans stopped)
          obtain ⟨rfl, rfl, rfl⟩ := again.unique h'
          exact .stop ((stopReason?_succ s budget (a + 1 + b) a).trans stopped)
  | @step limit s s' s'' moves event answers why go_on made rest ih =>
      subst bounded
      obtain ⟨some_due, -, -⟩ := stopReason?_eq_none_iff.mp go_on
      obtain ⟨a, rfl⟩ := Nat.exists_eq_succ_of_ne_zero fun none => some_due (congrArg some none)
      have one := event.length_answers_le
      have still : some (a + 1 - event.answers.length + (b + 1)) =
          (some (a + 1 + (b + 1))).map (· - event.answers.length) := by
        simp only [Option.map_some, Option.some.injEq]
        omega
      rw [List.append_assoc]
      exact .step ((stopReason?_succ s budget (a + 1 + b) a).trans go_on) made (still ▸ ih h' rfl)

/-- Behind the answers of a part of a request, a request for the others goes
on. -/
theorem Taken.exists_rest {a n : Nat} {first : List Answer}
    (h : Taken store budget (some (a + n)) s answers reason s'')
    (part : Taken store budget (some a) s first .limitReached s') :
    ∃ rest, answers = first ++ rest ∧ Taken store budget (some n) s' rest reason s'' := by
  cases n with
  | zero =>
      obtain ⟨rfl, rfl, rfl⟩ := part.unique h
      exact ⟨[], (List.append_nil _).symm, .stop rfl⟩
  | succ n =>
      obtain ⟨_, _, _, rest, same, here, later⟩ := h.exists_split
      obtain ⟨rfl, -, rfl⟩ := part.unique here
      exact ⟨rest, same, later⟩

/-- Two requests, one after the other, are one request for the answers of
both. -/
theorem takes_add_iff {a b : Nat} :
    s.Takes store (some (a + (b + 1))) budget answers reason s'' ↔
      ∃ first why s' second, answers = first ++ second ∧
        s.Takes store (some a) budget first why s' ∧
        s'.Takes store (some (b + 1)) budget second reason s'' := by
  simp only [takes_iff_taken]
  constructor
  · exact Taken.exists_split
  · rintro ⟨first, why, s', second, rfl, here, later⟩
    exact here.append later

/-! ### Pulling answers one by one -/

/-- Without a budget there are two reasons to stop. -/
theorem Taken.limitReached_or_exhausted (h : Taken store none limit s answers reason s') :
    reason = .limitReached ∨ reason = .exhausted ∧ s'.query.isExhausted := by
  obtain ⟨events, -, -, stops, -⟩ := taken_iff_stopsAfter.mp h
  unfold reason? at stops
  split at stops
  · cases stops
    exact .inl rfl
  · split at stops
    · next exhausted =>
      cases stops
      exact .inr ⟨rfl, exhausted⟩
    · cases stops

/-- Where nothing is left nothing is taken. -/
theorem taken_of_isExhausted (exhausted : s.query.isExhausted) (store : Store)
    (budget : Option Nat) (n : Nat) : ∃ reason, Taken store budget (some n) s [] reason s := by
  by_cases enough : n = 0
  · exact ⟨.limitReached, .stop (by simp [stopReason?, enough])⟩
  · exact ⟨.exhausted, .stop (by simp [stopReason?, enough, exhausted])⟩

/-- Only a request that gives all it was asked for leaves something to a
further one. -/
theorem Taken.length_eq_of_more {n m : Nat} {first second : List Answer} {why : Reason}
    (before : Taken store none (some n) s first why s')
    (later : Taken store none (some m) s' second reason s'') (more : second ≠ []) :
    first.length = n := by
  rcases before.limitReached_or_exhausted with limit | ⟨-, exhausted⟩
  · exact before.length_le.2 limit
  · obtain ⟨_, nothing⟩ := taken_of_isExhausted exhausted store none m
    exact absurd (nothing.unique later).1.symm more

/-- A number of pulls, one after the other, and what each of them gives. -/
inductive Pulls (store : Store) (s : Search) : List (Option Answer) → Search → Prop
  | nil : Pulls store s [] s
  | pull {results : List (Option Answer)} {result : Option Answer} {s' s'' : Search}
      {moves steps : Nat} (prior : Pulls store s results s')
      (made : (nextAnswer store moves steps s').told = some (result, s'')) :
      Pulls store s (results ++ [result]) s''

/-- An iteration pulls the answers one by one, up to the first pull that gives
none. -/
def Iterates (store : Store) (s : Search) (answers : List Answer) (s' : Search) : Prop :=
  s.Pulls store (answers.map some ++ [none]) s'

/-- What so many pulls give if these are the answers. -/
def pulled (n : Nat) (answers : List Answer) : List (Option Answer) :=
  answers.map some ++ List.replicate (n - answers.length) none

/-- A step without an answer is followed by another one. -/
theorem nextAnswer_of_step (waiting : ¬ s.query.isExhausted)
    (made : s.step store moves = .stepped event s') (none : event.answers = []) :
    nextAnswer store moves (steps + 1) s = nextAnswer store moves steps s' := by
  rw [nextAnswer, if_neg waiting, made]
  cases event <;> first | rfl | simp [Event.answers] at none

/-- A step with an answer is the last one. -/
theorem nextAnswer_of_answer {answer : Answer} (waiting : ¬ s.query.isExhausted)
    (made : s.step store moves = .stepped (.answered answer) s') :
    nextAnswer store moves (steps + 1) s = .answer answer s' := by
  rw [nextAnswer, if_neg waiting, made]

/-- A pull is a request for one answer. -/
theorem takeAnswers_one (store : Store) (moves steps : Nat) (s : Search) :
    takeAnswers store moves steps (some 1) none s =
      match nextAnswer store moves steps s with
      | .answer found s' => .taken [found] .limitReached s'
      | .exhausted s' => .taken [] .exhausted s'
      | .interrupted s' => .interrupted s'
      | .unfinished => .unfinished := by
  induction steps generalizing s with
  | zero =>
      by_cases exhausted : s.query.isExhausted <;>
        simp [takeAnswers, nextAnswer, stopReason?, exhausted]
  | succ steps ih =>
      by_cases exhausted : s.query.isExhausted
      · simp [takeAnswers, nextAnswer, stopReason?, exhausted]
      · rw [takeAnswers, nextAnswer]
        simp only [stopReason?, exhausted, Bool.false_eq_true, if_false, Option.some.injEq,
          Nat.one_ne_zero, Option.any_none]
        cases made : s.step store moves with
        | interrupted s' => rfl
        | unfinished => rfl
        | stepped event s' =>
            cases event with
            | answered found =>
                have full : s'.stopReason? (some 0) none = some .limitReached := rfl
                simp [takeAnswers_of_stop full, Taking.after]
            | idle => exact ih s'
            | expanded goal used => exact ih s'
            | discarded => exact ih s'

/-- A pull is a request for one answer. -/
theorem told_nextAnswer_iff {result : Option Answer} :
    (nextAnswer store moves steps s).told = some (result, s') ↔
      ∃ reason, takeAnswers store moves steps (some 1) none s = .taken result.toList reason s' := by
  rw [takeAnswers_one]
  cases nextAnswer store moves steps s <;> cases result <;> simp [Pull.told]

theorem exists_told_iff {result : Option Answer} :
    (∃ moves steps, (nextAnswer store moves steps s).told = some (result, s')) ↔
      ∃ reason, Taken store none (some 1) s result.toList reason s' := by
  simp only [told_nextAnswer_iff, ← takes_iff_taken, Takes]
  constructor
  · rintro ⟨moves, steps, reason, taken⟩
    exact ⟨reason, moves, steps, taken⟩
  · rintro ⟨reason, moves, steps, taken⟩
    exact ⟨moves, steps, reason, taken⟩

/-- There is no choice in what a request gives that comes back. -/
theorem told_unique {moves' steps' : Nat} {result result' : Option Answer}
    (made : (nextAnswer store moves steps s).told = some (result, s'))
    (again : (nextAnswer store moves' steps' s).told = some (result', s'')) :
    result = result' ∧ s' = s'' := by
  obtain ⟨_, first⟩ := exists_told_iff.mp ⟨moves, steps, made⟩
  obtain ⟨_, second⟩ := exists_told_iff.mp ⟨moves', steps', again⟩
  obtain ⟨same, -, rfl⟩ := first.unique second
  refine ⟨?_, rfl⟩
  cases result <;> cases result' <;> simp_all

/-- One more pull gives the next answer, or nothing if there is none. -/
theorem pulled_succ {n : Nat} {first second : List Answer} (most : first.length ≤ n)
    (one : second.length ≤ 1) (all : second ≠ [] → first.length = n) :
    pulled (n + 1) (first ++ second) = pulled n first ++ [second.head?] := by
  cases second with
  | nil =>
      have more : n + 1 - first.length = n - first.length + 1 := by omega
      simp [pulled, more, List.replicate_succ']
  | cons answer rest =>
      have none_left : rest = [] := by simpa using one
      have whole := all (List.cons_ne_nil _ _)
      simp [pulled, none_left, whole]

/-- Pulls give the answers of a request for as many, and then none. -/
theorem pulls_iff {results : List (Option Answer)} :
    s.Pulls store results s' ↔ ∃ answers reason,
      Taken store none (some results.length) s answers reason s' ∧
        results = pulled results.length answers := by
  constructor
  · intro h
    induction h with
    | nil => exact ⟨[], .limitReached, .stop rfl, rfl⟩
    | @pull results result s' s'' moves steps _ made ih =>
        obtain ⟨first, why, before, given⟩ := ih
        obtain ⟨reason, last⟩ := exists_told_iff.mp ⟨moves, steps, made⟩
        rw [List.length_append, List.length_singleton]
        refine ⟨first ++ result.toList, reason, before.append last, ?_⟩
        rw [pulled_succ before.length_le.1 last.length_le.1 (before.length_eq_of_more last),
          ← given]
        cases result <;> rfl
  · rintro ⟨answers, reason, taken, given⟩
    generalize results.length = n at taken given
    subst given
    induction n generalizing answers reason s' with
    | zero =>
        obtain ⟨rfl, -, rfl⟩ := taken.unique (.stop rfl)
        exact .nil
    | succ n ih =>
        obtain ⟨first, why, between, second, rfl, before, last⟩ := taken.exists_split (b := 0)
        have one := last.length_le.1
        have here : second.head?.toList = second := by
          cases second with
          | nil => rfl
          | cons answer rest => simpa using one
        obtain ⟨moves, steps, made⟩ := exists_told_iff.mpr ⟨reason, here.symm ▸ last⟩
        rw [pulled_succ before.length_le.1 one (before.length_eq_of_more last)]
        exact .pull (ih first why before) made

/-- When a pull has given none, so does every further one, and none of them
changes anything. -/
theorem pulls_of_ended {results more : List (Option Answer)}
    (ended : s.Pulls store (results ++ [none]) s') :
    s'.Pulls store more s'' ↔ more = List.replicate more.length none ∧ s'' = s' := by
  have exhausted : s'.query.isExhausted := by
    generalize whole : results ++ [none] = all at ended
    cases ended with
    | nil => simp at whole
    | pull prior made =>
        obtain ⟨-, last⟩ := List.append_inj' whole rfl
        obtain rfl : none = _ := by simpa using last
        obtain ⟨reason, taken⟩ := exists_told_iff.mp ⟨_, _, made⟩
        rcases taken.limitReached_or_exhausted with limit | ⟨-, exhausted⟩
        · exact absurd (taken.length_le.2 limit) (by simp)
        · exact exhausted
  obtain ⟨why, nothing⟩ := taken_of_isExhausted exhausted store none more.length
  rw [pulls_iff]
  constructor
  · rintro ⟨answers, reason, taken, given⟩
    obtain ⟨rfl, -, rfl⟩ := nothing.unique taken
    exact ⟨given, rfl⟩
  · rintro ⟨given, rfl⟩
    exact ⟨[], why, nothing, given⟩

/-- A limit that is not reached makes no difference. -/
theorem taken_iff_of_lt {n : Nat} (few : answers.length < n) :
    Taken store budget (some n) s answers reason s' ↔
      Taken store budget none s answers reason s' := by
  have same : ∀ given ≤ answers.length, ∀ q,
      reason? (some n) budget given q = reason? none budget given q := by
    intro given le q
    simp [reason?, Nat.lt_of_le_of_lt le few]
  simp only [taken_iff_stopsAfter]
  constructor
  · rintro ⟨events, rfl, stopped⟩
    exact ⟨events, rfl, stopped.congr same⟩
  · rintro ⟨events, rfl, stopped⟩
    exact ⟨events, rfl, stopped.congr fun given le q => (same given le q).symm⟩

/-- An iteration gives the answers of a request without bounds. -/
theorem iterates_iff :
    s.Iterates store answers s' ↔ s.Takes store none none answers .exhausted s' := by
  rw [Iterates, pulls_iff, takes_iff_taken, ← taken_iff_of_lt (Nat.lt_succ_self answers.length)]
  have length : (answers.map some ++ [none]).length = answers.length + 1 := by simp
  rw [length]
  constructor
  · rintro ⟨others, reason, taken, given⟩
    obtain rfl : answers = others := by
      have same := congrArg (List.filterMap id) given
      simpa [pulled] using same
    rcases taken.limitReached_or_exhausted with limit | ⟨rfl, -⟩
    · exact absurd (taken.length_le.2 limit) (by omega)
    · exact taken
  · intro taken
    exact ⟨answers, .exhausted, taken, by simp [pulled]⟩

/-- A request for answers makes the steps up to the first moment at which it
has a reason to stop, and gives their answers. It makes no step beyond its
budget. What it leaves can be asked for by further requests with the same
budget, and by pulls: several requests are one request for all their answers,
and pulls and iterations give the answers of a request without a budget. -/
theorem takes_prefix (store : Store) (s : Search) :
    (∀ limit budget answers reason s',
      s.Takes store limit budget answers reason s' ↔
        ∃ events, answers = events.flatMap Event.answers ∧
          s.StopsAfter store limit budget events reason s') ∧
    (∀ limit n answers reason s', s.Takes store limit (some n) answers reason s' →
      s'.query.steps ≤ max n s.query.steps) ∧
    (∀ a b budget answers reason s'',
      s.Takes store (some (a + (b + 1))) budget answers reason s'' ↔
        ∃ first why s' second, answers = first ++ second ∧
          s.Takes store (some a) budget first why s' ∧
          s'.Takes store (some (b + 1)) budget second reason s'') ∧
    (∀ results s', s.Pulls store results s' ↔
      ∃ answers reason, s.Takes store (some results.length) none answers reason s' ∧
        results = pulled results.length answers) ∧
    (∀ answers s', s.Iterates store answers s' ↔ s.Takes store none none answers .exhausted s') ∧
    ∀ results s', s.Pulls store (results ++ [none]) s' → ∀ more s'',
      s'.Pulls store more s'' ↔ more = List.replicate more.length none ∧ s'' = s' := by
  refine ⟨?stops, ?budget, ?requests, ?pulls, ?iterations, ?ended⟩
  case stops =>
    intro limit budget answers reason s'
    rw [takes_iff_taken, taken_iff_stopsAfter]
  case budget =>
    intro limit n answers reason s' taken
    exact (takes_iff_taken.mp taken).steps_le
  case requests => exact fun a b budget answers reason s'' => takes_add_iff
  case pulls =>
    intro results s'
    simp only [takes_iff_taken]
    exact pulls_iff
  case iterations => exact fun answers s' => iterates_iff
  case ended => exact fun results s' ended more s'' => pulls_of_ended ended

/-- The query of the small program, asked with a budget of three steps. Its one
answer takes all three, and a second request finds it exhausted before it finds
the budget used up. -/
theorem takes_prefix_tiny :
    let s : Search := { query := .ofGoals Tiny.goals false false, supply := Tiny.supply }
    ∃ s', s.Takes Tiny.store (some (1 + (0 + 1))) (some 3) [Tiny.answer] .exhausted s' ∧
      s'.query.steps ≤ max 3 s.query.steps ∧
      (∃ first why between second, [Tiny.answer] = first ++ second ∧
        s.Takes Tiny.store (some 1) (some 3) first why between ∧
        between.Takes Tiny.store (some (0 + 1)) (some 3) second .exhausted s') ∧
      s.Pulls Tiny.store ([some Tiny.answer] ++ [none]) s' ∧
      ∀ more s'', s'.Pulls Tiny.store more s'' ↔
        more = List.replicate more.length none ∧ s'' = s' := by
  intro s
  obtain ⟨-, budget, requests, -, iterations, ended⟩ := takes_prefix Tiny.store s
  have both : s.Takes Tiny.store (some (1 + (0 + 1))) (some 3) [Tiny.answer] .exhausted _ :=
    ⟨1, 3, rfl⟩
  have all : s.Takes Tiny.store none none [Tiny.answer] .exhausted _ := ⟨1, 3, rfl⟩
  have pulls := (iterations [Tiny.answer] _).mpr all
  exact ⟨_, both, budget _ 3 _ _ _ both, (requests 1 0 _ _ _ _).mp both, pulls, ended _ _ pulls⟩

end Search

end Resolvent
