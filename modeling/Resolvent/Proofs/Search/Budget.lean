/-
# Step budgets

A request for answers with a budget makes at most as many steps as the budget
allows. It comes back unless one of these steps attempts a unification that
goes on for ever, for the budget is looked at between steps only and
unification has no occurs check. A single fact with a repeated variable is
enough to make that happen in the first step.
-/

import Resolvent.Proofs.Search.Attempts
import Resolvent.Search.Pull

namespace Resolvent

/-- The answers that an event brings. -/
def Event.answers : Event → List Answer
  | .answered answer => [answer]
  | _ => []

/-- The outcome of a request, seen from before a step with the given event. -/
def Taking.following (event : Event) : Taking → Taking
  | .taken answers reason s => .taken (event.answers ++ answers) reason s
  | .interrupted s => .interrupted s
  | .unfinished => .unfinished

namespace Search

variable {store : Store} {s : Search} {moves steps : Nat} {budget : Option Nat}

/-- The search after a step that nobody interrupts. -/
def moved (s : Search) (out : Step) : Search where
  query := out.query
  supply := out.supply
  printed := s.printed ++ out.query.report out.event

/-- The next step makes an attempt that goes on for ever. -/
def Stuck (store : Store) (s : Search) : Prop :=
  ∃ attempt, s.query.Attempts store s.supply attempt ∧ ¬ Finishes attempt

/-- A step of the query is one of the search, if that is not to be
interrupted. -/
theorem step_of_query_step (patient : s.patience = none) {out : Step}
    (made : s.query.step store moves s.supply = some out) :
    s.step store moves = .stepped out.event (s.moved out) := by
  simp [step, patient, made, moved]

/-- Either the next step can be completed or the search is stuck at it. -/
theorem exists_query_step_or_stuck (store : Store) (s : Search) :
    (∃ moves out, s.query.step store moves s.supply = some out) ∨ s.Stuck store := by
  by_cases ended : ∀ attempt, s.query.Attempts store s.supply attempt → Finishes attempt
  · exact .inl (Query.exists_step_iff.mpr ended)
  · exact .inr (by simpa [Stuck] using ended)

/-- At a stuck search no number of moves is enough. -/
theorem Stuck.step_eq (h : s.Stuck store) (patient : s.patience = none) (moves : Nat) :
    s.step store moves = .unfinished := by
  obtain ⟨attempt, attempted, endless⟩ := h
  cases made : s.query.step store moves s.supply with
  | some out => exact absurd (Query.exists_step_iff.mp ⟨moves, out, made⟩ attempt attempted) endless
  | none => simp [step, patient, made]

/-- A step of a query that is not exhausted counts. -/
theorem steps_moved {out : Step} (waiting : ¬ s.query.isExhausted)
    (made : s.query.step store moves s.supply = some out) :
    (s.moved out).query.steps = s.query.steps + 1 := by
  obtain ⟨event, query, supply⟩ := out
  cases Query.stepped_of_step made with
  | idle empty => exact absurd (s.query.queue.isEmpty_iff.mpr empty) waiting
  | answered => rfl
  | discarded => rfl
  | expanded => rfl

/-- There is no reason to stop as long as items wait and the budget is not
spent. -/
theorem stopReason?_eq_none {n : Nat} (waiting : ¬ s.query.isExhausted)
    (under : s.query.steps < n) : s.stopReason? none (some n) = none := by
  simp [stopReason?, waiting, Nat.not_le.mpr under]

/-- A search that is exhausted stops for that reason, whether or not the budget
is spent. -/
theorem stopReason?_of_isExhausted (exhausted : s.query.isExhausted) :
    s.stopReason? none budget = some .exhausted := by
  simp [stopReason?, exhausted]

/-- A search with items left stops when its budget is spent. -/
theorem stopReason?_of_le {n : Nat} (waiting : ¬ s.query.isExhausted)
    (ended : n ≤ s.query.steps) : s.stopReason? none (some n) = some .budgetExceeded := by
  simp [stopReason?, waiting, ended]

/-- A request that must stop makes no step. -/
theorem takeAnswers_of_stop {limit : Option Nat} {reason : Reason}
    (stop : s.stopReason? limit budget = some reason) :
    takeAnswers store moves steps limit budget s = .taken [] reason s := by
  unfold takeAnswers
  simp only [stop]

/-- A request that need not stop makes a step and goes on, with an answer less
to be given if the step has given one. -/
theorem takeAnswers_of_step {limit : Option Nat} (go_on : s.stopReason? limit budget = none)
    {event : Event} {s' : Search} (made : s.step store moves = .stepped event s') :
    takeAnswers store moves (steps + 1) limit budget s =
      (takeAnswers store moves steps (limit.map (· - event.answers.length)) budget s').following
        event := by
  have same : limit.map (· - 0) = limit := by cases limit <;> rfl
  rw [takeAnswers]
  simp only [go_on, made]
  cases event <;> simp only [Event.answers, List.length_nil, List.length_singleton, same] <;>
    cases takeAnswers store moves steps _ budget s' <;> rfl

/-- Where a search goes on, what is taken after the step is taken before it,
too. -/
theorem takeAnswers_succ (go_on : s.stopReason? none budget = none) {event : Event} {s' : Search}
    (made : s.step store moves = .stepped event s') :
    takeAnswers store moves (steps + 1) none budget s =
      (takeAnswers store moves steps none budget s').following event :=
  takeAnswers_of_step go_on made

/-- A request does not come back from a step that never ends. -/
theorem Stuck.takeAnswers_eq (h : s.Stuck store) (patient : s.patience = none)
    (go_on : s.stopReason? none budget = none) (moves steps : Nat) :
    takeAnswers store moves steps none budget s = .unfinished := by
  unfold takeAnswers
  cases steps with
  | zero => simp only [go_on]
  | succ steps => simp only [go_on, h.step_eq patient]

/-- A request that comes back does so with more moves as well. -/
theorem takeAnswers_of_le {more : Nat} (h : moves ≤ more) (patient : s.patience = none)
    {answers : List Answer} {reason : Reason} {s' : Search}
    (taken : takeAnswers store moves steps none budget s = .taken answers reason s') :
    takeAnswers store more steps none budget s = .taken answers reason s' := by
  induction steps generalizing s answers with
  | zero =>
      rw [takeAnswers] at taken ⊢
      exact taken
  | succ steps ih =>
      cases stop : s.stopReason? none budget with
      | some reason =>
          rw [takeAnswers_of_stop stop] at taken ⊢
          exact taken
      | none =>
          cases made : s.query.step store moves s.supply with
          | none =>
              rw [takeAnswers] at taken
              simp [stop, step, patient, made] at taken
          | some out =>
              have made_more := Query.step_of_le h made
              rw [takeAnswers_succ stop (step_of_query_step patient made)] at taken
              rw [takeAnswers_succ stop (step_of_query_step patient made_more)]
              cases rest : takeAnswers store moves steps none budget (s.moved out) with
              | taken others reason' s'' =>
                  rw [rest, Taking.following, Taking.taken.injEq] at taken
                  obtain ⟨rfl, rfl, rfl⟩ := taken
                  rw [ih rfl rest, Taking.following]
              | interrupted s'' => simp [rest, Taking.following] at taken
              | unfinished => simp [rest, Taking.following] at taken

/-- A request that comes back after a step has been made, comes back. -/
theorem takeAnswers_of_moved (patient : s.patience = none)
    (go_on : s.stopReason? none budget = none) {few : Nat} {out : Step}
    (made : s.query.step store few s.supply = some out) {answers : List Answer} {reason : Reason}
    {s' : Search}
    (taken : takeAnswers store moves steps none budget (s.moved out) = .taken answers reason s') :
    takeAnswers store (max few moves) (steps + 1) none budget s =
      .taken (out.event.answers ++ answers) reason s' := by
  have made := step_of_query_step patient (Query.step_of_le (Nat.le_max_left few moves) made)
  rw [takeAnswers_succ go_on made, takeAnswers_of_le (Nat.le_max_right few moves) rfl taken,
    Taking.following]

/-- A request that does not come back after a step has been made, never
does. -/
theorem takeAnswers_eq_unfinished (patient : s.patience = none)
    (go_on : s.stopReason? none budget = none) {few : Nat} {out : Step}
    (made : s.query.step store few s.supply = some out)
    (never : ∀ steps, takeAnswers store moves steps none budget (s.moved out) = .unfinished)
    (steps : Nat) : takeAnswers store moves steps none budget s = .unfinished := by
  cases steps with
  | zero =>
      unfold takeAnswers
      simp only [go_on]
  | succ steps =>
      cases again : s.query.step store moves s.supply with
      | none =>
          unfold takeAnswers
          simp [go_on, step, patient, again]
      | some out' =>
          have same : out' = out := Query.step_unique again made
          rw [takeAnswers_succ go_on (step_of_query_step patient again), same, never,
            Taking.following]

/-- Either the budget is kept, or the search gets stuck before it is used
up. -/
theorem taken_or_stuck (patient : s.patience = none) (more : Nat) :
    (∃ moves answers reason s', takeAnswers store moves more none (some (s.query.steps + more)) s =
        .taken answers reason s' ∧ s'.query.steps ≤ s.query.steps + more) ∨
      ∃ k < more,
        (∃ moves answers s', takeAnswers store moves k none (some (s.query.steps + k)) s =
          .taken answers .budgetExceeded s' ∧ s'.query.steps = s.query.steps + k ∧
          s'.Stuck store) ∧
        ∀ moves steps,
          takeAnswers store moves steps none (some (s.query.steps + more)) s = .unfinished := by
  -- The induction is on the number of steps that the budget still allows.
  induction more generalizing s with
  | zero =>
      by_cases exhausted : s.query.isExhausted
      · exact .inl ⟨0, [], .exhausted, s,
          takeAnswers_of_stop (stopReason?_of_isExhausted exhausted), Nat.le_refl _⟩
      · exact .inl ⟨0, [], .budgetExceeded, s,
          takeAnswers_of_stop (stopReason?_of_le exhausted (Nat.le_refl _)), Nat.le_refl _⟩
  | succ more ih =>
      by_cases exhausted : s.query.isExhausted
      · exact .inl ⟨0, [], .exhausted, s,
          takeAnswers_of_stop (stopReason?_of_isExhausted exhausted), Nat.le_add_right _ _⟩
      · have go_on (k : Nat) : s.stopReason? none (some (s.query.steps + (k + 1))) = none :=
          stopReason?_eq_none exhausted (by omega)
        rcases exists_query_step_or_stuck store s with ⟨few, out, made⟩ | stuck
        · have counted := steps_moved exhausted made
          have shift (k : Nat) : (s.moved out).query.steps + k = s.query.steps + (k + 1) := by
            omega
          rcases ih (s := s.moved out) rfl with
            ⟨moves, answers, reason, s', taken, kept⟩ |
              ⟨k, fewer, ⟨moves, answers, s', taken, counted', stuck⟩, never⟩
          · rw [shift] at taken kept
            exact .inl ⟨_, _, reason, s',
              takeAnswers_of_moved patient (go_on more) made taken, kept⟩
          · rw [shift] at taken counted'
            refine .inr ⟨k + 1, Nat.succ_lt_succ fewer, ⟨_, _, s',
              takeAnswers_of_moved patient (go_on k) made taken, counted', stuck⟩, ?_⟩
            rw [shift] at never
            exact fun moves => takeAnswers_eq_unfinished patient (go_on more) made (never moves)
        · refine .inr ⟨0, Nat.succ_pos more, ⟨0, [], s, ?_, rfl, stuck⟩, ?_⟩
          · exact takeAnswers_of_stop (stopReason?_of_le exhausted (Nat.le_refl _))
          · exact stuck.takeAnswers_eq patient (go_on more)

/-- A budget of so many steps is kept by a fresh query, or else one of these
steps makes an attempt that goes on for ever. The steps before it have been
made, the equations of the attempt have no solution, and one of its bindings is
cyclic. -/
theorem budget_kept_or_stuck (store : Store) (goals : List Atom) (verbose recording : Bool)
    (supply : Supply) (printed : String) (n : Nat) :
    let fresh : Search := { query := .ofGoals goals verbose recording, supply, printed }
    (∃ moves answers reason s, takeAnswers store moves n none (some n) fresh =
        .taken answers reason s ∧ s.query.steps ≤ n) ∨
      ∃ k < n,
        (∃ moves answers s attempt, takeAnswers store moves k none (some k) fresh =
            .taken answers .budgetExceeded s ∧ s.query.steps = k ∧
          s.query.Attempts store s.supply attempt ∧
          (∀ moves, unify moves attempt = .unfinished) ∧
          (∀ τ : Substitution, ¬ τ.Unifies attempt) ∧ ∃ b, Binds attempt b ∧ b.IsCyclic) ∧
        ∀ moves steps, takeAnswers store moves steps none (some n) fresh = .unfinished := by
  intro fresh
  have none_made : fresh.query.steps = 0 := rfl
  rcases @taken_or_stuck store fresh rfl n with
    ⟨moves, answers, reason, s, taken, kept⟩ |
      ⟨k, fewer, ⟨moves, answers, s, taken, made, attempt, attempted, endless⟩, never⟩
  · rw [none_made, Nat.zero_add] at taken kept
    exact .inl ⟨moves, answers, reason, s, taken, kept⟩
  · rw [none_made, Nat.zero_add] at taken made
    rw [none_made, Nat.zero_add] at never
    have unfinished : ∀ moves, unify moves attempt = .unfinished := by
      intro moves
      by_contra finished
      exact endless ⟨moves, finished⟩
    exact .inr ⟨k, fewer, ⟨moves, answers, s, attempt, taken, made, attempted, unfinished,
      Finishes.exists_isCyclic endless⟩, never⟩

end Search

/-! ### A search that no budget stops -/

namespace Knot

/-- The fact `q(A, A, A)`. -/
def store : Store :=
  ⟨[⟨⟨0, "q"⟩, [.var ⟨1, "A"⟩, .var ⟨1, "A"⟩, .var ⟨1, "A"⟩]⟩], []⟩

/-- The goal `q(Y, f(Y, Y), f(Y, Y))`. -/
def goals : List Atom :=
  let y : Term := .var ⟨2, "Y"⟩
  [⟨⟨0, "q"⟩, [y, .app ⟨3, "f"⟩ [y, y], .app ⟨3, "f"⟩ [y, y]]⟩]

/-- A single step is too much for this query. -/
theorem not_taken : ¬ ∃ moves steps answers reason s,
    Search.takeAnswers store moves steps none (some 1)
      { query := .ofGoals goals false false, supply := ⟨4⟩ } = .taken answers reason s := by
  rintro ⟨moves, steps, answers, reason, s, taken⟩
  have stuck : Search.Stuck store { query := .ofGoals goals false false, supply := ⟨4⟩ } := by
    refine ⟨_, .resolve rfl .first, fun finishes => ?_⟩
    have bind : (⟨.var ⟨2, "Y"⟩, .var ⟨4, "A"⟩⟩ : Equation).move =
        .bind ⟨⟨2, "Y"⟩, .var ⟨4, "A"⟩⟩ :=
      Equation.Calls.move_eq (.bindLeft (by simp))
    exact not_finishes_pair ⟨3, "f"⟩ ⟨4, "A"⟩ ((Finishes.bind_iff bind).mp finishes)
  rw [stuck.takeAnswers_eq rfl rfl] at taken
  cases taken

end Knot

end Resolvent
