/-
# What a search tells of itself

A search may be asked to report its steps, and to record the goals that it
resolves. Neither has any influence on it. Muted, which is to say without
reports and records, it makes the same steps at the same time and gives the
same answers. So two searches for the same goals are the same search, whoever
has begun them, once both are muted.

The other things that a search carries along are kept in plain ways: the supply
is only drawn from, who waits without an end to his patience is never
interrupted, and a search that does not report prints nothing.
-/

import Resolvent.Proofs.Search.Course
import Resolvent.Proofs.Search.Resumption

namespace Resolvent

/-- The search that a pull leaves, if it comes back. -/
def Pull.search? : Pull → Option Search
  | .answer _ s | .exhausted s | .interrupted s => some s
  | .unfinished => none

/-- The query without reports and records. -/
def Query.muted (q : Query) : Query :=
  { q with verbose := false, recording := false, history := #[] }

/-- To be muted makes no difference to how a candidate is judged. -/
theorem Query.judge_muted (q : Query) (bindings : List Binding) :
    q.muted.judge bindings = ((q.judge bindings).1, (q.judge bindings).2.muted) := by
  have same : q.muted.valuesUnder bindings = q.valuesUnder bindings := rfl
  unfold judge
  rw [same]
  dsimp only
  split <;> rfl

theorem Query.expand_muted (q : Query) (store : Store) (moves : Nat) (supply : Supply) (goal : Atom)
    (deferred : List Atom) (bindings : List Binding) :
    q.muted.expand store moves supply goal deferred bindings =
      (q.expand store moves supply goal deferred bindings).map fun out =>
        { out with query := out.query.muted } := by
  rw [expand, expand, Option.map_map]
  rfl

/-- Muting makes no difference to a step. -/
theorem Query.step_muted (q : Query) (store : Store) (moves : Nat) (supply : Supply) :
    q.muted.step store moves supply =
      (q.step store moves supply).map fun out => { out with query := out.query.muted } := by
  have queue : q.muted.queue = q.queue := rfl
  unfold step
  rw [queue]
  cases q.queue.pop? with
  | none => rfl
  | some popped =>
      obtain ⟨⟨goals, bindings⟩, queue⟩ := popped
      let taken : Query := { q with queue := queue, steps := q.steps + 1 }
      cases goals with
      | nil =>
          have judged := taken.judge_muted bindings
          show some (Step.mk (taken.muted.judge bindings).1 (taken.muted.judge bindings).2
            supply) = _
          rw [judged]
          rfl
      | cons goal deferred => exact taken.expand_muted store moves supply goal deferred bindings

/-- A query goes on reporting its steps, or not, as it was asked to. -/
theorem Query.verbose_step {q : Query} {store : Store} {moves : Nat} {supply : Supply} {out : Step}
    (made : q.step store moves supply = some out) : out.query.verbose = q.verbose := by
  unfold step at made
  split at made
  · cases made
    rfl
  · split at made
    · next goals _ _ =>
      dsimp only at made
      cases made
      unfold judge
      dsimp only
      split <;> rfl
    · obtain ⟨produced, _, rfl⟩ := Option.map_eq_some_iff.mp made
      rfl

namespace Search

variable {store : Store} {s s' : Search} {limit budget : Option Nat} {answers : List Answer}
  {reason : Reason} {moves steps : Nat} {event : Event}

/-! ### What is kept -/

/-- What is kept by every step, and by an interruption, is kept by a pull. -/
theorem kept_nextAnswer {P : Search → Prop}
    (stepped : ∀ {s event s'}, s.step store moves = .stepped event s' → P s → P s')
    (interrupted : ∀ {s s'}, s.step store moves = .interrupted s' → P s → P s')
    (left : (nextAnswer store moves steps s).search? = some s') (h : P s) : P s' := by
  induction steps generalizing s with
  | zero =>
      unfold nextAnswer at left
      split at left <;> cases left
      exact h
  | succ steps ih =>
      by_cases exhausted : s.query.isExhausted
      · rw [nextAnswer, if_pos exhausted] at left
        cases left
        exact h
      · cases made : s.step store moves with
        | unfinished => simp [nextAnswer, exhausted, made, Pull.search?] at left
        | interrupted later =>
            simp only [nextAnswer, exhausted, made, Pull.search?, Bool.false_eq_true, if_false,
              Option.some.injEq] at left
            exact left ▸ interrupted made h
        | stepped event later =>
            have kept := stepped made h
            cases event with
            | answered answer =>
                rw [nextAnswer_of_answer exhausted made] at left
                cases left
                exact kept
            | idle | expanded | discarded =>
                rw [nextAnswer_of_step exhausted made rfl] at left
                exact ih left kept

/-- What every step keeps is kept while answers are taken. -/
theorem Taken.kept {P : Search → Prop}
    (stepped : ∀ {s moves event s'}, s.step store moves = .stepped event s' → P s → P s')
    (h : Taken store budget limit s answers reason s') (begun : P s) : P s' := by
  induction h with
  | stop => exact begun
  | step _ made _ ih => exact ih (stepped made begun)

/-- An attempt to make a step gives nothing back to the supply. -/
theorem next_le_step (made : s.step store moves = .stepped event s') :
    s.supply.next ≤ s'.supply.next :=
  (Query.stepped_of_step (query_step_of_stepped made)).next_le

/-- A search with patience for ever is never interrupted. -/
theorem step_ne_interrupted (patient : s.patience = none) :
    s.step store moves ≠ .interrupted s' := by
  unfold step
  rw [patient]
  dsimp only
  split <;> simp

theorem patience_step (made : s.step store moves = .stepped event s')
    (patient : s.patience = none) :
    s'.patience = none := by
  unfold step at made
  rw [patient] at made
  dsimp only at made
  split at made <;> cases made
  rfl

/-- After an interruption the search is as before, but will not be interrupted
again. -/
theorem eq_of_interrupted (interrupted : s.step store moves = .interrupted s') :
    s' = { s with patience := none } := by
  unfold step at interrupted
  split at interrupted
  · cases interrupted
    rfl
  · split at interrupted <;> cases interrupted

/-- A pull gives nothing back to the supply, even if it is interrupted. -/
theorem next_le_nextAnswer (left : (nextAnswer store moves steps s).search? = some s') :
    s.supply.next ≤ s'.supply.next := by
  refine kept_nextAnswer (P := fun t => s.supply.next ≤ t.supply.next) ?_ ?_ left (Nat.le_refl _)
  · exact fun made before => Nat.le_trans before (next_le_step made)
  · exact fun interrupted before => by rwa [eq_of_interrupted interrupted]

/-- A pull does not take away its patience, either. -/
theorem patience_nextAnswer (left : (nextAnswer store moves steps s).search? = some s')
    (patient : s.patience = none) : s'.patience = none :=
  kept_nextAnswer (P := fun t => t.patience = none) patience_step
    (fun interrupted _ => by rw [eq_of_interrupted interrupted]) left patient

/-- A search with patience for ever is not interrupted in a pull. -/
theorem nextAnswer_ne_interrupted (patient : s.patience = none) :
    nextAnswer store moves steps s ≠ .interrupted s' := by
  induction steps generalizing s with
  | zero =>
      unfold nextAnswer
      split <;> simp
  | succ steps ih =>
      by_cases exhausted : s.query.isExhausted
      · simp [nextAnswer, exhausted]
      · cases made : s.step store moves with
        | unfinished => simp [nextAnswer, exhausted, made]
        | interrupted later => exact absurd made (step_ne_interrupted patient)
        | stepped event later =>
            cases event with
            | answered answer =>
                simp [nextAnswer_of_answer exhausted made]
            | idle | expanded | discarded =>
                rw [nextAnswer_of_step exhausted made rfl]
                exact ih (patience_step made patient)

/-- It is not interrupted while answers are taken. -/
theorem takeAnswers_ne_interrupted (patient : s.patience = none) :
    takeAnswers store moves steps limit budget s ≠ .interrupted s' := by
  induction steps generalizing limit s s' with
  | zero =>
      unfold takeAnswers
      split <;> simp
  | succ steps ih =>
      cases stopped : s.stopReason? limit budget with
      | some reason =>
          simp [takeAnswers_of_stop stopped]
      | none =>
          cases made : s.step store moves with
          | unfinished => simp [takeAnswers, stopped, made]
          | interrupted later => exact absurd made (step_ne_interrupted patient)
          | stepped event later =>
              rw [takeAnswers_of_step stopped made]
              cases rest : takeAnswers store moves steps (limit.map (· - event.answers.length))
                  budget later with
              | interrupted last => exact absurd rest (ih (patience_step made patient))
              | taken others reason last => simp [Taking.following]
              | unfinished => simp [Taking.following]

/-! ### Silence -/

/-- The search reports nothing, and has printed nothing. -/
structure Silent (s : Search) : Prop where
  not_verbose : s.query.verbose = false
  nothing : s.printed = ""

/-- A search that is silent stays silent in a step. -/
theorem Silent.step (h : s.Silent) (made : s.step store moves = .stepped event s') : s'.Silent := by
  have quiet := (Query.verbose_step (query_step_of_stepped made)).trans h.not_verbose
  unfold Search.step at made
  split at made
  · cases made
  · split at made
    · cases made
    · cases made
      refine ⟨quiet, ?_⟩
      rw [h.nothing, Query.report, quiet]
      rfl

/-- It stays silent in a pull. -/
theorem Silent.nextAnswer (h : s.Silent)
    (left : (nextAnswer store moves steps s).search? = some s') : s'.Silent :=
  kept_nextAnswer (fun made before => before.step made)
    (fun interrupted before => eq_of_interrupted interrupted ▸ ⟨before.not_verbose, before.nothing⟩)
    left h

/-- It stays silent while answers are taken. -/
theorem Silent.taken (h : s.Silent) (taken : Taken store budget limit s answers reason s') :
    s'.Silent :=
  taken.kept (fun made before => before.step made) h

/-! ### Muting -/

/-- The search without reports and records, without what it has printed, and
undisturbed. -/
def muted (s : Search) : Search where
  query := s.query.muted
  supply := s.supply

/-- A muted search makes the same steps. -/
theorem step_muted (made : s.step store moves = .stepped event s') :
    s.muted.step store moves = .stepped event s'.muted := by
  have found := s.query.step_muted store moves s.supply
  rw [query_step_of_stepped made, Option.map_some] at found
  exact step_of_query_step (s := s.muted) rfl found

/-- A muted search comes to the same answers, for the same reason. -/
theorem Taken.muted (h : Taken store budget limit s answers reason s') :
    Taken store budget limit s.muted answers reason s'.muted := by
  induction h with
  | stop stopped => exact .stop stopped
  | step go_on made _ ih => exact .step go_on (step_muted made) ih

end Search

end Resolvent
