/-
# Requests to a query

A query is asked for a step or for the next answer, and tells what came of it:
the answer, if there is one, how many steps it has made by now, how many items
wait, and whether it is exhausted. This is all that can be learnt from a query
without looking into its queue.

Queries in lockstep tell the same about every request. For a single step that
has been shown; a request for the next answer is as many steps as it takes.
-/

import Resolvent.Proofs.Search.Lockstep
import Resolvent.Search.Pull

namespace Resolvent

/-- What can be asked of a query: one step, or steps until there is an
answer. -/
inductive Request
  | step (moves : Nat)
  | next (effort : Effort)

/-- What is learnt from a request. -/
structure Reply where
  answer : Option Answer
  steps : Nat
  waiting : Nat
  exhausted : Bool
  deriving DecidableEq

/-- A request that has been met. -/
structure Served where
  reply : Reply
  query : Query
  supply : Supply

namespace Query

/-- What a query tells of itself, with an answer if it has one to give. -/
def tell (q : Query) (answer : Option Answer) : Reply :=
  ⟨answer, q.steps, q.queue.size, q.isExhausted⟩

end Query

/-- An answer or the news that there is none. A pull that did not come to an
end tells nothing, and these pulls are not interrupted. -/
def Pull.served : Pull → Option Served
  | .answer found s => some ⟨s.query.tell (some found), s.query, s.supply⟩
  | .exhausted s => some ⟨s.query.tell none, s.query, s.supply⟩
  | .interrupted _ | .unfinished => none

namespace Query

/-- Meet a request. There is no outcome if it does not come to an end. -/
def serve (q : Query) (store : Store) (supply : Supply) : Request → Option Served
  | .step moves =>
    (q.step store moves supply).map fun out =>
      ⟨out.query.tell out.event.answer?, out.query, out.supply⟩
  | .next effort =>
    (Search.nextAnswer store effort.moves effort.steps { query := q, supply }).served

/-- Meet several requests, one after another. -/
def serveAll (store : Store) : List Request → Query → Supply → Option (List Reply × Query × Supply)
  | [], q, supply => some ([], q, supply)
  | request :: requests, q, supply =>
    (q.serve store supply request).bind fun out =>
      (serveAll store requests out.query out.supply).map fun (replies, last) =>
        (out.reply :: replies, last)

variable {store store' : Store} {q q' : Query} {supply supply' : Supply}

/-- A last request is met by the query that the others have left. -/
theorem serveAll_concat {requests : List Request} {replies : List Reply} {last : Query}
    {after : Supply} (before : serveAll store requests q supply = some (replies, last, after))
    {request : Request} {out : Served} (served : last.serve store after request = some out) :
    serveAll store (requests ++ [request]) q supply =
      some (replies ++ [out.reply], out.query, out.supply) := by
  induction requests generalizing q supply replies with
  | nil =>
      cases before
      simp [serveAll, served]
  | cons first requests ih =>
      rw [serveAll, Option.bind_eq_some_iff] at before
      obtain ⟨between, met, others⟩ := before
      rw [Option.map_eq_some_iff] at others
      obtain ⟨⟨told, _⟩, rest, same⟩ := others
      cases same
      rw [List.cons_append, serveAll, met, Option.bind_some, ih rest]
      rfl

/-! ### Asking for the next answer -/

/-- A query with something to do makes a step, and another pull follows unless
that step gave an answer. -/
theorem served_nextAnswer_succ (busy : q.isExhausted = false) (store : Store) (moves steps : Nat)
    (supply : Supply) (printed : String) :
    (Search.nextAnswer store moves (steps + 1) ⟨q, supply, printed, none⟩).served =
      (q.step store moves supply).bind fun out =>
        match out.event.answer? with
        | some answer => some ⟨out.query.tell (some answer), out.query, out.supply⟩
        | none => (Search.nextAnswer store moves steps
            ⟨out.query, out.supply, printed ++ out.query.report out.event, none⟩).served := by
  rw [Search.nextAnswer]
  simp only [busy, Bool.false_eq_true, if_false, Search.step]
  cases q.step store moves supply with
  | none => rfl
  | some out =>
      obtain ⟨event, query, after⟩ := out
      cases event <;> rfl

/-- An exhausted query has no answer to give, however many steps it is
allowed. -/
theorem served_nextAnswer_of_exhausted (exhausted : q.isExhausted) (store : Store)
    (moves steps : Nat) (supply : Supply) (printed : String) :
    (Search.nextAnswer store moves steps ⟨q, supply, printed, none⟩).served =
      some ⟨q.tell none, q, supply⟩ := by
  cases steps <;> simp [Search.nextAnswer, exhausted, Pull.served]

/-- What all steps keep is kept by meeting a request. -/
theorem serve_induction {P : Query → Supply → Prop}
    (step : ∀ q supply event q' after, q.Stepped store supply event q' after → P q supply →
      P q' after) {request : Request} {out : Served}
    (met : q.serve store supply request = some out) (h : P q supply) :
    P out.query out.supply := by
  cases request with
  | step moves =>
      obtain ⟨made, stepped, rfl⟩ := Option.map_eq_some_iff.mp met
      exact step _ _ _ _ _ (stepped_of_step stepped) h
  | next effort =>
      simp only [serve] at met
      generalize effort.steps = steps, "" = printed at met
      induction steps generalizing q supply printed with
      | zero =>
          by_cases exhausted : q.isExhausted
          · rw [served_nextAnswer_of_exhausted exhausted] at met
            cases met
            exact h
          · simp [Search.nextAnswer, exhausted, Pull.served] at met
      | succ steps ih =>
          by_cases exhausted : q.isExhausted
          · rw [served_nextAnswer_of_exhausted exhausted] at met
            cases met
            exact h
          · rw [served_nextAnswer_succ (by simpa using exhausted), Option.bind_eq_some_iff] at met
            obtain ⟨made, stepped, rest⟩ := met
            have kept : P made.query made.supply := step _ _ _ _ _ (stepped_of_step stepped) h
            cases told : made.event.answer? with
            | some answer =>
                rw [told] at rest
                cases rest
                exact kept
            | none =>
                rw [told] at rest
                exact ih kept _ rest

/-- Meeting a request draws from the supply and gives nothing back. -/
theorem next_le_serve {request : Request} {out : Served}
    (met : q.serve store supply request = some out) : supply.next ≤ out.supply.next := by
  apply serve_induction (P := fun _ s => supply.next ≤ s.next) _ met (Nat.le_refl _)
  intro _ between _ _ after stepped later
  exact Nat.le_trans later stepped.next_le

/-! ### Requests in lockstep -/

/-- Two requests that have been met alike and leave their queries in
lockstep. -/
structure Lockstep.Met (supply supply' : Supply) (out out' : Served) : Prop where
  grows : supply.next ≤ out.supply.next
  grows' : supply'.next ≤ out'.supply.next
  reply : out'.reply = out.reply
  lockstep : Lockstep out.supply out'.supply out.query out'.query

/-- What has been met remains so for the supplies before. -/
theorem Lockstep.Met.mono {before before' : Supply} {out out' : Served}
    (h : Met supply supply' out out') (le : before.next ≤ supply.next)
    (le' : before'.next ≤ supply'.next) : Met before before' out out' :=
  ⟨Nat.le_trans le h.grows, Nat.le_trans le' h.grows', h.reply, h.lockstep⟩

/-- Queries in lockstep tell of the same answers. -/
theorem Lockstep.tell_eq (h : Lockstep supply supply' q q') (answer : Option Answer) :
    q'.tell answer = q.tell answer := by
  rw [tell, tell, h.steps, h.size_eq, h.isExhausted_eq]

/-- Queries in lockstep give the same answers and stay in lockstep. -/
theorem Lockstep.nextAnswer (h : Lockstep supply supply' q q') (variants : store.Variant store')
    (known : supply.Knows store []) (known' : supply'.Knows store' []) (moves steps : Nat)
    (printed printed' : String) :
    Option.Rel (Met supply supply')
      (Search.nextAnswer store moves steps ⟨q, supply, printed, none⟩).served
      (Search.nextAnswer store' moves steps ⟨q', supply', printed', none⟩).served := by
  induction steps generalizing q q' supply supply' printed printed' with
  | zero =>
      by_cases exhausted : q.isExhausted
      · rw [served_nextAnswer_of_exhausted exhausted,
          served_nextAnswer_of_exhausted (h.isExhausted_eq.trans exhausted)]
        exact .some ⟨Nat.le_refl _, Nat.le_refl _, h.tell_eq none, h⟩
      · simp only [Search.nextAnswer, h.isExhausted_eq, exhausted, Pull.served]
        exact .none
  | succ steps ih =>
      by_cases exhausted : q.isExhausted
      · rw [served_nextAnswer_of_exhausted exhausted,
          served_nextAnswer_of_exhausted (h.isExhausted_eq.trans exhausted)]
        exact .some ⟨Nat.le_refl _, Nat.le_refl _, h.tell_eq none, h⟩
      · have busy : q.isExhausted = false := by simpa using exhausted
        have made := h.step variants known known' moves
        rw [served_nextAnswer_succ busy, served_nextAnswer_succ (h.isExhausted_eq.trans busy)]
        generalize q.step store moves supply = out at made
        generalize q'.step store' moves supply' = out' at made
        cases made with
        | none => exact .none
        | @some out out' after =>
            simp only [Option.bind_some, after.answer]
            cases out.event.answer? with
            | some answer =>
                exact .some ⟨after.grows, after.grows', after.lockstep.tell_eq _, after.lockstep⟩
            | none =>
                apply optionRel_imp (ih after.lockstep (known.mono after.grows)
                  (known'.mono after.grows') _ _)
                exact fun _ _ met => met.mono after.grows after.grows'

/-- Queries in lockstep meet a request alike, or neither of them meets it. -/
theorem Lockstep.serve (h : Lockstep supply supply' q q') (variants : store.Variant store')
    (known : supply.Knows store []) (known' : supply'.Knows store' []) (request : Request) :
    Option.Rel (Met supply supply') (q.serve store supply request)
      (q'.serve store' supply' request) := by
  cases request with
  | step moves =>
      apply optionRel_map (h.step variants known known' moves)
      intro out out' after
      refine ⟨after.grows, after.grows', ?_, after.lockstep⟩
      rw [after.answer]
      exact after.lockstep.tell_eq _
  | next effort => exact h.nextAnswer variants known known' effort.moves effort.steps "" ""

end Query

end Resolvent
