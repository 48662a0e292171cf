/-
# Queries over one store are independent

A desk holds a store and any number of queries over it. All of them draw their
fresh variables from one supply, and so do all who standardize a clause apart
or read a text meanwhile. So what a query does with its bindings depends on
what everybody else has been doing; but only up to the identity of its fresh
variables, and nothing of that can be learnt from its replies.

Put against a query of the desk is the same query, asked for the same things in
the same order with nobody else around. The two are in lockstep, whatever
happens in between.
-/

import Resolvent.Proofs.Language.Growth
import Resolvent.Proofs.Search.Requests

namespace Resolvent

/-- What a query is opened with. -/
structure Opening where
  goals : List Atom
  verbose : Bool := false
  recording : Bool := false

/-- The query that an opening brings about. -/
def Opening.query (o : Opening) : Query :=
  .ofGoals o.goals o.verbose o.recording

/-- A store, the queries over it in the order in which they were opened, and
the supply from which all of them draw. -/
structure Desk where
  store : Store
  queries : List Query := []
  supply : Supply

/-- What can be done at a desk. -/
inductive Call
  | ask (opening : Opening)
  /-- Ask something of the query with a number. -/
  | request (index : Nat) (request : Request)
  /-- Standardize a clause apart, be it one of the store or not. -/
  | standardize (c : Clause)
  /-- Read a text. Whoever reads brings the symbols that are known to them. -/
  | read (known : Vocabulary) (form : TextForm) (text : String)

/-- What the log of a desk tells. -/
inductive Entry
  | opened (opening : Opening)
  | served (index : Nat) (request : Request) (reply : Reply)

namespace Entry

/-- The query that was opened, if it was that. -/
def opening? : Entry → Option Opening
  | opened opening => some opening
  | served _ _ _ => none

/-- What a query was asked and what it replied, if it was that. -/
def exchange? (index : Nat) : Entry → Option (Request × Reply)
  | opened _ => none
  | served number request reply => if number = index then some (request, reply) else none

end Entry

/-- The log of a desk. The queries are numbered in the order in which they were
opened. -/
abbrev Log := List Entry

namespace Log

/-- What the queries were opened with. -/
def openings (log : Log) : List Opening :=
  log.filterMap Entry.opening?

/-- What the query with a number was asked and what it replied. -/
def exchanges (index : Nat) (log : Log) : List (Request × Reply) :=
  log.filterMap (Entry.exchange? index)

/-- A served request is the last exchange with its own query. -/
theorem exchanges_concat_self (log : Log) (index : Nat) (request : Request) (reply : Reply) :
    exchanges index (log ++ [.served index request reply]) =
      exchanges index log ++ [(request, reply)] := by
  simp [exchanges, Entry.exchange?]

/-- For any other query it is no exchange at all. -/
theorem exchanges_concat_other (log : Log) {number index : Nat} (different : number ≠ index)
    (request : Request) (reply : Reply) :
    exchanges index (log ++ [.served number request reply]) = exchanges index log := by
  simp [exchanges, Entry.exchange?, different]

/-- Opening a query is no exchange with any. -/
theorem exchanges_concat_opened (log : Log) (index : Nat) (opening : Opening) :
    exchanges index (log ++ [.opened opening]) = exchanges index log := by
  simp [exchanges, Entry.exchange?]

end Log

namespace Desk

/-- Do what is called for. A request for a query that was never opened, and one
that does not come to an end, have no outcome. -/
def perform (desk : Desk) : Call → Option (Log × Desk)
  | .ask opening =>
    some ([.opened opening], { desk with queries := desk.queries ++ [opening.query] })
  | .request index request =>
    desk.queries[index]?.bind fun q =>
      (q.serve desk.store desk.supply request).map fun out =>
        ([.served index request out.reply],
          { desk with queries := desk.queries.set index out.query, supply := out.supply })
  | .standardize c => some ([], { desk with supply := (c.standardizeApart desk.supply).2 })
  | .read known form text =>
    some ([], { desk with
      supply := ({ known with supply := desk.supply }.afterReading text form).supply })

end Desk

/-- Whether a call is made of symbols that have been handed out. -/
def Call.Known (supply : Supply) : Call → Prop
  | .ask opening => ∀ a ∈ opening.goals, ∀ x, a.Mentions x → supply.Covers x
  | _ => True

/-- The log and the desk are what any calls can lead to, starting from a store
over which no query has been opened. -/
inductive Session (store : Store) (given : Supply) : Log → Desk → Prop
  | nil : Session store given [] ⟨store, [], given⟩
  | call {log entries : Log} {desk desk' : Desk} {c : Call}
      (prior : Session store given log desk) (known : c.Known desk.supply)
      (done : desk.perform c = some (entries, desk')) :
      Session store given (log ++ entries) desk'

namespace Desk

variable {store : Store} {given supply : Supply} {desk desk' : Desk} {log entries : Log}
  {index : Nat} {opening : Opening} {q : Query}

/-- What a call does to a desk. -/
inductive Performed (desk : Desk) : Call → Log → Desk → Prop
  | opened (opening : Opening) :
      Performed desk (.ask opening) [.opened opening]
        { desk with queries := desk.queries ++ [opening.query] }
  | served {index : Nat} {request : Request} {q : Query} {out : Served}
      (there : desk.queries[index]? = some q)
      (met : q.serve desk.store desk.supply request = some out) :
      Performed desk (.request index request) [.served index request out.reply]
        { desk with queries := desk.queries.set index out.query, supply := out.supply }
  | drawn {c : Call} {later : Supply} (le : desk.supply.next ≤ later.next) :
      Performed desk c [] { desk with supply := later }

/-- What a desk does in answer to a call is one of the ways in which calls are
performed. -/
theorem performed_of_perform {c : Call} (done : desk.perform c = some (entries, desk')) :
    desk.Performed c entries desk' := by
  cases c with
  | ask opening =>
      cases done
      exact .opened opening
  | request index request =>
      obtain ⟨q, there, done⟩ := Option.bind_eq_some_iff.mp done
      obtain ⟨out, met, same⟩ := Option.map_eq_some_iff.mp done
      cases same
      exact .served there met
  | standardize c =>
      cases done
      exact .drawn (c.next_le_standardizeApart desk.supply)
  | read known form text =>
      cases done
      exact .drawn
        (Vocabulary.grows_afterReading { known with supply := desk.supply } text form).supply

/-! ### A query of the desk and the same query alone -/

/-- Whatever supply the same query draws from when it is alone, it gives the
same replies to the same requests and is then in lockstep with the query of the
desk. -/
def Shadowed (store : Store) (supply : Supply) (opening : Opening)
    (exchanges : List (Request × Reply)) (q : Query) : Prop :=
  ∀ alone : Supply, alone.Knows store opening.goals → ∃ q' after,
    opening.query.serveAll store (exchanges.map Prod.fst) alone =
      some (exchanges.map Prod.snd, q', after) ∧
    alone.next ≤ after.next ∧ Query.Lockstep supply after q q'

variable {exchanges : List (Request × Reply)}

/-- A query does not notice that others have drawn. -/
theorem Shadowed.mono {later : Supply} (h : Shadowed store supply opening exchanges q)
    (le : supply.next ≤ later.next) : Shadowed store later opening exchanges q := by
  intro alone known
  obtain ⟨q', after, replies, grows, lockstep⟩ := h alone known
  exact ⟨q', after, replies, grows, lockstep.mono le (Nat.le_refl _)⟩

/-- A query that has just been opened has been asked nothing. -/
theorem shadowed_of_opening (known : supply.Knows store opening.goals) :
    Shadowed store supply opening [] opening.query := by
  intro alone known'
  have start := Query.lockstep_ofGoals known known' opening.verbose opening.recording
    opening.verbose opening.recording
  exact ⟨opening.query, alone, rfl, Nat.le_refl _, start⟩

/-- A request that is met at the desk is met in the same way when the query is
alone. -/
theorem Shadowed.served (h : Shadowed store supply opening exchanges q)
    (known : supply.Knows store []) {request : Request} {out : Served}
    (met : q.serve store supply request = some out) :
    Shadowed store out.supply opening (exchanges ++ [(request, out.reply)]) out.query := by
  intro alone known'
  obtain ⟨q', after, replies, grows, lockstep⟩ := h alone known'
  have known_after := (known'.mono grows).of_goals
  have alike := lockstep.serve (.refl store) known known_after request
  rw [met] at alike
  generalize served : q'.serve store after request = out' at alike
  cases alike with
  | @some _ out' alike =>
      refine ⟨out'.query, out'.supply, ?_, Nat.le_trans grows alike.grows', alike.lockstep⟩
      have last := Query.serveAll_concat replies served
      rw [alike.reply] at last
      rw [List.map_append, List.map_append]
      exact last

/-- What a session keeps to. -/
structure Orderly (store : Store) (given : Supply) (log : Log) (desk : Desk) : Prop where
  store_eq : desk.store = store
  later : given.next ≤ desk.supply.next
  opened : log.openings.length = desk.queries.length
  /-- Nothing has been asked of a query that has not been opened. -/
  unopened : ∀ index, desk.queries.length ≤ index → log.exchanges index = []
  shadowed : ∀ index opening q, log.openings[index]? = some opening →
    desk.queries[index]? = some q →
      Shadowed store desk.supply opening (log.exchanges index) q

/-- A new query has its shadow from the beginning. -/
theorem Orderly.ask (known : given.Knows store []) (h : Orderly store given log desk)
    (fair : ∀ a ∈ opening.goals, ∀ x, a.Mentions x → desk.supply.Covers x) :
    Orderly store given (log ++ [.opened opening])
      { desk with queries := desk.queries ++ [opening.query] } := by
  have openings : Log.openings (log ++ [.opened opening]) = log.openings ++ [opening] := by
    simp [Log.openings, Entry.opening?]
  refine ⟨h.store_eq, h.later, ?_, fun index beyond => ?_, fun index o q asked there => ?_⟩
  · rw [openings, List.length_append, List.length_append, h.opened]
    rfl
  · rw [Log.exchanges_concat_opened]
    rw [List.length_append] at beyond
    exact h.unopened index (Nat.le_trans (Nat.le_add_right _ _) beyond)
  · rw [openings] at asked
    rw [Log.exchanges_concat_opened]
    by_cases old : index < desk.queries.length
    · rw [List.getElem?_append_left (h.opened ▸ old)] at asked
      rw [List.getElem?_append_left old] at there
      exact h.shadowed index o q asked there
    · have beyond := Nat.le_of_not_lt old
      rw [List.getElem?_append_right (h.opened ▸ beyond)] at asked
      rw [List.getElem?_append_right beyond] at there
      obtain rfl := List.mem_singleton.mp (List.mem_of_getElem? asked)
      obtain rfl := List.mem_singleton.mp (List.mem_of_getElem? there)
      rw [h.unopened index beyond]
      exact shadowed_of_opening ⟨(known.mono h.later).clauses, fair⟩

/-- A request is served as the shadow would be served, and the others do not
notice. -/
theorem Orderly.request (known : given.Knows store []) (h : Orderly store given log desk)
    {request : Request} {out : Served} (there : desk.queries[index]? = some q)
    (met : q.serve desk.store desk.supply request = some out) :
    Orderly store given (log ++ [.served index request out.reply])
      { desk with queries := desk.queries.set index out.query, supply := out.supply } := by
  have grows := Query.next_le_serve met
  have inside : index < desk.queries.length := (List.getElem?_eq_some_iff.mp there).1
  have openings : Log.openings (log ++ [.served index request out.reply]) = log.openings := by
    simp [Log.openings, Entry.opening?]
  refine ⟨h.store_eq, Nat.le_trans h.later grows, ?_, fun number beyond => ?_,
    fun number o q' asked there' => ?_⟩
  · rw [openings, List.length_set]
    exact h.opened
  · rw [List.length_set] at beyond
    rw [Log.exchanges_concat_other log (Nat.ne_of_lt (Nat.lt_of_lt_of_le inside beyond))]
    exact h.unopened number beyond
  · rw [openings] at asked
    by_cases same : index = number
    · subst same
      rw [List.getElem?_set_self inside, Option.some.injEq] at there'
      subst there'
      rw [Log.exchanges_concat_self]
      rw [h.store_eq] at met
      exact (h.shadowed index o q asked there).served (known.mono h.later) met
    · rw [List.getElem?_set_ne same] at there'
      rw [Log.exchanges_concat_other log same]
      exact (h.shadowed number o q' asked there').mono grows

/-- Whatever is called for, the session remains orderly. -/
theorem Orderly.perform (known : given.Knows store []) (h : Orderly store given log desk) {c : Call}
    (fair : c.Known desk.supply) (done : desk.perform c = some (entries, desk')) :
    Orderly store given (log ++ entries) desk' := by
  cases performed_of_perform done with
  | opened opening => exact h.ask known fair
  | served there met => exact h.request known there met
  | drawn le =>
      rw [List.append_nil]
      exact ⟨h.store_eq, Nat.le_trans h.later le, h.opened, h.unopened,
        fun index o q asked there => (h.shadowed index o q asked there).mono le⟩

end Desk

namespace Session

variable {store : Store} {given : Supply} {log : Log} {desk : Desk}

/-- Every session is orderly. -/
theorem orderly (known : given.Knows store []) (session : Session store given log desk) :
    desk.Orderly store given log := by
  induction session with
  | nil => exact ⟨rfl, Nat.le_refl _, rfl, fun _ _ => rfl, by simp⟩
  | call _ fair done ih => exact ih.perform known fair done

/-- Queries over one store are independent. Whatever has been done at a desk,
the store is what it was. And every query, opened at any time, about any goals,
has replied to the requests made to it as it does when it is asked the same
things and nobody else draws from its supply, be it this supply or another. It
also tells the same of itself now, and meets any further request in the same
way, or fails to in both cases. -/
theorem independent (known : given.Knows store []) (session : Session store given log desk) :
    desk.store = store ∧ log.openings.length = desk.queries.length ∧
      ∀ index opening q, log.openings[index]? = some opening → desk.queries[index]? = some q →
        ∀ alone : Supply, alone.Knows store opening.goals → ∃ q' after,
          opening.query.serveAll store ((log.exchanges index).map Prod.fst) alone =
            some ((log.exchanges index).map Prod.snd, q', after) ∧
          q'.tell none = q.tell none ∧
          ∀ request, (q'.serve store after request).map Served.reply =
            (q.serve desk.store desk.supply request).map Served.reply := by
  have order := session.orderly known
  refine ⟨order.store_eq, order.opened, fun index opening q asked there alone known' => ?_⟩
  obtain ⟨q', after, replies, grows, lockstep⟩ :=
    order.shadowed index opening q asked there alone known'
  refine ⟨q', after, replies, lockstep.tell_eq none, fun request => ?_⟩
  have known_after := (known'.mono grows).of_goals
  have alike := lockstep.serve (.refl store) (known.mono order.later) known_after request
  rw [order.store_eq]
  exact (map_eq_of_optionRel alike fun _ _ met => met.reply.symm).symm

/-- Two queries about the same goals take turns. A text is read before they
begin, and a clause is standardized apart between their turns. -/
theorem independent_tiny : ∃ log desk q, Session Tiny.store Tiny.supply log desk ∧
    log.openings = [⟨Tiny.goals, false, false⟩, ⟨Tiny.goals, false, false⟩] ∧
    desk.queries[0]? = some q ∧ desk.store = Tiny.store ∧
    ∃ q' after, (Query.ofGoals Tiny.goals false false).serveAll Tiny.store
      [.step 1, .next ⟨1, 2⟩] Tiny.supply =
        some ([⟨none, 1, 1, false⟩, ⟨some Tiny.answer, 3, 0, true⟩], q', after) ∧
      q'.tell none = q.tell none := by
  let p := Query.ofGoals Tiny.goals false false
  have start : Session Tiny.store Tiny.supply [] _ := .nil
  have one := start.call (c := .ask ⟨Tiny.goals, false, false⟩) Tiny.knows.goals rfl
  have two := one.call (c := .ask ⟨Tiny.goals, false, false⟩) Tiny.knows.goals rfl
  have drawn : (({ supply := Tiny.supply } : Vocabulary).afterReading "f(X)" .term).supply =
      ⟨7⟩ := by decide +kernel
  have done : Desk.perform ⟨Tiny.store, [p, p], Tiny.supply⟩ (.read {} .term "f(X)") =
      some ([], ⟨Tiny.store, [p, p], ⟨7⟩⟩) :=
    congrArg (fun s => some ([], Desk.mk Tiny.store [p, p] s)) drawn
  have read := two.call (c := .read {} .term "f(X)") trivial done
  have begun := read.call (c := .request 0 (.step 1)) trivial rfl
  have apart := begun.call (c := .standardize (.fact ⟨⟨3, "p"⟩, [.var Tiny.x]⟩)) trivial rfl
  have other := apart.call (c := .request 1 (.next ⟨1, 3⟩)) trivial rfl
  have last := other.call (c := .request 0 (.next ⟨1, 2⟩)) trivial rfl
  obtain ⟨same, _, queries⟩ := last.independent Tiny.knows.of_goals
  obtain ⟨q', after, replies, told, _⟩ := queries 0 _ _ rfl rfl Tiny.supply Tiny.knows
  exact ⟨_, _, _, last, rfl, rfl, same, q', after, replies, told⟩

end Session

end Resolvent
