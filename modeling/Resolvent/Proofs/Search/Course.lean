/-
# Courses of a query

A run of a query says that some steps were completed. Two searches are compared
step by step only if it is also said which steps these were. A turn tells how
many symbols others draw from the supply before a step and how many moves the
step is given. What a query makes of a list of turns is its course, and there
is none if a step runs out of moves. An equation between two courses therefore
says as well that one search gets stuck exactly where the other does.

The invariant of all courses is that nothing waits in the queue but what is
made of symbols that have been handed out already. A copy of a clause shares no
variable with any of it.
-/

import Resolvent.Proofs.Search.Tree

namespace Resolvent

/-! ### What is seen of a step -/

namespace Event

/-- The answer that an event brings, if it brings one. -/
def answer? : Event → Option Answer
  | .answered answer => some answer
  | _ => none

/-- The number of partial proofs that an event adds to the queue. -/
def successors : Event → Nat
  | .expanded _ used => used.length
  | _ => 0

end Event

/-- The symbols that others draw before a step, and the moves that each of its
unifications is given. -/
structure Query.Turn where
  drawn : Nat := 0
  moves : Nat

/-- What a query has made of some turns: the events of its steps, and the state
it is in. -/
structure Course where
  events : List Event
  query : Query
  supply : Supply

/-- Make one step in each turn. There is no course if a step runs out of
moves. -/
def Query.course (store : Store) : List Query.Turn → Query → Supply → Option Course
  | [], q, supply => some ⟨[], q, supply⟩
  | turn :: turns, q, supply =>
    (q.step store turn.moves (supply.skip turn.drawn)).bind fun out =>
      (course store turns out.query out.supply).map fun later =>
        { later with events := out.event :: later.events }

namespace Query

variable {store : Store} {start q : Query} {given supply : Supply}

/-- A last turn goes on from where the others have led. -/
theorem course_concat {turns : List Turn} {events : List Event} {event : Event}
    {last next : Query} {between after : Supply}
    (before : q.course store turns supply = some ⟨events, last, between⟩) (turn : Turn)
    (made : last.step store turn.moves (between.skip turn.drawn) = some ⟨event, next, after⟩) :
    q.course store (turns ++ [turn]) supply = some ⟨events ++ [event], next, after⟩ := by
  induction turns generalizing q supply events with
  | nil =>
      cases before
      rw [List.nil_append, course, made]
      rfl
  | cons first turns ih =>
      rw [course, Option.bind_eq_some_iff] at before
      obtain ⟨out, stepped, others⟩ := before
      obtain ⟨later, rest, same⟩ := Option.map_eq_some_iff.mp others
      cases same
      rw [List.cons_append, course, stepped, Option.bind_some, ih rest]
      rfl

/-- What is true of all courses is true of all runs: whatever a run can lead
to, a course leads to with as many turns. -/
theorem Run.exists_course {k : Nat} {visits : List Visit}
    (run : Run store start given k visits q supply) :
    ∃ turns events, turns.length = k ∧
      start.course store turns given = some ⟨events, q, supply⟩ := by
  induction run with
  | nil => exact ⟨[], [], rfl, rfl⟩
  | @step k moves visits q q' event supply drawn after prior later made ih =>
      obtain ⟨turns, events, length, led⟩ := ih
      have reached : supply.skip (drawn.next - supply.next) = drawn :=
        congrArg Supply.mk (Nat.add_sub_of_le later)
      rw [← reached] at made
      refine ⟨turns ++ [⟨drawn.next - supply.next, moves⟩], events ++ [event], ?_,
        course_concat led ⟨drawn.next - supply.next, moves⟩ made⟩
      rw [List.length_append, length, List.length_singleton]

end Query

/-! ### Symbols that have been handed out -/

namespace Supply

variable {store : Store} {goals : List Atom} {before after : Supply}

/-- What is known stays known. -/
theorem Knows.mono (known : before.Knows store goals) (later : before.next ≤ after.next) :
    after.Knows store goals where
  clauses c hc x hx := (known.clauses c hc x hx).mono later
  goals a ha x hx := (known.goals a ha x hx).mono later

/-- Whoever knows the goals of a query as well knows the store. -/
theorem Knows.of_goals (known : before.Knows store goals) : before.Knows store [] :=
  ⟨known.clauses, by simp⟩

end Supply

namespace PartialProof

/-- All variables of a partial proof have been handed out. -/
def Within (supply : Supply) (p : PartialProof) : Prop :=
  ∀ x, p.Mentions x → supply.Covers x

variable {store : Store} {goals : List Atom} {supply : Supply}

/-- What keeps to the symbols handed out still does when more of them are. -/
theorem Within.mono {p : PartialProof} {later : Supply} (h : p.Within supply)
    (le : supply.next ≤ later.next) : p.Within later :=
  fun x hx => (h x hx).mono le

/-- The variables of a partial proof that comes of a resolution step have been
handed out when the step has been made. -/
theorem Within.resolve (known : supply.Knows store []) {goal : Atom} {deferred : List Atom}
    {bindings : List Binding} (h : Within supply ⟨goal :: deferred, bindings⟩) {c : Clause}
    (candidate : c ∈ store.candidates goal) {moves : Nat} {made : List Binding}
    (solved : unify moves (Query.equations (goal.args.map (applyAll bindings))
      (c.standardizeApart supply).1.head) = .solved made) :
    Within (c.standardizeApart supply).2
      ⟨deferred ++ (c.standardizeApart supply).1.body, bindings ++ made⟩ := by
  have covered : Node.Covered supply ⟨⟨goal :: deferred, bindings⟩, supply, 0⟩ :=
    ⟨Nat.le_refl _, h⟩
  have step := Node.Resolves.step (n := ⟨⟨goal :: deferred, bindings⟩, supply, 0⟩) rfl candidate
    rfl (Yields.of_unify solved)
  exact (covered.resolves known step).covers

end PartialProof

namespace Query

variable {store : Store} {goals : List Atom} {supply after : Supply}

/-- Resolving a goal draws from the supply and gives nothing back. -/
theorem next_le_of_branches {moves : Nat} {args : List Term} {deferred : List Atom}
    {bindings : List Binding} {clauses : List Clause} {produced : List Branch}
    (made : branches moves args deferred bindings clauses supply = some (produced, after)) :
    supply.next ≤ after.next := by
  induction clauses generalizing supply produced with
  | nil =>
      cases made
      exact Nat.le_refl _
  | cons c rest ih =>
      obtain ⟨others, tried, _⟩ := branches_cons_eq_some_iff.mp made
      exact Nat.le_trans (c.next_le_standardizeApart supply) (ih tried)

/-- The variables of all branches that come of a partial proof have been handed
out when the branches have been made. -/
theorem within_branches (known : supply.Knows store []) {goal : Atom} {deferred : List Atom}
    {bindings : List Binding} (h : PartialProof.Within supply ⟨goal :: deferred, bindings⟩)
    {moves : Nat} {clauses : List Clause} (among : clauses ⊆ store.candidates goal)
    {produced : List Branch}
    (made : branches moves (goal.args.map (applyAll bindings)) deferred bindings clauses supply =
      some (produced, after)) : ∀ branch ∈ produced, branch.proof.Within after := by
  induction clauses generalizing supply produced with
  | nil =>
      cases made
      simp
  | cons c rest ih =>
      obtain ⟨candidate, among⟩ := List.cons_subset.mp among
      have grows := c.next_le_standardizeApart supply
      obtain ⟨others, tried, verdict⟩ := branches_cons_eq_some_iff.mp made
      have within := ih (known.mono grows) (h.mono grows) among tried
      rcases verdict with ⟨_, rfl⟩ | ⟨bindings, solved, rfl⟩
      · exact within
      · intro branch hb
        rcases List.mem_cons.mp hb with rfl | later
        · exact (h.resolve known candidate solved).mono (next_le_of_branches tried)
        · exact within branch later

/-- A step draws from the supply and gives nothing back. -/
theorem Stepped.next_le {q q' : Query} {event : Event}
    (h : q.Stepped store supply event q' after) : supply.next ≤ after.next := by
  cases h with
  | idle => exact Nat.le_refl _
  | answered => exact Nat.le_refl _
  | discarded => exact Nat.le_refl _
  | expanded _ made => exact next_le_of_branches made

/-- All variables of a query have been handed out: those that are asked for,
and those of what waits in the queue. -/
structure Within (supply : Supply) (q : Query) : Prop where
  asked : ∀ x ∈ q.vars, supply.Covers x
  waiting : ∀ item ∈ q.queue.toList, item.Within supply

theorem Within.mono {q : Query} (h : q.Within supply) (le : supply.next ≤ after.next) :
    q.Within after :=
  ⟨fun x hx => (h.asked x hx).mono le, fun item waits => (h.waiting item waits).mono le⟩

/-- The first item in the queue keeps to them, and so do the others. -/
theorem Within.of_front {q : Query} (h : q.Within supply) {item : PartialProof}
    {rest : List PartialProof} (front : q.queue.toList = item :: rest) :
    item.Within supply ∧ ∀ p ∈ rest, p.Within supply := by
  apply List.forall_mem_cons.mp
  rw [← front]
  exact h.waiting

/-- A query that has not begun asks about the goals alone. -/
theorem within_ofGoals (known : supply.Knows store goals) (verbose recording : Bool) :
    (ofGoals goals verbose recording).Within supply where
  asked x hx := by
    simp only [ofGoals, mem_varsOf, List.mem_flatMap] at hx
    obtain ⟨t, ⟨a, ha, ht⟩, hx⟩ := hx
    exact known.goals a ha x ⟨t, ht, hx⟩
  waiting item waits := by
    obtain rfl : item = ⟨goals, []⟩ := List.mem_singleton.mp waits
    rintro x (⟨a, ha, hx⟩ | ⟨b, hb, _⟩)
    · exact known.goals a ha x hx
    · cases hb

/-- A step keeps to the symbols that have been handed out. -/
theorem Within.step {q q' : Query} (h : q.Within supply) (known : supply.Knows store [])
    {event : Event} (stepped : q.Stepped store supply event q' after) : q'.Within after := by
  have grows := stepped.next_le
  cases stepped with
  | idle => exact h
  | answered front => exact ⟨h.asked, (h.of_front front).2⟩
  | discarded front => exact ⟨h.asked, (h.of_front front).2⟩
  | expanded front made =>
      obtain ⟨first, others⟩ := h.of_front front
      refine ⟨fun x hx => (h.asked x hx).mono grows, fun item waits => ?_⟩
      rw [Queue.toList_pushAll] at waits
      rcases List.mem_append.mp waits with old | new
      · exact (others item old).mono grows
      · obtain ⟨branch, hb, rfl⟩ := List.mem_map.mp new
        exact within_branches known first (List.Subset.refl _) made branch hb

end Query

end Resolvent
