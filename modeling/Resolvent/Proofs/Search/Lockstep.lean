/-
# Searches in lockstep

The same goals are searched for in two stores that are variants of each other.
The clauses of one store may use variables of the query, or variables of each
other, where those of the other do not; and the two searches may draw their
fresh variables from different supplies, with any number of draws by others in
between. Nobody who watches the answers and the queues can tell the two
searches apart.

Two items of the queues that have the same place are the same up to a
permutation of the variables, one for each pair of items, that leaves the query
variables alone. A resolution step uses copies of two clauses, and the
permutation is extended to take one copy to the other. It can be, because the
copies are made of variables that nobody had seen before.
-/

import Resolvent.Proofs.Clauses.Variants
import Resolvent.Proofs.Search.Correspondence
import Resolvent.Proofs.Search.Course

namespace Resolvent

/-! ### Related outcomes

Two steps that are compared both have an outcome, and the outcomes are related,
or neither of them has one.
-/

section Outcomes

variable {α β γ δ : Type} {R S : α → β → Prop} {T : γ → δ → Prop} {a : Option α} {b : Option β}

theorem optionRel_imp (h : Option.Rel R a b) (imp : ∀ x y, R x y → S x y) : Option.Rel S a b := by
  cases h with
  | some related => exact .some (imp _ _ related)
  | none => exact .none

theorem optionRel_map (h : Option.Rel R a b) {f : α → γ} {g : β → δ}
    (imp : ∀ x y, R x y → T (f x) (g y)) : Option.Rel T (a.map f) (b.map g) := by
  cases h with
  | some related => exact .some (imp _ _ related)
  | none => exact .none

theorem map_eq_of_optionRel (h : Option.Rel R a b) {f : α → γ} {g : β → γ}
    (same : ∀ x y, R x y → f x = g y) : a.map f = b.map g := by
  cases h with
  | some related => exact congrArg some (same _ _ related)
  | none => rfl

end Outcomes

/-! ### Items that are alike -/

namespace PartialProof

/-- A renamed partial proof mentions the new names. -/
theorem mentions_rename {p : PartialProof} {π : Variable → Variable} {x : Variable}
    (hx : p.Mentions x) : (p.rename π).Mentions (π x) := by
  rcases hx with ⟨a, ha, hx⟩ | ⟨b, hb, hx⟩
  · exact .inl ⟨a.rename π, List.mem_map_of_mem ha, Atom.mentions_rename hx⟩
  · refine .inr ⟨b.rename π, List.mem_map_of_mem hb, ?_⟩
    rcases hx with rfl | hx
    · exact .inl rfl
    · exact .inr (Term.mem_vars_rename.mpr ⟨x, hx, rfl⟩)

/-- Two partial proofs are the same up to a permutation of the variables that
leaves the query variables alone. All variables have been handed out. -/
structure Alike (asked : List Variable) (supply supply' : Supply) (p p' : PartialProof) :
    Prop where
  covers : ∀ x ∈ asked, supply.Covers x ∧ supply'.Covers x
  within : p.Within supply
  within' : p'.Within supply'
  renamed : ∃ π : Equiv.Perm Variable, (∀ x ∈ asked, π x = x) ∧ p' = p.rename π

variable {store store' : Store} {asked : List Variable} {supply supply' : Supply}

/-- Items that are alike remain so when more symbols are handed out on both
sides. -/
theorem Alike.mono {p p' : PartialProof} {later later' : Supply}
    (h : Alike asked supply supply' p p') (le : supply.next ≤ later.next)
    (le' : supply'.next ≤ later'.next) : Alike asked later later' p p' where
  covers x hx := ⟨(h.covers x hx).1.mono le, (h.covers x hx).2.mono le'⟩
  within := h.within.mono le
  within' := h.within'.mono le'
  renamed := h.renamed

/-- The permutation of two items can be chosen to take the copy of a clause to
the copy of its variant. -/
theorem Alike.exists_perm {p p' : PartialProof} (h : Alike asked supply supply' p p')
    {c c' : Clause} (variant : c.Variant c') (known : ∀ x ∈ c.vars, supply.Covers x)
    (known' : ∀ x ∈ c'.vars, supply'.Covers x) :
    ∃ π : Equiv.Perm Variable, (∀ x ∈ asked, π x = x) ∧ p' = p.rename π ∧
      (c'.standardizeApart supply').1 = (c.standardizeApart supply).1.rename π := by
  obtain ⟨π, fixes, rfl⟩ := h.renamed
  have covered : ∀ x, (x ∈ asked ∨ p.Mentions x) → supply.Covers x ∧ supply'.Covers (π x) := by
    rintro x (hx | hx)
    · rw [fixes x hx]
      exact h.covers x hx
    · exact ⟨h.within x hx, h.within' (π x) (mentions_rename hx)⟩
  obtain ⟨π', agree, copies⟩ := variant.exists_perm known known' π covered
  refine ⟨π', fun x hx => ?_, rename_congr fun x hx => (agree x (.inr hx)).symm, copies⟩
  rw [agree x (.inl hx), fixes x hx]

/-- The clauses that match the first goals are variants, one by one. -/
theorem Alike.candidates {goal goal' : Atom} {deferred deferred' : List Atom}
    {bindings bindings' : List Binding}
    (h : Alike asked supply supply' ⟨goal :: deferred, bindings⟩ ⟨goal' :: deferred', bindings'⟩)
    (variants : store.Variant store') :
    List.Forall₂ Clause.Variant (store.candidates goal) (store'.candidates goal') := by
  obtain ⟨π, _, same⟩ := h.renamed
  obtain ⟨goals_eq, _⟩ := PartialProof.mk.inj same
  obtain ⟨rfl, _⟩ := List.cons.inj goals_eq
  have candidates : store'.candidates (goal.rename π) = store'.candidates goal :=
    store'.candidates_subst _ goal
  rw [candidates]
  exact variants.candidates goal

/-- An attempt with a clause and an attempt with its variant end alike, and if
they succeed they leave partial proofs that are alike. -/
theorem Alike.attempt (known : supply.Knows store []) (known' : supply'.Knows store' [])
    {goal goal' : Atom} {deferred deferred' : List Atom} {bindings bindings' : List Binding}
    (h : Alike asked supply supply' ⟨goal :: deferred, bindings⟩ ⟨goal' :: deferred', bindings'⟩)
    {c c' : Clause} (variant : c.Variant c') (candidate : c ∈ store.candidates goal)
    (candidate' : c' ∈ store'.candidates goal') {moves : Nat} {verdict : Verdict}
    (attempted : unify moves (Query.equations (goal.args.map (applyAll bindings))
      (c.standardizeApart supply).1.head) = verdict) :
    ∃ π : Equiv.Perm Variable,
      unify moves (Query.equations (goal'.args.map (applyAll bindings'))
        (c'.standardizeApart supply').1.head) = verdict.rename π ∧
      ∀ made, verdict = .solved made →
        Alike asked (c.standardizeApart supply).2 (c'.standardizeApart supply').2
          ⟨deferred ++ (c.standardizeApart supply).1.body, bindings ++ made⟩
          ⟨deferred' ++ (c'.standardizeApart supply').1.body,
            bindings' ++ made.map (.rename π)⟩ := by
  obtain ⟨π, fixes, same, copies⟩ := h.exists_perm variant
    (known.clauses c (Store.mem_candidates.mp candidate).1)
    (known'.clauses c' (Store.mem_candidates.mp candidate').1)
  have grows := c.next_le_standardizeApart supply
  have grows' := c'.next_le_standardizeApart supply'
  obtain ⟨goals_eq, bindings_eq⟩ := PartialProof.mk.inj same
  obtain ⟨goal_eq, deferred_eq⟩ := List.cons.inj goals_eq
  have args : goal'.args.map (applyAll bindings') =
      (goal.args.map (applyAll bindings)).map (.rename π) := by
    rw [goal_eq, bindings_eq]
    exact goal.map_applyAll_rename π.injective bindings
  have attempted' : unify moves (Query.equations (goal'.args.map (applyAll bindings'))
      (c'.standardizeApart supply').1.head) = verdict.rename π := by
    rw [copies, Clause.head_rename, args, Query.equations_rename, unify_rename π.injective,
      attempted]
  refine ⟨π, attempted', fun made solved => ?_⟩
  subst solved
  refine ⟨(h.mono grows grows').covers, h.within.resolve known candidate attempted,
    h.within'.resolve known' candidate' attempted', π, fixes, ?_⟩
  rw [PartialProof.rename, copies, Clause.body_rename, deferred_eq, bindings_eq, List.map_append,
    List.map_append]

end PartialProof

namespace Query

open PartialProof (Alike)

variable {store store' : Store} {goals : List Atom} {supply supply' given given' : Supply}

/-- The branches that come of two items that are alike are alike, one by one,
and there are none in one store if there are none in the other. -/
theorem branches_alike {asked : List Variable} (known : supply.Knows store [])
    (known' : supply'.Knows store' []) {goal goal' : Atom} {deferred deferred' : List Atom}
    {bindings bindings' : List Binding}
    (h : Alike asked supply supply' ⟨goal :: deferred, bindings⟩ ⟨goal' :: deferred', bindings'⟩)
    (moves : Nat) {clauses clauses' : List Clause}
    (variants : List.Forall₂ Clause.Variant clauses clauses')
    (among : clauses ⊆ store.candidates goal) (among' : clauses' ⊆ store'.candidates goal') :
    Option.Rel (fun out out' => supply.next ≤ out.2.next ∧ supply'.next ≤ out'.2.next ∧
        List.Forall₂ (Alike asked out.2 out'.2) (out.1.map Branch.proof)
          (out'.1.map Branch.proof))
      (branches moves (goal.args.map (applyAll bindings)) deferred bindings clauses supply)
      (branches moves (goal'.args.map (applyAll bindings')) deferred' bindings' clauses'
        supply') := by
  induction variants generalizing supply supply' with
  | nil => exact .some ⟨Nat.le_refl _, Nat.le_refl _, .nil⟩
  | @cons c c' rest rest' variant _ ih =>
      obtain ⟨candidate, among⟩ := List.cons_subset.mp among
      obtain ⟨candidate', among'⟩ := List.cons_subset.mp among'
      have grows := c.next_le_standardizeApart supply
      have grows' := c'.next_le_standardizeApart supply'
      have others := ih (known.mono grows) (known'.mono grows') (h.mono grows grows') among among'
      rw [branches, branches]
      dsimp only
      generalize attempted : unify moves (equations (goal.args.map (applyAll bindings))
        (c.standardizeApart supply).1.head) = verdict
      obtain ⟨π, attempted', child⟩ := h.attempt known known' variant candidate candidate' attempted
      rw [attempted']
      cases verdict with
      | unfinished => exact .none
      | clash =>
          apply optionRel_imp others
          rintro _ _ ⟨more, more', linked⟩
          exact ⟨Nat.le_trans grows more, Nat.le_trans grows' more', linked⟩
      | solved made =>
          simp only [Verdict.rename]
          apply optionRel_map others
          rintro _ _ ⟨more, more', linked⟩
          refine ⟨Nat.le_trans grows more, Nat.le_trans grows' more', ?_⟩
          exact .cons ((child made rfl).mono more more') linked

/-! ### Queries in lockstep -/

/-- Two queries ask for the same variables and have made the same number of
steps, and what waits in them is alike, item by item. -/
structure Lockstep (supply supply' : Supply) (q q' : Query) : Prop where
  vars : q'.vars = q.vars
  steps : q'.steps = q.steps
  waiting : List.Forall₂ (Alike q.vars supply supply') q.queue.toList q'.queue.toList

/-- Queries in lockstep remain so when more symbols are handed out on both
sides. -/
theorem Lockstep.mono {q q' : Query} {later later' : Supply} (h : Lockstep supply supply' q q')
    (le : supply.next ≤ later.next) (le' : supply'.next ≤ later'.next) :
    Lockstep later later' q q' :=
  ⟨h.vars, h.steps, h.waiting.imp fun _ _ alike => alike.mono le le'⟩

/-- Queries in lockstep have as many items waiting. -/
theorem Lockstep.size_eq {q q' : Query} (h : Lockstep supply supply' q q') :
    q'.queue.size = q.queue.size := by
  rw [Queue.size_eq_length, Queue.size_eq_length, h.waiting.length_eq]

/-- Queries in lockstep come to their end together. -/
theorem Lockstep.isExhausted_eq {q q' : Query} (h : Lockstep supply supply' q q') :
    q'.isExhausted = q.isExhausted := by
  rw [isExhausted, isExhausted, Queue.isEmpty, Queue.isEmpty, h.size_eq]

/-- As many items wait on either side, so there is a visit on both sides or on
neither. -/
theorem Lockstep.map_visits {q q' : Query} (h : Lockstep supply supply' q q')
    {α : Type} {f : Event → α} {event event' : Event} (same : f event' = f event) :
    (q'.queue.toList.head?.toList.map fun _ => f event') =
      q.queue.toList.head?.toList.map fun _ => f event := by
  have waiting := h.waiting
  generalize q.queue.toList = items at waiting
  generalize q'.queue.toList = items' at waiting
  cases waiting with
  | nil => rfl
  | cons _ _ => exact congrArg (fun e => [e]) same

/-- Two queries about the same goals are in lockstep before they begin. -/
theorem lockstep_ofGoals (known : supply.Knows store goals) (known' : supply'.Knows store' goals)
    (verbose recording verbose' recording' : Bool) :
    Lockstep supply supply' (ofGoals goals verbose recording)
      (ofGoals goals verbose' recording') where
  vars := rfl
  steps := rfl
  waiting := by
    have within := within_ofGoals known verbose recording
    have within' := within_ofGoals known' verbose' recording'
    refine .cons ⟨fun x hx => ⟨within.asked x hx, within'.asked x hx⟩, ?_, ?_, Equiv.refl _,
      fun _ _ => rfl, (PartialProof.rename_id _).symm⟩ .nil
    · exact within.waiting _ List.mem_cons_self
    · exact within'.waiting _ List.mem_cons_self

/-- Candidates that are alike give the same answer, or none of them gives
one. -/
theorem judge_alike {q q' : Query} (vars : q'.vars = q.vars) {bindings bindings' : List Binding}
    (h : Alike q.vars supply supply' ⟨[], bindings⟩ ⟨[], bindings'⟩) :
    (q'.valuesUnder bindings').isGround = (q.valuesUnder bindings).isGround ∧
      ((q.valuesUnder bindings).isGround → q'.valuesUnder bindings' = q.valuesUnder bindings) := by
  obtain ⟨π, fixes, same⟩ := h.renamed
  obtain ⟨_, rfl⟩ := PartialProof.mk.inj same
  have asked : q'.valuesUnder (bindings.map (.rename π)) =
      q.valuesUnder (bindings.map (.rename π)) := by
    rw [valuesUnder, valuesUnder, vars]
  rw [asked]
  exact valuesUnder_rename π.injective fixes bindings

/-- Two steps that look the same and leave their queries in lockstep. -/
structure Lockstep.After (supply supply' : Supply) (out out' : Step) : Prop where
  grows : supply.next ≤ out.supply.next
  grows' : supply'.next ≤ out'.supply.next
  answer : out'.event.answer? = out.event.answer?
  successors : out'.event.successors = out.event.successors
  lockstep : Lockstep out.supply out'.supply out.query out'.query

/-- Two candidates are judged alike. -/
theorem Lockstep.judge {q q' : Query} (h : Lockstep supply supply' q q')
    {bindings bindings' : List Binding} {rest rest' : List PartialProof}
    (front : q.queue.toList = ⟨[], bindings⟩ :: rest)
    (front' : q'.queue.toList = ⟨[], bindings'⟩ :: rest') (moves : Nat) :
    Option.Rel (After supply supply') (q.step store moves supply)
      (q'.step store' moves supply') := by
  obtain ⟨queue, left, stepped⟩ := exists_step_of_candidate front
  obtain ⟨queue', left', stepped'⟩ := exists_step_of_candidate front'
  have waiting := h.waiting
  rw [front, front', List.forall₂_cons, ← left, ← left'] at waiting
  obtain ⟨first, others⟩ := waiting
  obtain ⟨grounds, values⟩ := judge_alike h.vars first
  rw [stepped, stepped', grounds]
  have steps : q'.steps + 1 = q.steps + 1 := congrArg (· + 1) h.steps
  by_cases ground : (q.valuesUnder bindings).isGround
  · rw [if_pos ground, if_pos ground, values ground]
    exact .some ⟨Nat.le_refl _, Nat.le_refl _, rfl, rfl, h.vars, steps, others⟩
  · rw [if_neg ground, if_neg ground]
    exact .some ⟨Nat.le_refl _, Nat.le_refl _, rfl, rfl, h.vars, steps, others⟩

/-- Two goals are resolved alike. -/
theorem Lockstep.expand {q q' : Query} (h : Lockstep supply supply' q q')
    (variants : store.Variant store') (known : supply.Knows store [])
    (known' : supply'.Knows store' []) {goal goal' : Atom} {deferred deferred' : List Atom}
    {bindings bindings' : List Binding} {rest rest' : List PartialProof}
    (front : q.queue.toList = ⟨goal :: deferred, bindings⟩ :: rest)
    (front' : q'.queue.toList = ⟨goal' :: deferred', bindings'⟩ :: rest') (moves : Nat) :
    Option.Rel (After supply supply') (q.step store moves supply)
      (q'.step store' moves supply') := by
  obtain ⟨queue, left, stepped⟩ := exists_step_of_goal front
  obtain ⟨queue', left', stepped'⟩ := exists_step_of_goal front'
  have waiting := h.waiting
  rw [front, front', List.forall₂_cons] at waiting
  obtain ⟨first, others⟩ := waiting
  have made := branches_alike known known' first moves
    (first.candidates variants) (List.Subset.refl _) (List.Subset.refl _)
  rw [stepped, stepped', Query.expand, Query.expand]
  apply optionRel_map made
  rintro out out' ⟨grows, grows', linked⟩
  refine ⟨grows, grows', rfl, ?_, h.vars, congrArg (· + 1) h.steps, ?_⟩
  · simpa [Event.successors] using linked.length_eq.symm
  · rw [Queue.toList_pushAll, Queue.toList_pushAll, left, left']
    exact List.rel_append (others.imp fun _ _ alike => alike.mono grows grows') linked

/-- Queries in lockstep make the same step, or neither of them makes one. -/
theorem Lockstep.step {q q' : Query} (h : Lockstep supply supply' q q')
    (variants : store.Variant store') (known : supply.Knows store [])
    (known' : supply'.Knows store' []) (moves : Nat) :
    Option.Rel (After supply supply') (q.step store moves supply)
      (q'.step store' moves supply') := by
  have waiting := h.waiting
  generalize front : q.queue.toList = items at waiting
  generalize front' : q'.queue.toList = items' at waiting
  cases waiting with
  | nil =>
      rw [step_of_empty front, step_of_empty front']
      exact .some ⟨Nat.le_refl _, Nat.le_refl _, rfl, rfl, h⟩
  | @cons item item' rest rest' first others =>
      -- A renamed item has as many goals, so both are candidates or neither
      -- is.
      obtain ⟨goals, bindings⟩ := item
      obtain ⟨π, _, rfl⟩ := first.renamed
      cases goals with
      | nil => exact h.judge front front' moves
      | cons goal deferred => exact h.expand variants known known' front front' moves

/-! ### Courses in lockstep -/

/-- What can be seen of a search without looking at its items: the answer of
each step and the number of items it added to the queue, the number of steps,
the number of items that wait, and whether none is left. -/
structure Sight where
  answers : List (Option Answer)
  successors : List Nat
  steps : Nat
  waiting : Nat
  exhausted : Bool

end Query

/-- What can be seen of a course. -/
def Course.seen (c : Course) : Query.Sight where
  answers := c.events.map Event.answer?
  successors := c.events.map Event.successors
  steps := c.query.steps
  waiting := c.query.queue.size
  exhausted := c.query.isExhausted

namespace Query

variable {store store' : Store} {goals : List Atom} {supply supply' given given' : Supply}

/-- Queries in lockstep look the same after any turns, or get stuck at the same
turn. -/
theorem Lockstep.course {q q' : Query} (h : Lockstep supply supply' q q')
    (variants : store.Variant store') (known : supply.Knows store [])
    (known' : supply'.Knows store' []) {turns turns' : List Turn}
    (moves : turns'.map Turn.moves = turns.map Turn.moves) :
    Option.Rel (fun c c' => c.seen = c'.seen) (q.course store turns supply)
      (q'.course store' turns' supply') := by
  induction turns generalizing turns' q q' supply supply' with
  | nil =>
      obtain rfl := List.map_eq_nil_iff.mp moves
      exact .some (by simp [Course.seen, h.steps, h.size_eq, h.isExhausted_eq])
  | cons turn turns ih =>
      obtain ⟨turn', turns', rfl, same, moves⟩ := List.map_eq_cons_iff.mp moves
      have drawn := supply.next_le_skip turn.drawn
      have drawn' := supply'.next_le_skip turn'.drawn
      have steps := (h.mono drawn drawn').step variants (known.mono drawn) (known'.mono drawn')
        turn.moves
      rw [Query.course, Query.course, same]
      generalize q.step store turn.moves (supply.skip turn.drawn) = made at steps
      generalize q'.step store' turn.moves (supply'.skip turn'.drawn) = made' at steps
      cases steps with
      | none => exact .none
      | @some out out' after =>
          have later := ih after.lockstep (known.mono (Nat.le_trans drawn after.grows))
            (known'.mono (Nat.le_trans drawn' after.grows')) moves
          apply optionRel_map later
          intro c c' same
          simp only [Course.seen, Sight.mk.injEq, List.map_cons, List.cons.injEq] at same ⊢
          exact ⟨⟨after.answer.symm, same.1⟩, ⟨after.successors.symm, same.2.1⟩, same.2.2⟩

/-- Clause variables never leak. Two stores whose clauses are variants of each
other, one by one and in order, are searched alike: whatever the goals, and
whichever variables the clauses of either store share with the goals or with
each other, every step adds equally many items to the queue and gives the same
answer, the two searches are exhausted at the same step, and one is stuck
exactly where the other is. -/
theorem seen_course_of_variants (variants : store.Variant store') (known : given.Knows store goals)
    (known' : given'.Knows store' goals) (verbose recording verbose' recording' : Bool)
    (turns turns' : List Turn) (moves : turns'.map Turn.moves = turns.map Turn.moves) :
    ((ofGoals goals verbose recording).course store turns given).map Course.seen =
      ((ofGoals goals verbose' recording').course store' turns' given').map Course.seen := by
  have start := lockstep_ofGoals known known' verbose recording verbose' recording'
  have courses := start.course variants known.of_goals known'.of_goals moves
  exact map_eq_of_optionRel courses fun _ _ same => same

/-- The rule of the small program, written with the variable of the query. -/
theorem seen_course_of_variants_captured :
    let captured : Store :=
      ⟨Tiny.store.facts, [⟨⟨⟨4, "q"⟩, [.var Tiny.y]⟩, [⟨⟨3, "p"⟩, [.var Tiny.y]⟩]⟩]⟩
    Tiny.store.Variant captured ∧ Tiny.supply.Knows captured Tiny.goals ∧
      ((ofGoals Tiny.goals false false).course captured [⟨0, 1⟩, ⟨7, 1⟩, ⟨0, 0⟩]
        Tiny.supply).map Course.seen =
        some ⟨[none, none, some Tiny.answer], [1, 1, 0], 3, 0, true⟩ := by
  intro captured
  have variant : Tiny.store.Variant captured := by
    refine ⟨(Store.Variant.refl Tiny.store).facts, .cons ⟨fun _ => Tiny.y, ?_, rfl⟩ .nil⟩
    intro x hx z hz _
    have single : ∀ x ∈ (Clause.rule ⟨⟨⟨4, "q"⟩, [.var Tiny.x]⟩, [⟨⟨3, "p"⟩, [.var Tiny.x]⟩]⟩).vars,
        x = Tiny.x := by decide
    exact (single x hx).trans (single z hz).symm
  have known : Tiny.supply.Knows captured Tiny.goals := by
    refine ⟨?_, Tiny.knows.goals⟩
    change ∀ c ∈ captured.clauses, ∀ z ∈ c.vars, z.serial < Tiny.supply.next
    decide
  refine ⟨variant, known, ?_⟩
  exact (seen_course_of_variants variant Tiny.knows known false false false false
    [⟨0, 1⟩, ⟨0, 1⟩, ⟨0, 0⟩] [⟨0, 1⟩, ⟨7, 1⟩, ⟨0, 0⟩] rfl).symm.trans rfl

end Query

end Resolvent
