/-
# Eager resolution

A query keeps goals as they were written and applies the bindings made so far
only to the goal that is being resolved. The obvious alternative keeps no
bindings at all: whatever is bound in a step is put in place at once, in the
goals that wait, in the body of the rule, and in the values of the query
variables. Here this alternative is defined and shown to go through the very
same search. Every item of its queue is the item of the query with its bindings
applied throughout, and it gives the same answers at the same steps and gets
stuck at the same steps.

Old bindings are applied also to the body of a copy that they have never seen.
They leave it alone, because the copy is made of variables that nobody had seen
before. That is all that is needed; the bindings may well be cyclic.
-/

import Resolvent.Proofs.Search.Course

namespace Resolvent

/-- The answer with bindings applied to all its values. -/
def Answer.instantiate (bindings : List Binding) (answer : Answer) : Answer :=
  ⟨answer.values.map fun b => ⟨b.var, applyAll bindings b.term⟩⟩

namespace Eager

/-- Goals still to be proven, and what has become of the query variables. -/
structure Item where
  goals : List Atom
  answer : Answer
  deriving DecidableEq

/-- An item with bindings applied throughout. -/
def Item.instantiate (bindings : List Binding) (item : Item) : Item :=
  ⟨item.goals.map (Atom.instantiate bindings), item.answer.instantiate bindings⟩

/-- Resolve a goal against clauses in turn. The bindings that are made are
applied at once to all that is left, and forgotten. -/
def resolve (moves : Nat) (goal : Atom) (deferred : List Atom) (answer : Answer) :
    List Clause → Supply → Option (List Item × Supply)
  | [], supply => some ([], supply)
  | clause :: rest, supply =>
    let (fresh, supply) := clause.standardizeApart supply
    match unify moves (Query.equations goal.args fresh.head) with
    | .unfinished => none
    | .clash => resolve moves goal deferred answer rest supply
    | .solved made =>
      (resolve moves goal deferred answer rest supply).map fun (others, supply) =>
        (Item.instantiate made ⟨deferred ++ fresh.body, answer⟩ :: others, supply)

/-- Take the oldest item. Without goals it is an answer, if it is ground;
otherwise its first goal is resolved. -/
def step (store : Store) (moves : Nat) (supply : Supply) :
    List Item → Option (Option Answer × List Item × Supply)
  | [] => some (none, [], supply)
  | ⟨[], answer⟩ :: rest => some (if answer.isGround then some answer else none, rest, supply)
  | ⟨goal :: deferred, answer⟩ :: rest =>
    (resolve moves goal deferred answer (store.candidates goal) supply).map
      fun (produced, supply) => (none, rest ++ produced, supply)

/-- What an eager search has made of some turns: what each step answered, and
what waits. -/
structure Course where
  answers : List (Option Answer)
  queue : List Item
  supply : Supply

/-- Make one step in each turn. -/
def course (store : Store) : List Query.Turn → List Item → Supply → Option Course
  | [], queue, supply => some ⟨[], queue, supply⟩
  | turn :: turns, queue, supply =>
    (step store turn.moves (supply.skip turn.drawn) queue).bind fun (answer, queue, supply) =>
      (course store turns queue supply).map fun later =>
        { later with answers := answer :: later.answers }

/-- A search that has not begun: every query variable still stands for
itself. -/
def ofGoals (goals : List Atom) : List Item :=
  [⟨goals, ⟨(varsOf (goals.flatMap Atom.args)).map fun x => ⟨x, .var x⟩⟩⟩]

end Eager

/-! ### A query with its bindings applied -/

namespace Query

/-- A partial proof with its bindings applied to its goals and to the query
variables. -/
def instanceOf (q : Query) (item : PartialProof) : Eager.Item :=
  ⟨item.goals.map (Atom.instantiate item.bindings), q.valuesUnder item.bindings⟩

/-- What waits in a query, with all bindings applied. -/
def instances (q : Query) : List Eager.Item :=
  q.queue.toList.map q.instanceOf

/-- Values under bindings in sequence are those under the first ones, with the
others put into them. -/
theorem valuesUnder_append (q : Query) (bs cs : List Binding) :
    q.valuesUnder (bs ++ cs) = (q.valuesUnder bs).instantiate cs := by
  simp [valuesUnder, Answer.instantiate, applyAll_append]

end Query

/-- An atom is instantiated in sequence by instantiating it twice. -/
theorem Atom.instantiate_append (bs cs : List Binding) (a : Atom) :
    a.instantiate (bs ++ cs) = (a.instantiate bs).instantiate cs := by
  simp [instantiate, applyAll_append]

/-- An atom in which no bound variable occurs is left as it is. -/
theorem Atom.instantiate_eq_self {bindings : List Binding} {a : Atom}
    (absent : ∀ b ∈ bindings, ¬ a.Mentions b.var) : a.instantiate bindings = a := by
  have same : a.args.map (applyAll bindings) = a.args := by
    rw [List.map_congr_left (g := id), List.map_id]
    intro t ht
    apply applyAll_eq_self
    intro b hb occurs
    exact absent b hb ⟨t, ht, occurs⟩
  rw [instantiate, same]

/-- The bindings of a partial proof have never seen the body of a fresh
copy. -/
theorem PartialProof.Within.instantiate_fresh {store : Store} {supply : Supply}
    (known : supply.Knows store []) {p : PartialProof} (h : p.Within supply) {c : Clause}
    (hc : c ∈ store.clauses) {a : Atom} (ha : a ∈ (c.standardizeApart supply).1.body) :
    a.instantiate p.bindings = a := by
  apply Atom.instantiate_eq_self
  intro b hb occurs
  rw [Clause.standardizeApart_eq (known.clauses c hc), Clause.body_rename] at ha
  obtain ⟨part, among, rfl⟩ := List.mem_map.mp ha
  have in_clause : ∀ y, part.Mentions y → y ∈ c.vars :=
    fun y hy => Clause.mem_vars.mpr (.inr ⟨part, among, hy⟩)
  obtain ⟨y, _, copied⟩ := Node.exists_copy_of_mentions in_clause occurs
  have seen := h b.var (.inr ⟨b, hb, .inl rfl⟩)
  rw [copied] at seen
  exact supply.not_covers_copy _ _ seen

namespace Eager

variable {store : Store} {goals : List Atom} {supply : Supply} {q : Query}

/-- Resolving a goal eagerly leads to the branches of the query with their
bindings applied. -/
theorem resolve_instantiate (known : supply.Knows store []) {goal : Atom} {deferred : List Atom}
    {bindings : List Binding} (h : PartialProof.Within supply ⟨goal :: deferred, bindings⟩)
    (moves : Nat) {clauses : List Clause} (among : clauses ⊆ store.candidates goal) :
    resolve moves (goal.instantiate bindings) (deferred.map (Atom.instantiate bindings))
        (q.valuesUnder bindings) clauses supply =
      (Query.branches moves (goal.args.map (applyAll bindings)) deferred bindings clauses
        supply).map fun made => (made.1.map (q.instanceOf ·.proof), made.2) := by
  induction clauses generalizing supply with
  | nil => rfl
  | cons c rest ih =>
      obtain ⟨candidate, among⟩ := List.cons_subset.mp among
      have grows := c.next_le_standardizeApart supply
      have others := ih (known.mono grows) (h.mono grows) among
      have fresh : ((c.standardizeApart supply).1.body).map (Atom.instantiate bindings) =
          (c.standardizeApart supply).1.body := by
        rw [List.map_congr_left (g := id), List.map_id]
        intro a ha
        exact h.instantiate_fresh known (Store.mem_candidates.mp candidate).1 ha
      have first (made : List Binding) :
          Item.instantiate made ⟨deferred.map (Atom.instantiate bindings) ++
              (c.standardizeApart supply).1.body, q.valuesUnder bindings⟩ =
            q.instanceOf ⟨deferred ++ (c.standardizeApart supply).1.body, bindings ++ made⟩ := by
        rw [← fresh, ← List.map_append, Item.instantiate, Query.instanceOf,
          q.valuesUnder_append, List.map_map, fresh]
        congr 1
        apply List.map_congr_left
        intro a _
        exact (a.instantiate_append bindings made).symm
      rw [resolve, Query.branches]
      simp only [Atom.instantiate]
      cases unify moves (Query.equations (goal.args.map (applyAll bindings))
          (c.standardizeApart supply).1.head) with
      | unfinished => rfl
      | clash => exact others
      | solved made =>
          simp only [Atom.instantiate] at others
          simp only [others, Option.map_map]
          congr 1
          funext others
          exact congrArg (fun item => (item :: others.1.map (q.instanceOf ·.proof), others.2))
            (first made)

/-- One step of the eager search is the step of the query with all bindings
applied. -/
theorem step_instances (known : supply.Knows store []) (within : q.Within supply) (moves : Nat) :
    step store moves supply q.instances = (q.step store moves supply).map fun out =>
      (out.event.answer?, out.query.instances, out.supply) := by
  cases waiting : q.queue.toList with
  | nil =>
      rw [Query.step_of_empty waiting, Query.instances, waiting]
      simp [step, Query.instances, waiting, Event.answer?]
  | cons item rest =>
      obtain ⟨goals, bindings⟩ := item
      cases goals with
      | nil =>
          obtain ⟨queue, others, stepped⟩ := Query.exists_step_of_candidate waiting
          rw [stepped, Query.instances, waiting, List.map_cons]
          simp only [Query.instanceOf, List.map_nil, step, Option.map_some]
          by_cases ground : (q.valuesUnder bindings).isGround
          · simp only [ground, if_true, ← others]
            rfl
          · simp only [ground, if_false, Bool.false_eq_true, ← others]
            rfl
      | cons goal deferred =>
          obtain ⟨queue, others, stepped⟩ := Query.exists_step_of_goal waiting
          have first := (within.of_front waiting).1
          have candidates : store.candidates (goal.instantiate bindings) =
              store.candidates goal := by
            rw [Atom.instantiate_eq_subst, Store.candidates_subst]
          rw [stepped, Query.instances, waiting, List.map_cons, Query.instanceOf, List.map_cons,
            step, candidates, resolve_instantiate known first moves (List.Subset.refl _),
            Query.expand, Option.map_map, Option.map_map]
          congr 1
          funext made
          show (none, rest.map q.instanceOf ++ made.1.map (q.instanceOf ·.proof), made.2) =
            (none, (queue.pushAll (made.1.map Branch.proof)).toList.map q.instanceOf, made.2)
          rw [Queue.toList_pushAll, others, List.map_append, List.map_map]
          rfl

/-- Whatever turns are made, the eager search has the queue of the query with
all bindings applied, and has given the same answers at the same steps. -/
theorem course_instances (known : supply.Knows store []) (within : q.Within supply)
    (turns : List Query.Turn) :
    course store turns q.instances supply = (q.course store turns supply).map fun c =>
      ⟨c.events.map Event.answer?, c.query.instances, c.supply⟩ := by
  induction turns generalizing q supply with
  | nil => rfl
  | cons turn turns ih =>
      have drawn := supply.next_le_skip turn.drawn
      rw [course, Query.course, step_instances (known.mono drawn) (within.mono drawn)]
      cases made : q.step store turn.moves (supply.skip turn.drawn) with
      | none => rfl
      | some out =>
          have stepped := Query.stepped_of_step made
          have within := (within.mono drawn).step (known.mono drawn) stepped
          have grows := stepped.next_le
          simp only [Option.map_some, Option.bind_some, Option.map_map,
            ih (known.mono (Nat.le_trans drawn grows)) within]
          rfl

/-- The search that applies bindings lazily and the one that applies them at
once are the same search. For all goals and all turns, one gets stuck if the
other does, the items that wait correspond one by one, each goal being that of
the query with its bindings applied, and the answers are given at the same
steps. -/
theorem course_ofGoals (known : supply.Knows store goals) (verbose recording : Bool)
    (turns : List Query.Turn) :
    course store turns (ofGoals goals) supply =
      ((Query.ofGoals goals verbose recording).course store turns supply).map fun c =>
        ⟨c.events.map Event.answer?, c.query.queue.toList.map fun item =>
          ⟨item.goals.map (Atom.instantiate item.bindings), c.query.valuesUnder item.bindings⟩,
          c.supply⟩ := by
  have start : (Query.ofGoals goals verbose recording).instances = ofGoals goals := by
    have unbound : goals.map (Atom.instantiate []) = goals := by
      rw [List.map_congr_left fun a _ => Atom.instantiate_eq_self (a := a) (by simp), List.map_id']
    simp [Query.instances, Query.instanceOf, Query.ofGoals, ofGoals, unbound, Query.valuesUnder]
  have asked := Query.within_ofGoals known verbose recording
  rw [← start, course_instances known.of_goals asked]
  rfl

/-- With the facts `p(A, A)` and `r(B)`, the goals `p(X, f(X))` and `r(X)` make
the fresh `A` stand for `f(A)`. The second goal then is `r(f(A))`, and the
value of `X` is `f(A)`. -/
theorem course_ofGoals_cyclic :
    let store : Store := ⟨[⟨⟨0, "p"⟩, [.var ⟨1, "A"⟩, .var ⟨1, "A"⟩]⟩,
      ⟨⟨2, "r"⟩, [.var ⟨3, "B"⟩]⟩], []⟩
    let x : Term := .var ⟨4, "X"⟩
    let goals : List Atom := [⟨⟨0, "p"⟩, [x, .app ⟨5, "f"⟩ [x]]⟩, ⟨⟨2, "r"⟩, [x]⟩]
    let a : Term := .app ⟨5, "f"⟩ [.var ⟨6, "A"⟩]
    Supply.Knows ⟨6⟩ store goals ∧
      course store [⟨0, 2⟩] (ofGoals goals) ⟨6⟩ =
        some ⟨[none], [⟨[⟨⟨2, "r"⟩, [a]⟩], ⟨[⟨⟨4, "X"⟩, a⟩]⟩⟩], ⟨7⟩⟩ ∧
      course store [⟨0, 2⟩, ⟨3, 1⟩, ⟨0, 0⟩] (ofGoals goals) ⟨6⟩ =
        some ⟨[none, none, none], [], ⟨11⟩⟩ := by
  intro store x goals a
  have known : Supply.Knows ⟨6⟩ store goals := by
    constructor
    · change ∀ c ∈ store.clauses, ∀ z ∈ c.vars, z.serial < 6
      decide
    · rintro g hg z ⟨t, ht, hz⟩
      have all : ∀ g ∈ goals, ∀ t ∈ g.args, ∀ z ∈ t.vars, z.serial < 6 := by decide
      exact all g hg t ht z hz
  refine ⟨known, ?_, ?_⟩
  · exact (course_ofGoals known false false [⟨0, 2⟩]).trans rfl
  · exact (course_ofGoals known false false [⟨0, 2⟩, ⟨3, 1⟩, ⟨0, 0⟩]).trans rfl

end Eager

end Resolvent
