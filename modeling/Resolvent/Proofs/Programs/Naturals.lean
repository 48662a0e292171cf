/-
# The natural numbers, one at a time

The search for a natural number never comes to its end, so nothing can be said
about all of its answers at once. What can be said is how it looks between two
requests. One item waits, however many numbers have been given: the goal for
what follows them, under bindings that put a cell into the last variable of the
one before. A request takes two steps. The first resolves the goal against both
clauses, the second finds the candidate that the fact has left, and the item of
the rule is what waits then.

The cells have variables of their own, with serial numbers that depend on what
others have drawn from the supply in the meantime. The invariant therefore
knows the last variable only, and that no binding is of that one.
-/

import Resolvent.Proofs.Programs.Peano
import Resolvent.Proofs.Search.Resumption

namespace Resolvent

namespace Search

variable {store : Store} {s s' : Search} {moves steps : Nat} {event : Event}

/-- A search after requests for its next answer, and what they gave. Between
two of them others may draw from the supply. -/
inductive Asked (store : Store) (start : Search) : List (Option Answer) → Search → Prop
  | nil : Asked store start [] start
  | next {results : List (Option Answer)} {result : Option Answer} {s s' : Search} {supply : Supply}
      {moves steps : Nat} (prior : Asked store start results s)
      (later : s.supply.next ≤ supply.next)
      (made : (nextAnswer store moves steps { s with supply }).told = some (result, s')) :
      Asked store start (results ++ [result]) s'

/-- When a goal has been resolved, its branches wait behind the others. How
many moves that took cannot be seen. -/
theorem exists_step_of_branches (store : Store) (after : Supply) (produced : List Branch)
    {goal : Atom} {deferred : List Atom} {bindings : List Binding} {rest : List PartialProof}
    (patient : s.patience = none)
    (front : s.query.queue.toList = ⟨goal :: deferred, bindings⟩ :: rest) :
    ∃ s' : Search, s'.query.queue.toList = rest ++ produced.map Branch.proof ∧
      s'.query.vars = s.query.vars ∧ s'.query.steps = s.query.steps + 1 ∧ s'.supply = after ∧
      s'.patience = none ∧ ∀ moves,
        Query.branches moves (goal.args.map (applyAll bindings)) deferred bindings
            (store.candidates goal) s.supply = some (produced, after) →
          s.step store moves = .stepped (.expanded goal (produced.map Branch.clause)) s' := by
  obtain ⟨queue, others, stepped⟩ := Query.exists_step_of_goal front
  let waiting := queue.pushAll (produced.map Branch.proof)
  let entry : Expansion := ⟨s.query.steps + 1, goal, produced.length, waiting.size⟩
  let out : Step := ⟨.expanded goal (produced.map Branch.clause), { s.query with
    queue := waiting
    steps := s.query.steps + 1
    history := if s.query.recording then s.query.history.push entry else s.query.history }, after⟩
  refine ⟨s.moved out, ?_, rfl, rfl, rfl, rfl, fun moves made => ?_⟩
  · simp [moved, out, waiting, others]
  · have resolved : s.query.step store moves s.supply = some out := by
      rw [stepped, Query.expand, made]
      rfl
    exact step_of_query_step patient resolved

/-- A candidate with ground values is an answer, and is gone from the queue. -/
theorem exists_step_of_answer (store : Store) {bindings : List Binding} {rest : List PartialProof}
    {answer : Answer} (patient : s.patience = none)
    (front : s.query.queue.toList = ⟨[], bindings⟩ :: rest)
    (values : s.query.valuesUnder bindings = answer) (ground : answer.isGround) :
    ∃ s' : Search, s'.query.queue.toList = rest ∧ s'.query.vars = s.query.vars ∧
      s'.query.steps = s.query.steps + 1 ∧ s'.supply = s.supply ∧ s'.patience = none ∧
      ∀ moves, s.step store moves = .stepped (.answered answer) s' := by
  obtain ⟨queue, others, stepped⟩ := Query.exists_step_of_candidate front
  let out : Step := ⟨.answered answer, { s.query with
    queue := queue
    steps := s.query.steps + 1
    answers := s.query.answers + 1 }, s.supply⟩
  refine ⟨s.moved out, others, rfl, rfl, rfl, rfl, fun moves => ?_⟩
  have judged : s.query.step store moves s.supply = some out := by
    rw [stepped, values, if_pos ground]
  exact step_of_query_step patient judged

end Search

namespace Programs.Peano

variable {σ : Symbols} {named : Nat → String → Variable} {x y : Variable} {n : Nat}
  {bs : List Binding} {supply : Supply} {s : Search}

/-- A search for the numbers, between two requests. So many cells have been
found for the variable, and the last variable is what waits. -/
structure Counting (store : Store) (σ : Symbols) (x : Variable) (n : Nat) (y : Variable)
    (bs : List Binding) (s : Search) : Prop where
  vars : s.query.vars = [x]
  steps : s.query.steps = 2 * n
  patient : s.patience = none
  waiting : s.query.queue.toList = [⟨[⟨σ.nat, [.var y]⟩], bs⟩]
  value : applyAll bs (.var x) = (cells σ).chain (List.replicate n ()) (.var y)
  unbound : ∀ b ∈ bs, b.var ≠ y
  covers : s.supply.Covers y
  covers_bound : ∀ b ∈ bs, s.supply.Covers b.var
  knows : s.supply.Knows store []

/-- What comes of a goal that asks for a number: it is zero, or the one after
some other. -/
def alternatives (σ : Symbols) (named : Nat → String → Variable) (y next : Variable)
    (bs : List Binding) : List Branch :=
  [⟨.fact (natZero σ), [], bs ++ [⟨y, .const σ.zero⟩]⟩,
    ⟨.rule (natSucc σ (named 5)), [⟨σ.nat, [.var next]⟩], bs ++ [⟨y, .app σ.succ [.var next]⟩]⟩]

/-- Both clauses for numbers fit such a goal. The cell is given a variable that
nobody has seen. -/
theorem branches_nat (known : supply.Knows (store σ named) []) (y : Variable) (bs : List Binding)
    (moves : Nat) :
    let next := supply.copy [named 5 "X"] (named 5 "X")
    Query.branches (moves + 1) [.var y] [] bs ((store σ named).candidates ⟨σ.nat, [.var y]⟩)
        supply = some (alternatives σ named y next bs, supply.skip 1) := by
  intro next
  have candidates : (store σ named).candidates ⟨σ.nat, [.var y]⟩ =
      [.fact (natZero σ), .rule (natSucc σ (named 5))] := by
    simp [Store.candidates, Store.clauses, store, Atom.matches?, Atom.arity, Clause.head, addZero,
      mulZero, natZero, addSucc, mulSucc, natSucc, σ.add_ne_nat, σ.mul_ne_nat]
  have zero : (Clause.fact (natZero σ)).standardizeApart supply = (.fact (natZero σ), supply) := rfl
  have succ : (Clause.rule (natSucc σ (named 5))).standardizeApart supply =
      (.rule ⟨⟨σ.nat, [.app σ.succ [.var next]]⟩, [⟨σ.nat, [.var next]⟩]⟩, supply.skip 1) := by
    have vars : (Clause.rule (natSucc σ (named 5))).vars = [named 5 "X"] := by
      simp [Clause.vars, Rule.vars, natSucc, varsOf_eq_eraseDups, List.eraseDups_cons]
    rw [Clause.standardizeApart_eq (known.clauses _ (mem_clauses.mpr (by simp))), vars]
    simp [Clause.rename, Clause.subst, natSucc, Atom.subst, next]
  rw [candidates, Query.branches, zero]
  simp [Query.branches, succ, Query.equations, natZero, Clause.head, Clause.body, unify,
    Equation.move, Verdict.after, alternatives]

/-- What is drawn from the supply between two requests makes no difference. -/
theorem Counting.mono {store : Store} (h : Counting store σ x n y bs s)
    (later : s.supply.next ≤ supply.next) : Counting store σ x n y bs { s with supply } where
  vars := h.vars
  steps := h.steps
  patient := h.patient
  waiting := h.waiting
  value := h.value
  unbound := h.unbound
  covers := h.covers.mono later
  covers_bound b hb := (h.covers_bound b hb).mono later
  knows := h.knows.mono later

/-- Something waits in a search for the numbers, so that it never comes to its
end. -/
theorem Counting.not_isExhausted {store : Store} (h : Counting store σ x n y bs s) :
    ¬ s.query.isExhausted := by
  rw [Query.isExhausted, Queue.isEmpty_iff, h.waiting]
  exact List.cons_ne_nil _ _

/-- One partial proof waits and no more. -/
theorem Counting.size_eq {store : Store} (h : Counting store σ x n y bs s) :
    s.query.queue.size = 1 := by
  rw [Queue.size_eq_length, h.waiting]
  rfl

/-- What is put into the last variable comes to stand behind all cells. -/
theorem applyAll_bind
    (value : applyAll bs (.var x) = (cells σ).chain (List.replicate n ()) (.var y)) (t : Term) :
    applyAll (bs ++ [⟨y, t⟩]) (.var x) = (cells σ).chain (List.replicate n ()) t := by
  simp [applyAll_append, value, Cells.apply_chain fun u _ => hasGround u]

/-- A request gives the number that is next and leaves one more cell. -/
theorem Counting.nextAnswer (h : Counting (store σ named) σ x n y bs s) :
    ∃ y' bs' s', Counting (store σ named) σ x (n + 1) y' bs' s' ∧ ∀ moves steps,
      Search.nextAnswer (store σ named) (moves + 1) (steps + 2) s =
        .answer ⟨[⟨x, numeral σ n⟩]⟩ s' := by
  let next := s.supply.copy [named 5 "X"] (named 5 "X")
  have fresh : ¬ s.supply.Covers next := s.supply.not_covers_copy _ _
  have covered : (s.supply.skip 1).Covers next := s.supply.covers_copy (List.mem_singleton_self _)
  have drawn := s.supply.next_le_skip 1
  have asked : [Term.var y].map (applyAll bs) = [.var y] := by
    have unbound : applyAll bs (.var y) = .var y := applyAll_eq_self (by simpa using h.unbound)
    simp [unbound]
  obtain ⟨between, front, vars, steps, drew, patient, resolve⟩ := Search.exists_step_of_branches
    (store σ named) (s.supply.skip 1) (alternatives σ named y next bs) h.patient h.waiting
  have values : between.query.valuesUnder (bs ++ [⟨y, .const σ.zero⟩]) = ⟨[⟨x, numeral σ n⟩]⟩ := by
    simp [Query.valuesUnder, vars, h.vars, applyAll_bind h.value, numeral_eq_whole, Cells.whole,
      cells]
  have ground : Answer.isGround ⟨[⟨x, numeral σ n⟩]⟩ := by
    simp [Answer.isGround, isGround_numeral]
  obtain ⟨s', waiting, vars', steps', drew', patient', judge⟩ :=
    Search.exists_step_of_answer (store σ named) patient front values ground
  refine ⟨next, bs ++ [⟨y, .app σ.succ [.var next]⟩], s', ?kept, fun moves steps => ?given⟩
  case given =>
    have expanded := resolve (moves + 1) (by rw [asked, branches_nat h.knows])
    have busy : ¬ between.query.isExhausted := by
      rw [Query.isExhausted, Queue.isEmpty_iff, front]
      exact List.cons_ne_nil _ _
    rw [Search.nextAnswer_of_step h.not_isExhausted expanded rfl]
    exact Search.nextAnswer_of_answer busy (judge (moves + 1))
  case kept =>
    have here : s'.supply = s.supply.skip 1 := drew'.trans drew
    exact {
      vars := vars'.trans (vars.trans h.vars)
      steps := by rw [steps', steps, h.steps, Nat.mul_succ]
      patient := patient'
      waiting := waiting
      value := by
        rw [applyAll_bind h.value]
        simp [List.replicate_succ', Cells.chain, Cells.cell, cells]
      unbound := by
        intro b hb same
        refine fresh (same ▸ ?_)
        rcases List.mem_append.mp hb with old | new
        · exact h.covers_bound b old
        · rw [List.mem_singleton.mp new]
          exact h.covers
      covers := here ▸ covered
      covers_bound := by
        intro b hb
        rw [here]
        rcases List.mem_append.mp hb with old | new
        · exact (h.covers_bound b old).mono drawn
        · rw [List.mem_singleton.mp new]
          exact h.covers.mono drawn
      knows := here ▸ h.knows.mono drawn }

/-- To begin with nothing has been counted. -/
theorem counting_ofGoals (verbose recording : Bool) (printed : String)
    (known : supply.Knows (store σ named) [⟨σ.nat, [.var x]⟩]) :
    Counting (store σ named) σ x 0 x []
      { query := .ofGoals [⟨σ.nat, [.var x]⟩] verbose recording, supply, printed } where
  vars := by simp [Query.ofGoals, varsOf_eq_eraseDups, List.eraseDups_cons]
  steps := rfl
  patient := rfl
  waiting := rfl
  value := rfl
  unbound := List.forall_mem_nil _
  covers := known.goals _ (List.mem_singleton_self _) x ⟨_, List.mem_singleton_self _, by simp⟩
  covers_bound := List.forall_mem_nil _
  knows := known.of_goals

/-- The answers to so many requests: the numbers from zero on. -/
def counted (σ : Symbols) (x : Variable) (k : Nat) : List (Option Answer) :=
  (List.range k).map fun n => some ⟨[⟨x, numeral σ n⟩]⟩

/-- The next request gives the next number. -/
theorem counted_succ (σ : Symbols) (x : Variable) (k : Nat) :
    counted σ x (k + 1) = counted σ x k ++ [some ⟨[⟨x, numeral σ k⟩]⟩] := by
  simp [counted, List.range_succ]

section

variable {start : Search} {results : List (Option Answer)} {k : Nat}

/-- However many requests there have been, they have given the numbers in
order. -/
theorem Counting.of_asked (begun : Counting (store σ named) σ x 0 y bs start)
    (asked : start.Asked (store σ named) results s) :
    results = counted σ x results.length ∧
      ∃ y bs, Counting (store σ named) σ x results.length y bs s := by
  induction asked with
  | nil => exact ⟨rfl, _, _, begun⟩
  | @next results result s s' supply moves steps _ later made ih =>
      obtain ⟨given, y, bs, counting⟩ := ih
      obtain ⟨y', bs', s'', counting', answers⟩ := (counting.mono later).nextAnswer
      obtain ⟨rfl, rfl⟩ := Search.told_unique made (congrArg Pull.told (answers 0 0))
      rw [List.length_append, List.length_singleton, counted_succ, ← given]
      exact ⟨rfl, y', bs', counting'⟩

/-- There is no last number. -/
theorem Counting.exists_asked (begun : Counting (store σ named) σ x 0 y bs start) (k : Nat) :
    ∃ s, start.Asked (store σ named) (counted σ x k) s := by
  induction k with
  | zero => exact ⟨start, .nil⟩
  | succ k ih =>
      obtain ⟨s, asked⟩ := ih
      obtain ⟨_, y, bs, counting⟩ := begun.of_asked asked
      obtain ⟨_, _, s', _, answers⟩ := counting.nextAnswer
      rw [counted, List.length_map, List.length_range] at answers
      rw [counted_succ]
      exact ⟨s', .next asked (Nat.le_refl _) (congrArg Pull.told (answers 0 0))⟩

end

/-- A knowledge base that is given the program, and nothing else, counts when
it is asked for a number. A request that is allowed one move and two steps
gives the next number; after any number of requests a single item waits, and
two steps have been made for each of them. -/
theorem counts_in_one_item (v : Vocabulary) : ∃ clauses base,
    KnowledgeBase.addProgram ⟨{}, v⟩ peano.source = (.ok clauses, base) ∧
      let σ := symbols base.vocabulary
      ∀ (x : Variable) (verbose recording : Bool) (given : Supply) (printed : String),
        given.Knows base.store [⟨σ.nat, [.var x]⟩] →
        let start : Search :=
          { query := .ofGoals [⟨σ.nat, [.var x]⟩] verbose recording, supply := given, printed }
        (∀ k, ∃ s, start.Asked base.store (counted σ x k) s) ∧
        ∀ results s, start.Asked base.store results s →
          results = counted σ x results.length ∧
          s.query.queue.size = 1 ∧ s.query.steps = 2 * results.length ∧ ¬ s.query.isExhausted ∧
          ∀ supply moves steps, s.supply.next ≤ supply.next → ∃ s',
            Search.nextAnswer base.store (moves + 1) (steps + 2) { s with supply } =
              .answer ⟨[⟨x, numeral σ results.length⟩]⟩ s' := by
  obtain ⟨clauses, base, named, added, _, stored⟩ := exists_base v
  refine ⟨clauses, base, added, fun x verbose recording given printed known => ?_⟩
  rw [stored] at known ⊢
  have begun := counting_ofGoals verbose recording printed known
  refine ⟨begun.exists_asked, fun results s asked => ?_⟩
  obtain ⟨counts, y, bs, counting⟩ := begun.of_asked asked
  refine ⟨counts, counting.size_eq, counting.steps, counting.not_isExhausted,
    fun supply moves steps later => ?_⟩
  obtain ⟨_, _, s', _, answers⟩ := (counting.mono later).nextAnswer
  exact ⟨s', answers moves steps⟩

/-- The first three requests give zero, one and two, with six steps. -/
theorem counts_to_two : ∃ clauses base x given s,
    KnowledgeBase.addProgram {} peano.source = (.ok clauses, base) ∧
      let σ := symbols base.vocabulary
      given.Knows base.store [⟨σ.nat, [.var x]⟩] ∧
      Search.Asked base.store { query := .ofGoals [⟨σ.nat, [.var x]⟩] false false, supply := given }
        [some ⟨[⟨x, numeral σ 0⟩]⟩, some ⟨[⟨x, numeral σ 1⟩]⟩, some ⟨[⟨x, numeral σ 2⟩]⟩] s ∧
      s.query.queue.size = 1 ∧ s.query.steps = 6 ∧ ¬ s.query.isExhausted := by
  obtain ⟨clauses, base, added, counts⟩ := counts_in_one_item {}
  obtain ⟨x, _, given, _, known⟩ := KnowledgeBase.exists_fresh added
  have known := known ⟨(symbols base.vocabulary).nat, [.var x]⟩ (by simp)
  obtain ⟨reached, each⟩ := counts x false false given "" known
  obtain ⟨s, asked⟩ := reached 3
  obtain ⟨_, one, steps, more, _⟩ := each _ s asked
  exact ⟨clauses, base, x, given, s, added, known, asked, one, steps, more⟩

end Programs.Peano

end Resolvent
