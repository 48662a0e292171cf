/-
# Searches that give known answers

To know all answers of a search, in their order and with their repetitions, it
is enough to know the proofs of its goals. A schedule says which answer is due
at which depth, at most one at each. Every proof must be for the answer that is
due, as many nodes being in the proof as the depth says, and there must be one
proof of that kind only. Then the levels of the search tree give the answers
that are due on them, once each, and so does the search, as it goes through the
tree level by level.

This says nothing of an end. With a last level, and without attempts that go on
for ever, the search gives the answers of the schedule and is exhausted then.
-/

import Resolvent.Proofs.Search.Descent
import Resolvent.Proofs.Search.GoalOrder
import Resolvent.Proofs.Search.Modes
import Resolvent.Proofs.Search.Settling

namespace Resolvent

/-- An answer gives each of its variables the value that stands beside it. -/
theorem Answer.value_of_mem (answer : Answer) (distinct : (answer.values.map Binding.var).Nodup)
    {b : Binding} (hb : b ∈ answer.values) : answer.value b.var = b.term := by
  obtain ⟨b', found⟩ := Option.isSome_iff_exists.mp
    (List.find?_isSome (p := fun b' => b'.var = b.var) |>.mpr ⟨b, hb, decide_eq_true rfl⟩)
  have same : b'.var = b.var := by simpa using List.find?_some found
  obtain rfl := List.inj_on_of_nodup_map distinct (List.mem_of_find?_eq_some found) hb same
  simp only [value, found, Option.map_some, Option.getD_some]

/-- The answers to a list of goals, each with the depth at which it is due. -/
structure Schedule (store : Store) (goals : List Atom) (due : List (Nat × Answer)) : Prop where
  sorted : due.Pairwise fun p p' => p.1 < p'.1
  asked : ∀ p ∈ due, p.2.values.map Binding.var = varsOf (goals.flatMap Atom.args)
  ground : ∀ p ∈ due, p.2.isGround
  /-- A proof is for an answer that is due, and at its depth. -/
  forest_iff : ∀ (τ : Substitution) (d : Nat), Forest store (goals.map (Atom.subst τ)) d ↔
    ∃ p ∈ due, p.1 = d ∧ ∀ b ∈ p.2.values, τ b.var = b.term
  /-- What is proved in as many steps is proved by the same ones. -/
  unique : ∀ (τ : Substitution) (cs cs' : List Clause),
    Unfolds store cs (goals.map (Atom.subst τ)) [] →
      Unfolds store cs' (goals.map (Atom.subst τ)) [] → cs.length = cs'.length → cs = cs'

namespace Schedule

variable {store : Store} {goals : List Atom} {due : List (Nat × Answer)} {base : Supply} {d : Nat}
  {n : Node} {verbose recording : Bool} {p p' : Nat × Answer}

/-- An answer that is due has a proof of just the depth at which it is due. -/
theorem forest_of_mem (h : Schedule store goals due) (hp : p ∈ due) :
    Forest store (goals.map (Atom.subst p.2.value)) p.1 := by
  refine (h.forest_iff _ _).mpr ⟨p, hp, rfl, fun b hb => p.2.value_of_mem ?_ hb⟩
  rw [h.asked p hp]
  exact nodup_varsOf _

/-- One answer is due at a depth. -/
theorem eq_of_depth_eq (h : Schedule store goals due) (hp : p ∈ due) (hp' : p' ∈ due)
    (same : p.1 = p'.1) : p = p' := by
  by_contra different
  have : Std.Symm fun p p' : Nat × Answer => p.1 ≠ p'.1 := ⟨fun _ _ => Ne.symm⟩
  exact (h.sorted.imp Nat.ne_of_lt).forall hp hp' different same

/-- At one depth one answer is due at most. -/
theorem filter_depth_eq (h : Schedule store goals due) {answer : Answer}
    (hp : (d, answer) ∈ due) : due.filter (·.1 = d) = [(d, answer)] := by
  have distinct : due.Nodup :=
    (h.sorted.imp Nat.ne_of_lt).imp fun apart same => apart (by rw [same])
  have all : ∀ p ∈ due.filter (·.1 = d), p = (d, answer) := by
    intro p there
    obtain ⟨there, depth⟩ := List.mem_filter.mp there
    exact h.eq_of_depth_eq there hp (of_decide_eq_true depth)
  have same := List.eq_replicate_of_mem all
  have few : (due.filter (·.1 = d)).length ≤ 1 := by
    rw [← List.nodup_replicate (a := (d, answer)), ← same]
    exact distinct.filter _
  have some_due : 0 < (due.filter (·.1 = d)).length :=
    List.length_pos_of_mem (List.mem_filter.mpr ⟨hp, decide_eq_true rfl⟩)
  rw [same, Nat.le_antisymm few some_due]
  rfl

/-- The values that an answer has by way of a substitution. -/
theorem values_eq (h : Schedule store goals due) (hp : p ∈ due) {τ : Substitution}
    (agree : ∀ b ∈ p.2.values, τ b.var = b.term) :
    p.2.values = (varsOf (goals.flatMap Atom.args)).map fun x => ⟨x, τ x⟩ := by
  rw [← h.asked p hp, List.map_map]
  refine ((List.map_congr_left fun b hb => ?_).trans (List.map_id _)).symm
  exact congrArg (Binding.mk b.var) (agree b hb)

/-- Under substitutions that agree with the same answer the goals have the same
instances. -/
theorem map_subst_eq (h : Schedule store goals due) (hp : p ∈ due) {τ τ' : Substitution}
    (agree : ∀ b ∈ p.2.values, τ b.var = b.term) (agree' : ∀ b ∈ p.2.values, τ' b.var = b.term) :
    goals.map (Atom.subst τ) = goals.map (Atom.subst τ') := by
  refine List.map_congr_left fun a ha => Atom.subst_congr fun x ⟨t, ht, hx⟩ => ?_
  have asked : x ∈ p.2.values.map Binding.var := by
    rw [h.asked p hp, mem_varsOf]
    exact ⟨t, List.mem_flatMap.mpr ⟨a, ha, ht⟩, hx⟩
  obtain ⟨b, hb, rfl⟩ := List.mem_map.mp asked
  rw [agree b hb, agree' b hb]

/-- A single answer is due, and the goals are proved in one way only. -/
theorem single {P : Atom → Prop} {x : Variable} {t : Term}
    (asked : varsOf (goals.flatMap Atom.args) = [x]) (ground : t.isGround)
    (forest_iff : ∀ (τ : Substitution) n,
      Forest store (goals.map (Atom.subst τ)) n ↔ τ x = t ∧ n = d)
    (unambiguous : Unambiguous store P) (kind : ∀ τ, ∀ a ∈ goals, P (a.subst τ)) :
    Schedule store goals [(d, ⟨[⟨x, t⟩]⟩)] where
  sorted := List.pairwise_singleton _ _
  asked p hp := by
    rw [List.mem_singleton.mp hp, asked]
    rfl
  ground p hp := by
    rw [List.mem_singleton.mp hp]
    simpa [Answer.isGround] using ground
  forest_iff τ n := by simp [forest_iff, and_comm, eq_comm]
  unique τ cs cs' first second _ :=
    unambiguous.unfolds_unique first second (List.forall_mem_map.mpr (kind τ))

/-! ### Levels -/

/-- The bindings of a candidate, read as a substitution, agree with the answer
that is due. -/
theorem exists_agree (h : Schedule store goals due) (known : base.Knows store goals)
    (there : n ∈ Node.level store goals base d) (solved : SolvedForm n.proof.bindings)
    (candidate : n.proof.goals = []) :
    ∃ p ∈ due, p.1 = d ∧ ∀ b ∈ p.2.values, applyAll n.proof.bindings (.var b.var) = b.term := by
  obtain ⟨cs, rfl, unfolds⟩ := Node.exists_unfolds known there solved.satisfies
  rw [candidate] at unfolds
  exact (h.forest_iff _ _).mp unfolds.forest

/-- What a node gives is due. -/
theorem mem_of_answer? (h : Schedule store goals due) (known : base.Knows store goals)
    (there : n ∈ Node.level store goals base d) (solved : SolvedForm n.proof.bindings)
    {answer : Answer} (given : n.answer? (.ofGoals goals verbose recording) = some answer) :
    (d, answer) ∈ due := by
  unfold Node.answer? at given
  split at given
  · next candidate =>
      obtain ⟨p, hp, rfl, agree⟩ := h.exists_agree known there solved candidate.1
      cases given
      have same : (Query.ofGoals goals verbose recording).valuesUnder n.proof.bindings = p.2 :=
        congrArg Answer.mk (h.values_eq hp agree).symm
      rw [same]
      exact hp
  · cases given

/-- What is due is given by some node. -/
theorem exists_answer? (h : Schedule store goals due) (known : base.Knows store goals)
    (solved : ∀ n ∈ Node.level store goals base d, SolvedForm n.proof.bindings)
    {answer : Answer} (hp : (d, answer) ∈ due) :
    ∃ n ∈ Node.level store goals base d,
      n.answer? (.ofGoals goals verbose recording) = some answer := by
  obtain ⟨n, there, candidate, -⟩ := Node.exists_candidate known (Node.covered_root known)
    (Substitution.satisfies_nil _) (h.forest_of_mem hp)
  obtain ⟨p, hp', depth, agree⟩ := h.exists_agree known there (solved n there) candidate
  obtain rfl := h.eq_of_depth_eq hp' hp depth
  have same : (Query.ofGoals goals verbose recording).valuesUnder n.proof.bindings = answer :=
    congrArg Answer.mk (h.values_eq hp agree).symm
  refine ⟨n, there, ?_⟩
  rw [Node.answer?, same]
  exact if_pos ⟨candidate, h.ground _ hp⟩

/-- No two nodes of a level give the same answer. -/
theorem countP_le_one (h : Schedule store goals due) (known : base.Knows store goals)
    (distinct : store.clauses.Nodup)
    (solved : ∀ n ∈ Node.level store goals base d, SolvedForm n.proof.bindings)
    {answer : Answer} (hp : (d, answer) ∈ due) :
    (Node.level store goals base d).countP
      (fun n => n.answer? (.ofGoals goals verbose recording) = some answer) ≤ 1 := by
  have keys : ∀ b ∈ answer.values, base.Covers b.var := by
    intro b hb
    have asked : b.var ∈ (Query.ofGoals goals verbose recording).vars := by
      change b.var ∈ varsOf (goals.flatMap Atom.args)
      rw [← h.asked _ hp]
      exact List.mem_map_of_mem hb
    exact Query.covers_of_mem_vars known asked
  calc (Node.level store goals base d).countP
        (fun n => n.answer? (.ofGoals goals verbose recording) = some answer)
    _ ≤ (Node.level store goals base d).countP (Node.grants answer) := by
        refine List.countP_mono_left fun n there given => ?_
        refine Node.grants_of_answer? (solved n there) (of_decide_eq_true given) ?_
        exact List.isPerm_iff.mpr (List.Perm.refl _)
    _ = ((Node.root goals base).prospect answer).ways store d :=
        Node.countP_level_eq_ways known (Node.covered_root known) keys d
    _ ≤ 1 := by
        refine Prospect.ways_le_one distinct fun s s' cs cs' unfolds unfolds' length length' => ?_
        simp only [Node.prospect, Node.root, List.map_map, Function.comp_def] at unfolds unfolds'
        -- Both are proofs at this depth, so both are for the answer that is
        -- due there.
        obtain ⟨p, hp, depth, agree⟩ := (h.forest_iff s.1 d).mp (length ▸ unfolds.forest)
        obtain ⟨p', hp', depth', agree'⟩ := (h.forest_iff s'.1 d).mp (length' ▸ unfolds'.forest)
        obtain rfl := h.eq_of_depth_eq hp hp' (depth.trans depth'.symm)
        refine h.unique s.1 cs cs' unfolds ?_ (length.trans length'.symm)
        rw [h.map_subst_eq hp agree agree']
        exact unfolds'

/-- A level gives what is due on it. -/
theorem filterMap_level (h : Schedule store goals due) (known : base.Knows store goals)
    (distinct : store.clauses.Nodup)
    (solved : ∀ n ∈ Node.level store goals base d, SolvedForm n.proof.bindings) :
    (Node.level store goals base d).filterMap (Node.answer? (.ofGoals goals verbose recording)) =
      (due.filter (·.1 = d)).map Prod.snd := by
  have given : ∀ answer ∈ (Node.level store goals base d).filterMap
      (Node.answer? (.ofGoals goals verbose recording)), (d, answer) ∈ due := by
    intro answer there
    obtain ⟨n, there, given⟩ := List.mem_filterMap.mp there
    exact h.mem_of_answer? known there (solved n there) given
  by_cases some_due : ∃ answer, (d, answer) ∈ due
  · obtain ⟨answer, hp⟩ := some_due
    rw [h.filter_depth_eq hp]
    refine (List.eq_replicate_iff (n := 1)).mpr ⟨Nat.le_antisymm ?_ ?_, fun other there => ?_⟩
    · rw [List.length_filterMap_eq_countP]
      have few : (Node.level store goals base d).countP
          (fun n => n.answer? (.ofGoals goals verbose recording) = some answer) ≤ 1 :=
        h.countP_le_one known distinct solved hp
      refine Nat.le_trans (List.countP_mono_left fun n there some_given => ?_) few
      obtain ⟨other, found⟩ := Option.isSome_iff_exists.mp some_given
      have same := h.eq_of_depth_eq (h.mem_of_answer? known there (solved n there) found) hp rfl
      rw [found, (Prod.mk.inj same).2]
      exact decide_eq_true rfl
    · obtain ⟨n, there, found⟩ : ∃ n ∈ Node.level store goals base d,
          n.answer? (.ofGoals goals verbose recording) = some answer :=
        h.exists_answer? known solved hp
      exact List.length_pos_of_mem (List.mem_filterMap.mpr ⟨n, there, found⟩)
    · exact (Prod.mk.inj (h.eq_of_depth_eq (given other there) hp rfl)).2
  · have none : due.filter (·.1 = d) = [] := by
      refine List.filter_eq_nil_iff.mpr fun p hp depth => some_due ⟨p.2, ?_⟩
      rw [← of_decide_eq_true depth]
      exact hp
    rw [none]
    refine List.eq_nil_iff_forall_not_mem.mpr fun answer there => some_due ⟨answer, ?_⟩
    exact given answer there

/-- What is due at lower depths comes before what is due at a depth. -/
theorem filter_lt_succ (sorted : due.Pairwise fun p p' => p.1 < p'.1) (d : Nat) :
    due.filter (·.1 < d + 1) = due.filter (·.1 < d) ++ due.filter (·.1 = d) := by
  induction due with
  | nil => rfl
  | cons p due ih =>
      obtain ⟨first, sorted⟩ := List.pairwise_cons.mp sorted
      have ih := ih sorted
      simp only [List.filter_cons, ih]
      rcases Nat.lt_trichotomy p.1 d with lower | here | deeper
      · simp [lower, Nat.le_of_lt lower, Nat.ne_of_lt lower]
      · have none : due.filter (·.1 < d) = [] := by
          refine List.filter_eq_nil_iff.mpr fun p' hp' => ?_
          simpa using Nat.le_of_lt (here ▸ first p' hp')
        simp [here, none]
      · simp [Nat.not_le_of_lt deeper, Nat.not_lt_of_lt deeper, Nat.ne_of_gt deeper]

/-- The levels above a depth give what is due there, in order. -/
theorem filterMap_above (h : Schedule store goals due) (known : base.Knows store goals)
    (distinct : store.clauses.Nodup)
    (solved : ∀ d, ∀ n ∈ Node.level store goals base d, SolvedForm n.proof.bindings) (d : Nat) :
    (Node.above store goals base d).filterMap (Node.answer? (.ofGoals goals verbose recording)) =
      (due.filter (·.1 < d)).map Prod.snd := by
  induction d with
  | zero => simp [Node.above, LevelOrder.above]
  | succ d ih =>
      rw [Node.above, LevelOrder.above_succ, List.filterMap_append, ← Node.above, ← Node.level, ih,
        h.filterMap_level known distinct (solved d), filter_lt_succ h.sorted, List.map_append]

/-- Nothing is due below the last level. -/
theorem depth_lt (h : Schedule store goals due) (known : base.Knows store goals)
    (last : Node.level store goals base d = []) : ∀ p ∈ due, p.1 < d := by
  intro p hp
  obtain ⟨n, there, -, -⟩ := Node.exists_candidate known (Node.covered_root known)
    (Substitution.satisfies_nil _) (h.forest_of_mem hp)
  by_contra deep
  have below (k : Nat) : Node.level store goals base (d + k) = [] := by
    induction k with
    | zero => exact last
    | succ k ih => rw [← Nat.add_assoc, Node.level, LevelOrder.level, ← Node.level, ih]; rfl
  obtain ⟨k, same⟩ := Nat.exists_eq_add_of_le (Nat.le_of_not_lt deep)
  rw [← Node.level, same, below k] at there
  cases there

end Schedule

/-! ### Searches -/

namespace Query

/-- A search gives these answers, in this order, and no others. Every attempt
to unify comes to an end, every run is exhausted from some number of steps on,
which can be made, and has given them then. They are also what is pulled until
a pull gives none. -/
structure Enumerates (store : Store) (start : Query) (given : Supply) (answers : List Answer) :
    Prop where
  live : NeverDiverges store start given
  exhausts : ∃ enough, (∃ visits q supply, Run store start given enough visits q supply) ∧
    ∀ k visits q supply, enough ≤ k → Run store start given k visits q supply →
      q.isExhausted ∧ visits.filterMap Visit.answer? = answers
  pulls : ∀ printed, ∃ s, Search.Iterates store ⟨start, given, printed, none⟩ answers s ∧
    s.query.isExhausted

variable {store : Store} {goals : List Atom} {due : List (Nat × Answer)} {given supply : Supply}
  {verbose recording : Bool} {k : Nat} {visits : List Visit} {q : Query} {d : Nat}

/-- A run that is exhausted has given the answers of all levels. -/
theorem Run.filterMap_answer?_eq (known : given.Knows store goals)
    (last : Node.level store goals given d = [])
    (run : Run store (ofGoals goals verbose recording) given k visits q supply)
    (exhausted : q.isExhausted) :
    visits.filterMap Visit.answer? = (Node.above store goals given d).filterMap
      (Node.answer? (ofGoals goals verbose recording)) := by
  -- The sweep has come to its end, where it comes in any case.
  have waiting : (Node.sweep store goals given k).waiting = [] := by
    have linked := (run.matches_sweep known).2.2
    rwa [q.queue.isEmpty_iff.mp exhausted, List.forall₂_nil_right_iff] at linked
  obtain ⟨enough, reached⟩ := LevelOrder.exists_sweep_eq_level (Node.successors store)
    (Node.root goals given) d
  have empty : (Node.sweep store goals given enough).waiting = [] :=
    (congrArg LevelOrder.Sweep.waiting reached).trans last
  have ended : (Node.sweep store goals given k).taken = Node.above store goals given d := by
    rw [Node.sweep, ← LevelOrder.sweep_eq_of_empty _ _ waiting (Nat.le_max_left k enough),
      LevelOrder.sweep_eq_of_empty _ _ empty (Nat.le_max_right k enough), reached]
    rfl
  have answers := run.answers_match known
  rw [← ended]
  generalize (Node.sweep store goals given k).taken = nodes at answers
  clear run
  induction answers with
  | nil => rfl
  | cons first _ ih => rw [List.filterMap_cons, List.filterMap_cons, first.2, ih]

/-- The answers that an event brings are those of its visit. -/
theorem flatMap_answers (visits : List Visit) :
    visits.flatMap (·.event.answers) = visits.filterMap Visit.answer? := by
  induction visits with
  | nil => rfl
  | cons visit visits ih =>
      obtain ⟨item, event⟩ := visit
      rw [List.flatMap_cons, ih, List.filterMap_cons]
      cases event <;> rfl

/-- A search with a last level gives the answers that are due. -/
theorem enumerates_of_schedule (schedule : Schedule store goals due)
    (known : given.Knows store goals) (distinct : store.clauses.Nodup)
    (solved : ∀ d, ∀ n ∈ Node.level store goals given d, SolvedForm n.proof.bindings)
    (live : NeverDiverges store (ofGoals goals verbose recording) given)
    (last : Node.level store goals given d = []) :
    Enumerates store (ofGoals goals verbose recording) given (due.map Prod.snd) := by
  have all {k : Nat} {visits : List Visit} {q : Query} {supply : Supply}
      (run : Run store (ofGoals goals verbose recording) given k visits q supply)
      (exhausted : q.isExhausted) : visits.filterMap Visit.answer? = due.map Prod.snd := by
    have whole : due.filter (·.1 < d) = due :=
      List.filter_eq_self.mpr fun p hp => decide_eq_true (schedule.depth_lt known last p hp)
    rw [run.filterMap_answer?_eq known last exhausted,
      schedule.filterMap_above known distinct solved, whole]
  obtain ⟨enough, exhausted⟩ := Run.exists_isExhausted known last
  refine ⟨live, ⟨enough, Run.exists_of_neverDiverges live enough,
    fun k visits q supply later run => ?_⟩, fun printed => ?_⟩
  · have ended := exhausted k visits q supply later run
    exact ⟨ended, all run ended⟩
  · obtain ⟨visits, s, taken, ended, l, run⟩ := Run.exists_taken live exhausted
      (s := ⟨ofGoals goals verbose recording, given, printed, none⟩) rfl .nil
    rw [flatMap_answers, all (by rwa [List.nil_append] at run) ended] at taken
    exact ⟨s, Search.iterates_iff.mpr (Search.takes_iff_taken.mpr taken), ended⟩

/-- Goals that are called in their modes, settle and have a schedule are given
the answers that are due. -/
theorem enumerates_of_settles {E : Variable → Prop} {modes : Predicate → Option Mode} {n : Nat}
    (schedule : Schedule store goals due) (known : given.Knows store goals)
    (distinct : store.clauses.Nodup) (wellModed : store.WellModed E modes given)
    (called : ∀ a ∈ goals, a.IsModed E modes)
    (settles : ∀ τ, Settles store n (goals.map (Atom.subst τ) : List Atom)) :
    Enumerates store (ofGoals goals verbose recording) given (due.map Prod.snd) := by
  have solved : ∀ d, ∀ n ∈ Node.level store goals given d, SolvedForm n.proof.bindings := by
    intro d n there
    have moded := (Node.isModed_of_mem_level known wellModed called d n there).2
    exact (Node.reduces_and_solves known d n there).2.2 moded.acyclic
  obtain ⟨d, last⟩ := Node.exists_level_eq_nil known
    (fun d n there => ⟨_, (solved d n there).satisfies⟩) settles
  exact enumerates_of_schedule schedule known distinct solved
    (neverDiverges_of_wellModed known wellModed called) last

end Query

end Resolvent
