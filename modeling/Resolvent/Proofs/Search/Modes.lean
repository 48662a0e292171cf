/-
# Modes

A mode says what the arguments of a predicate are used for, as elements or as
spines, and names some of them, the keys, of which at least one is closed
whenever the predicate is called. A clause is well moded if its body calls
every predicate in its mode as soon as its head has been called in its own. An
end may occur twice in the head if it does so in both keys.

In a search with well-moded clauses every goal has its mode when it is
resolved, under the bindings made so far. The equations of each attempt are
then disciplined, so no attempt goes on for ever and no binding is cyclic. A
clause with a variable twice in its head need not be left out for that.
-/

import Resolvent.Proofs.Search.LinearHeads
import Resolvent.Proofs.Search.Tally
import Resolvent.Proofs.Unification.Spines

namespace Resolvent

open Term (HasKind)

/-- What the arguments of a predicate are used for, and which of them are
keys. -/
structure Mode where
  kinds : List Kind
  keys : List Nat

variable {E E' : Variable → Prop} {m : Mode} {modes : Predicate → Option Mode}

namespace Atom

/-- The arguments are of the kinds of a mode. -/
def HasKinds (E : Variable → Prop) (m : Mode) (a : Atom) : Prop :=
  List.Forall₂ (HasKind E) m.kinds a.args

/-- At least one key is closed. -/
def HasClosedKey (E : Variable → Prop) (m : Mode) (a : Atom) : Prop :=
  ∃ i ∈ m.keys, ∃ t ∈ a.args[i]?, t.IsClosed E

/-- An atom that can be called under the modes of the predicates. -/
def IsModed (E : Variable → Prop) (modes : Predicate → Option Mode) (a : Atom) : Prop :=
  ∃ m, modes a.predicate = some m ∧ a.HasKinds E m ∧ a.HasClosedKey E m

/-- Arguments keep their kinds if elements are put for elements only. -/
theorem HasKinds.subst {a : Atom} {θ : Substitution} (h : a.HasKinds E m)
    (respects : θ.Respects E E') : (a.subst θ).HasKinds E' m := by
  rw [HasKinds, args_subst, List.forall₂_map_right_iff]
  exact h.imp fun _ _ kind => respects.hasKind kind

/-- A closed key stays closed. -/
theorem HasClosedKey.subst {a : Atom} {θ : Substitution} (h : a.HasClosedKey E m)
    (respects : θ.Respects E E') : (a.subst θ).HasClosedKey E' m := by
  obtain ⟨i, key, t, found, closed⟩ := h
  refine ⟨i, key, t.subst θ, ?_, respects.isClosed closed⟩
  simpa using ⟨t, found, rfl⟩

/-- An atom that can be called under its mode still can when more is known. -/
theorem IsModed.subst {a : Atom} {θ : Substitution} (h : a.IsModed E modes)
    (respects : θ.Respects E E') : (a.subst θ).IsModed E' modes := by
  obtain ⟨m, mode, kinds, key⟩ := h
  exact ⟨m, mode, kinds.subst respects, key.subst respects⟩

end Atom

/-- If the head of a clause is called in its mode then so is what the clause
asks for. -/
structure Clause.WellModed (E : Variable → Prop) (modes : Predicate → Option Mode) (c : Clause)
    (m : Mode) : Prop where
  head : c.head.HasKinds E m
  /-- An end that occurs twice in the head does so in the two keys. -/
  once : ∀ i j s t, i < j → s ∈ c.head.args[i]? → t ∈ c.head.args[j]? →
    (∃ x ∈ s.vars, x ∈ t.vars ∧ ¬ E x) → ∀ key ∈ m.keys, key = i ∨ key = j
  /-- Whichever key of the head is closed, it has all ends of some key of each
  atom below. -/
  body : ∀ a ∈ c.body, ∃ m', modes a.predicate = some m' ∧ a.HasKinds E m' ∧
    ∀ i ∈ m.keys, ∀ s ∈ c.head.args[i]?, ∃ j ∈ m'.keys, ∃ t ∈ a.args[j]?,
      ∀ x ∈ t.vars, ¬ E x → x ∈ s.vars

/-- A head with different ends in its arguments has none of them twice. -/
theorem Clause.once_of_pairwise {c : Clause}
    (apart : c.head.args.Pairwise fun s t => ∀ x ∈ s.vars, x ∈ t.vars → E x) (keys : List Nat) :
    ∀ i j s t, i < j → s ∈ c.head.args[i]? → t ∈ c.head.args[j]? →
      (∃ x ∈ s.vars, x ∈ t.vars ∧ ¬ E x) → ∀ key ∈ keys, key = i ∨ key = j := by
  intro i j s t before first second ⟨x, hx, hx', loose⟩
  obtain ⟨hi, rfl⟩ := List.getElem?_eq_some_iff.mp first
  obtain ⟨hj, rfl⟩ := List.getElem?_eq_some_iff.mp second
  exact absurd (List.pairwise_iff_getElem.mp apart i j hi hj before x hx hx') loose

/-- All clauses for the predicates that have a mode are well moded, whatever
variables their copies get. -/
def Store.WellModed (E : Variable → Prop) (modes : Predicate → Option Mode) (base : Supply)
    (store : Store) : Prop :=
  ∀ c ∈ store.clauses, ∀ m, modes c.head.predicate = some m → ∀ supply : Supply,
    base.next ≤ supply.next → c.WellModed (fun x => E (supply.copy c.vars x)) modes m

/-! ### One resolution step -/

/-- Arguments of the same kinds make equations between terms of one kind. -/
theorem Equation.kinds_of_mem_zipWith {kinds : List Kind} {ss ts : List Term}
    (left : List.Forall₂ (HasKind E) kinds ss) (right : List.Forall₂ (HasKind E) kinds ts) :
    ∀ e ∈ List.zipWith Equation.mk ss ts, ∃ k, HasKind E k e.left ∧ HasKind E k e.right := by
  induction left generalizing ts with
  | nil => simp
  | cons first _ ih =>
      obtain ⟨t, ts, first', rest', rfl⟩ := List.forall₂_cons_left_iff.mp right
      rw [List.zipWith_cons_cons, List.forall_mem_cons]
      exact ⟨⟨_, first, first'⟩, ih rest'⟩

namespace Clause.WellModed

variable {c : Clause} {supply : Supply}

/-- A goal that is called in its mode and the copy of a head make disciplined
equations. -/
theorem disciplined (h : c.WellModed (fun x => E (supply.copy c.vars x)) modes m) {goal : Atom}
    (kinds : goal.HasKinds E m) (closed : goal.HasClosedKey E m)
    (seen : ∀ t ∈ goal.args, ∀ x ∈ t.vars, supply.Covers x) :
    Disciplined E (Query.equations goal.args (c.head.rename (supply.copy c.vars))) := by
  have copied {t : Term} {x : Variable} (ht : t ∈ c.head.args)
      (hx : x ∈ (t.rename (supply.copy c.vars)).vars) :
      ∃ y ∈ t.vars, y ∈ c.vars ∧ x = supply.copy c.vars y := by
    obtain ⟨y, hy, same⟩ := Term.mem_vars_rename.mp hx
    exact ⟨y, hy, Clause.mem_vars.mpr (.inl ⟨t, ht, hy⟩), same⟩
  refine ⟨?_, ?_, ?_⟩
  · exact Equation.kinds_of_mem_zipWith kinds (h.head.subst (Substitution.Respects.rename _))
  · rw [List.pairwise_iff_getElem]
    intro i j hi hj before
    simp only [Query.equations, List.length_zipWith, lt_min_iff, Atom.args_rename,
      List.length_map] at hi hj
    simp only [Query.equations, List.getElem_zipWith, Atom.args_rename, List.getElem_map]
    by_cases shared : ∃ x ∈ c.head.args[i].vars, x ∈ c.head.args[j].vars ∧
        ¬ E (supply.copy c.vars x)
    · obtain ⟨key, among, t, found, closed⟩ := closed
      have keys := h.once i j _ _ before (List.getElem?_eq_getElem hi.2)
        (List.getElem?_eq_getElem hj.2) shared key among
      rcases keys with rfl | rfl
      · obtain rfl : goal.args[key] = t := by simpa [hi.1] using found
        exact .inl closed
      · obtain rfl : goal.args[key] = t := by simpa [hj.1] using found
        exact .inr (.inl closed)
    · refine .inr (.inr fun x hx hx' => by_contra fun loose => shared ?_)
      obtain ⟨y, hy, part, rfl⟩ := copied (List.getElem_mem hi.2) hx
      obtain ⟨y', hy', part', same⟩ := copied (List.getElem_mem hj.2) hx'
      obtain rfl := supply.copy_injOn c.vars part part' same
      exact ⟨y, hy, hy', loose⟩
  · intro e he d hd _ x hx hx'
    obtain ⟨_, right⟩ := Equation.mem_zipWith hd
    obtain ⟨t, ht, same⟩ := List.mem_map.mp right
    rw [← same] at hx'
    obtain ⟨y, _, _, rfl⟩ := copied ht hx'
    exact absurd (seen _ (Equation.mem_zipWith he).1 _ hx) (supply.not_covers_copy _ _)

/-- When the head is called in its mode, so is the body. -/
theorem body_isModed {θ : Substitution}
    (h : c.WellModed (fun x => E (supply.copy c.vars x)) modes m)
    (respects : θ.Respects (fun x => E (supply.copy c.vars x)) E')
    (closed : (c.head.subst θ).HasClosedKey E' m) :
    ∀ a ∈ c.body, (a.subst θ).IsModed E' modes := by
  intro a ha
  obtain ⟨m', mode, kinds, keys⟩ := h.body a ha
  obtain ⟨i, key, _, image, closed⟩ := closed
  simp only [Atom.args_subst, List.getElem?_map, Option.mem_def, Option.map_eq_some_iff] at image
  obtain ⟨s, found, rfl⟩ := image
  obtain ⟨j, key', t, found', ends⟩ := keys i key s found
  refine ⟨m', mode, kinds.subst respects, j, key', t.subst θ, ?_,
    respects.isClosed_of_ends ends closed⟩
  simpa using ⟨t, found', rfl⟩

end Clause.WellModed

/-! ### The search tree -/

namespace Node

variable {store : Store} {goals : List Atom} {base : Supply} {n n' : Node}

/-- Under the bindings made so far all goals are called in their modes. The
bindings keep the kinds and are without cycles. -/
structure IsModed (E : Variable → Prop) (modes : Predicate → Option Mode) (n : Node) : Prop where
  goals : ∀ a ∈ n.proof.goals, (a.instantiate n.proof.bindings).IsModed E modes
  respects : ∀ b ∈ n.proof.bindings, b.Respects E
  acyclic : ∀ b ∈ n.proof.bindings, ¬ b.IsCyclic

namespace IsModed

variable {goal : Atom} {deferred : List Atom} {c : Clause}

/-- The mode of the goal that is resolved is that of every clause it is
resolved against. -/
theorem exists_mode (h : n.IsModed E modes) (wellModed : store.WellModed E modes base)
    (covered : Covered base n) (first : n.proof.goals = goal :: deferred)
    (candidate : c ∈ store.candidates goal) :
    ∃ m, (goal.instantiate n.proof.bindings).HasKinds E m ∧
      (goal.instantiate n.proof.bindings).HasClosedKey E m ∧
      c.WellModed (fun x => E (n.supply.copy c.vars x)) modes m := by
  obtain ⟨m, mode, kinds, closed⟩ := h.goals goal (by simp [first])
  obtain ⟨clause, like⟩ := Store.mem_candidates.mp candidate
  simp only [Atom.matches?, Bool.and_eq_true, decide_eq_true_eq] at like
  have mode : modes c.head.predicate = some m := by
    rw [like.1]
    exact mode
  exact ⟨m, kinds, closed, wellModed c clause m mode n.supply covered.later⟩

/-- The equations of every attempt are disciplined. -/
theorem disciplined (h : n.IsModed E modes) (wellModed : store.WellModed E modes base)
    (covered : Covered base n) (first : n.proof.goals = goal :: deferred)
    (candidate : c ∈ store.candidates goal) :
    Disciplined E (Query.equations (goal.args.map (applyAll n.proof.bindings))
      (c.head.rename (n.supply.copy c.vars))) := by
  obtain ⟨m, kinds, closed, moded⟩ := h.exists_mode wellModed covered first candidate
  exact moded.disciplined kinds closed fun t ht x hx =>
    covered.covers_applyAll (by simp [first]) ht hx

/-- The goals of a node keep to their modes in a resolution step. -/
theorem resolves (known : base.Knows store goals) (h : n.IsModed E modes)
    (wellModed : store.WellModed E modes base) (covered : Covered base n)
    (step : Resolves store n n') : n'.IsModed E modes := by
  obtain ⟨goal, deferred, c, made, first, candidate, derivation, rfl⟩ :=
    (covered.resolves_iff known).mp step
  have bound := fun b hb => (derivation.binds b hb).of_disciplined
    (h.disciplined wellModed covered first candidate)
  have respects : ∀ b ∈ n.proof.bindings ++ made, b.Respects E :=
    List.forall_mem_append.mpr ⟨h.respects, fun b hb => (bound b hb).1⟩
  have later : Substitution.Respects E E fun x => applyAll made (.var x) :=
    respects_applyAll fun b hb => (bound b hb).1
  refine ⟨List.forall_mem_append.mpr ⟨fun a ha => ?_, fun a ha => ?_⟩, respects,
    List.forall_mem_append.mpr ⟨h.acyclic, fun b hb => (bound b hb).2⟩⟩
  · rw [Atom.instantiate_append, Atom.instantiate_eq_subst made]
    exact (h.goals a (by simp [first, ha])).subst later
  · obtain ⟨m, _, closed, moded⟩ := h.exists_mode wellModed covered first candidate
    obtain ⟨a, part, rfl⟩ := List.mem_map.mp ha
    -- The goal has become the head, so the key that is closed in the goal is
    -- closed in the head.
    have same := covered.instantiate_eq_of_acyclic (Store.mem_candidates.mp candidate).2 derivation
      fun b hb => (bound b hb).2
    rw [Atom.instantiate_append, Atom.instantiate_eq_subst made,
      Atom.instantiate_eq_subst (_ ++ _), Atom.rename, Atom.subst_subst] at same
    have closed := closed.subst later
    rw [same] at closed
    rw [Atom.instantiate_eq_subst, Atom.rename, Atom.subst_subst]
    refine moded.body_isModed (fun k x kind => ?_) closed a part
    exact (respects_applyAll respects).hasKind (Substitution.Respects.rename _ k x kind)

end IsModed

/-- If all goals are called in their modes then so is every goal of the
search. -/
theorem isModed_of_mem_level (known : base.Knows store goals)
    (wellModed : store.WellModed E modes base) (called : ∀ a ∈ goals, a.IsModed E modes) (d : Nat) :
    ∀ n ∈ level store goals base d, Covered base n ∧ n.IsModed E modes := by
  have start : (root goals base).IsModed E modes := by
    refine ⟨fun a ha => ?_, by simp [root], by simp [root]⟩
    have same : a.instantiate [] = a := congrArg (Atom.mk a.predicate) (List.map_id' _)
    rw [root, same]
    exact called a ha
  refine LevelOrder.level_induction _ _ ⟨covered_root known, start⟩ ?_ d
  rintro n ⟨covered, moded⟩ n' child
  have step := mem_successors.mp child
  exact ⟨covered.resolves known step, moded.resolves known wellModed covered step⟩

end Node

/-- Equations that are renamed are worked off as before. -/
theorem Finishes.rename {π : Variable → Variable} (injective : Function.Injective π)
    {equations : List Equation} (finishes : Finishes equations) :
    Finishes (equations.map (.rename π)) := by
  obtain ⟨moves, finished⟩ := finishes
  refine ⟨moves, ?_⟩
  rw [unify_rename injective]
  cases verdict : unify moves equations with
  | solved => simp [Verdict.rename]
  | clash => simp [Verdict.rename]
  | unfinished => exact absurd verdict finished

namespace Query

variable {store : Store} {goals : List Atom} {given : Supply} {verbose recording : Bool}

/-- A search goes on for ever within a step only if some attempt of its tree
does. -/
theorem neverDiverges_of_level (known : given.Knows store goals)
    (ends : ∀ d, ∀ n ∈ Node.level store goals given d, ∀ goal deferred,
      n.proof.goals = goal :: deferred → ∀ c ∈ store.candidates goal,
        Finishes (equations (goal.args.map (applyAll n.proof.bindings))
          (c.head.rename (n.supply.copy c.vars)))) :
    NeverDiverges store (ofGoals goals verbose recording) given := by
  rintro k visits q supply run attempt @⟨goal', deferred', bindings, rest, _, front, tries⟩
  obtain ⟨c, candidate, drawn, later, rfl⟩ := tries.exists_later_copy
  -- What is taken from the queue matches a node, and so does the attempt one
  -- that is made there.
  obtain ⟨grown, _, _⟩ := run.matches_sweep known
  obtain ⟨n, others, waiting, covered, π, renames, same⟩ := run.exists_front_match known front
  obtain ⟨d, there⟩ := Node.exists_mem_level (k := k) (n := n)
    (List.mem_append_right _ (by rw [waiting]; exact List.mem_cons_self))
  obtain ⟨π', renames', seen, copies⟩ :=
    Node.exists_renames_copy covered (renames.mono later) c
  rw [seen] at same
  obtain ⟨goals_eq, rfl⟩ := PartialProof.mk.inj same
  obtain ⟨goal, deferred, first, rfl, rfl⟩ := List.map_eq_cons_iff.mp goals_eq.symm
  rw [Atom.rename, Store.candidates_subst] at candidate
  have clause := (Store.mem_candidates.mp candidate).1
  have handed : ∀ x ∈ c.vars, drawn.Covers x := fun x hx =>
    (known.clauses c clause x hx).mono (Nat.le_trans grown later)
  rw [Clause.standardizeApart_eq handed, Clause.head_rename, ← copies,
    Atom.map_applyAll_rename renames'.injective, equations_rename]
  exact (ends d n there goal deferred first c candidate).rename renames'.injective

/-- With well-moded clauses, no attempt goes on for ever. -/
theorem neverDiverges_of_wellModed (known : given.Knows store goals)
    (wellModed : store.WellModed E modes given) (called : ∀ a ∈ goals, a.IsModed E modes) :
    NeverDiverges store (ofGoals goals verbose recording) given := by
  refine neverDiverges_of_level known fun d n there goal deferred first c candidate => ?_
  obtain ⟨covered, moded⟩ := Node.isModed_of_mem_level known wellModed called d n there
  exact .of_acyclic fun b binds =>
    (binds.of_disciplined (moded.disciplined wellModed covered first candidate)).2

end Query

end Resolvent
