/-
# What can still become of a partial proof

The search tree below a partial proof depends on the order of its goals, and so
do the fresh variables and the bindings that are made there. What does not
depend on it is seen when the bindings are replaced by their solutions. A
prospect says which substitutions are solutions, and what each of them makes of
the goals that are left. Resolving a goal with a clause keeps the solutions
that make the goal an instance of the head, one for each such instance; nothing
is unified and no variable is made.

A prospect has a number of ways to come to an end after so many steps. Two
steps that are made one after the other can be exchanged, which pairs the same
solutions with the same instances. The number of ways is therefore the same for
every order of the goals.
-/

import Mathlib
import Resolvent.Proofs.Clauses.Standardized

namespace Resolvent

/-- Two images of a list are related item by item if the images of each item
are. -/
theorem forall₂_map_map {α β γ : Type} {R : β → γ → Prop} {f : α → β} {g : α → γ} {xs : List α}
    (each : ∀ x ∈ xs, R (f x) (g x)) : List.Forall₂ R (xs.map f) (xs.map g) :=
  List.forall₂_map_left_iff.mpr (List.forall₂_map_right_iff.mpr (List.forall₂_same.mpr each))

/-- The solutions of some bindings, what each of them makes of the goals that
are left, and which of them are wanted. -/
structure Prospect where
  Solution : Type
  goals : List (Solution → Atom)
  Wanted : Solution → Prop

namespace Prospect

/-- What is left when one goal has been resolved with a clause. A solution is
now one that makes of the goal an instance of the head, together with that
instance. -/
def resolve (p : Prospect) (goal : p.Solution → Atom) (deferred : List (p.Solution → Atom))
    (c : Clause) : Prospect where
  Solution := {s : p.Solution × Substitution // goal s.1 = c.head.subst s.2}
  goals := deferred.map (fun a s => a s.1.1) ++ c.body.map fun a s => a.subst s.1.2
  Wanted s := p.Wanted s.1.1

/-- Nothing is left to do, there are solutions, and all of them are wanted. -/
structure Ends (p : Prospect) : Prop where
  goals : p.goals = []
  solvable : Nonempty p.Solution
  wanted : ∀ s, p.Wanted s

/-- The number of ways to come to an end after a number of steps, each of which
resolves the first goal and puts the body of the clause behind the others. -/
noncomputable def ways (store : Store) : Nat → Prospect → Nat
  | 0, p => open Classical in if p.Ends then 1 else 0
  | d + 1, p =>
    match p.goals with
    | [] => 0
    | goal :: deferred => (store.clauses.map fun c => ways store d (p.resolve goal deferred c)).sum

variable {store : Store} {p p' : Prospect}

/-- Without goals no further step can be made. -/
theorem ways_succ_of_nil (d : Nat) (none : p.goals = []) : p.ways store (d + 1) = 0 := by
  rw [ways, none]

/-- The ways to come to an end are added up over the clauses for the first
goal. -/
theorem ways_succ_of_cons (d : Nat) {goal : p.Solution → Atom}
    {deferred : List (p.Solution → Atom)} (first : p.goals = goal :: deferred) :
    p.ways store (d + 1) =
      (store.clauses.map fun c => (p.resolve goal deferred c).ways store d).sum := by
  rw [ways, first]

/-- Without a solution there is no way. -/
theorem ways_eq_zero_of_isEmpty (unsolvable : IsEmpty p.Solution) (d : Nat) :
    p.ways store d = 0 := by
  induction d generalizing p with
  | zero => exact if_neg fun ends => not_nonempty_iff.mpr unsolvable ends.solvable
  | succ d ih =>
      cases first : p.goals with
      | nil => exact ways_succ_of_nil d first
      | cons goal deferred =>
          rw [ways_succ_of_cons d first]
          refine List.sum_eq_zero fun n hn => ?_
          obtain ⟨c, _, rfl⟩ := List.mem_map.mp hn
          exact ih ⟨fun s => unsolvable.false s.1.1⟩

/-! ### Alike prospects -/

/-- Each solution of one prospect is linked with solutions of the other, which
make the same of the goals and are wanted as well. -/
def Alike (p p' : Prospect) : Prop :=
  ∃ R : p.Solution → p'.Solution → Prop, Relator.BiTotal R ∧
    List.Forall₂ (Relator.LiftFun R Eq) p.goals p'.goals ∧
    Relator.LiftFun R Iff p.Wanted p'.Wanted

/-- What is alike has come to its end at the same time. -/
theorem Alike.ends_iff (alike : Alike p p') : p.Ends ↔ p'.Ends := by
  obtain ⟨R, ⟨left, right⟩, goals, wanted⟩ := alike
  constructor
  · rintro ⟨none, ⟨s⟩, all⟩
    obtain ⟨s', _⟩ := left s
    refine ⟨List.forall₂_nil_left_iff.mp (none ▸ goals), ⟨s'⟩, fun t' => ?_⟩
    obtain ⟨t, linked⟩ := right t'
    exact (wanted linked).mp (all t)
  · rintro ⟨none, ⟨s'⟩, all⟩
    obtain ⟨s, _⟩ := right s'
    refine ⟨List.forall₂_nil_right_iff.mp (none ▸ goals), ⟨s⟩, fun t => ?_⟩
    obtain ⟨t', linked⟩ := left t
    exact (wanted linked).mpr (all t')

/-- Alike prospects have as many ways. -/
theorem Alike.ways_eq (alike : Alike p p') (d : Nat) : p.ways store d = p'.ways store d := by
  induction d generalizing p p' with
  | zero => rw [ways, ways, alike.ends_iff]
  | succ d ih =>
      obtain ⟨R, ⟨left, right⟩, goals, wanted⟩ := alike
      cases first : p.goals with
      | nil =>
          rw [first, List.forall₂_nil_left_iff] at goals
          rw [ways_succ_of_nil d first, ways_succ_of_nil d goals]
      | cons goal deferred =>
          rw [first] at goals
          obtain ⟨goal', deferred', same, rest, first'⟩ := List.forall₂_cons_left_iff.mp goals
          rw [ways_succ_of_cons d first, ways_succ_of_cons d first']
          refine congrArg List.sum (List.map_congr_left fun c _ => ih ?_)
          refine ⟨fun s s' => R s.1.1 s'.1.1 ∧ s.1.2 = s'.1.2, ⟨?_, ?_⟩, ?_, ?_⟩
          · rintro ⟨⟨s, θ⟩, resolved⟩
            obtain ⟨s', linked⟩ := left s
            exact ⟨⟨(s', θ), (same linked).symm.trans resolved⟩, linked, rfl⟩
          · rintro ⟨⟨s', θ⟩, resolved⟩
            obtain ⟨s, linked⟩ := right s'
            exact ⟨⟨(s, θ), (same linked).trans resolved⟩, linked, rfl⟩
          · refine List.rel_append (List.rel_map (fun a a' agree => ?_) rest)
              (forall₂_map_map fun a _ => ?_)
            · exact fun s s' linked => agree linked.1
            · exact fun s s' linked => congrArg (a.subst ·) linked.2
          · exact fun s s' linked => wanted linked.1

/-! ### The order of the goals -/

/-- The prospect with other goals. -/
def withGoals (p : Prospect) (goals : List (p.Solution → Atom)) : Prospect :=
  { p with goals := goals }

/-- What is left when two goals have been resolved one after the other. -/
def resolveTwo (p : Prospect) (goal goal' : p.Solution → Atom) (rest : List (p.Solution → Atom))
    (c c' : Clause) : Prospect :=
  (p.resolve goal (goal' :: rest) c).resolve (fun s => goal' s.1.1)
    (rest.map (fun a s => a s.1.1) ++ c.body.map fun a s => a.subst s.1.2) c'

/-- It is the same whichever goal is the first, but for the order of the two
bodies. -/
theorem exists_alike_resolveTwo (p : Prospect) (goal goal' : p.Solution → Atom)
    (rest : List (p.Solution → Atom)) (c c' : Clause) :
    ∃ goals, goals.Perm (p.resolveTwo goal' goal rest c' c).goals ∧
      Alike (p.resolveTwo goal goal' rest c c')
        ((p.resolveTwo goal' goal rest c' c).withGoals goals) := by
  have reorder {α β : Type 0} (f : α → β) (xs ys : List α) (zs : List β) :
      ((xs.map f ++ zs) ++ ys.map f).Perm ((xs ++ ys).map f ++ zs) := by
    rw [List.map_append, List.append_assoc, List.append_assoc]
    exact List.perm_append_comm.append_left _
  refine ⟨_, reorder _ _ _ _, ?_⟩
  -- A solution of both goals is the same whichever instance is named first.
  refine ⟨fun s s' => s.1.1.1.1 = s'.1.1.1.1 ∧ s.1.1.1.2 = s'.1.2 ∧ s.1.2 = s'.1.1.1.2,
    ⟨?_, ?_⟩, ?_, ?_⟩
  · rintro ⟨⟨⟨⟨s, θ⟩, resolved⟩, η⟩, resolved'⟩
    exact ⟨⟨(⟨(s, η), resolved'⟩, θ), resolved⟩, rfl, rfl, rfl⟩
  · rintro ⟨⟨⟨⟨s, η⟩, resolved'⟩, θ⟩, resolved⟩
    exact ⟨⟨(⟨(s, θ), resolved⟩, η), resolved'⟩, rfl, rfl, rfl⟩
  · refine List.rel_append (List.forall₂_map_left_iff.mpr (List.rel_append
      (List.forall₂_map_right_iff.mpr (forall₂_map_map ?_)) (forall₂_map_map ?_)))
      (List.forall₂_map_right_iff.mpr (forall₂_map_map ?_))
    · exact fun a _ s s' linked => congrArg a linked.1
    · exact fun a _ s s' linked => congrArg (a.subst ·) linked.2.1
    · exact fun a _ s s' linked => congrArg (a.subst ·) linked.2.2
  · intro s s' linked
    exact iff_of_eq (congrArg p.Wanted linked.1)

/-- Something is left to do. -/
theorem ways_zero_of_cons {goal : p.Solution → Atom} {deferred : List (p.Solution → Atom)}
    (first : p.goals = goal :: deferred) : p.ways store 0 = 0 :=
  if_neg fun ends => List.cons_ne_nil goal deferred (first.symm.trans ends.goals)

/-- Two goals can be exchanged if the order of goals does not matter two steps
further on. -/
theorem ways_withGoals_swap {d : Nat}
    (any_order : ∀ (p : Prospect) {goals goals' : List (p.Solution → Atom)}, goals.Perm goals' →
      (p.withGoals goals).ways store d = (p.withGoals goals').ways store d)
    (p : Prospect) (goal goal' : p.Solution → Atom) (rest : List (p.Solution → Atom)) :
    (p.withGoals (goal :: goal' :: rest)).ways store (d + 2) =
      (p.withGoals (goal' :: goal :: rest)).ways store (d + 2) := by
  have two_steps (goal goal' : p.Solution → Atom) :
      (p.withGoals (goal :: goal' :: rest)).ways store (d + 2) =
        (store.clauses.map fun c => (store.clauses.map fun c' =>
          (p.resolveTwo goal goal' rest c c').ways store d).sum).sum := by
    rw [ways_succ_of_cons (d + 1) rfl]
    exact congrArg List.sum (List.map_congr_left fun c _ => ways_succ_of_cons d rfl)
  have exchange (f : Clause → Clause → Nat) :
      (store.clauses.map fun c => (store.clauses.map fun c' => f c c').sum).sum =
        (store.clauses.map fun c' => (store.clauses.map fun c => f c c').sum).sum := by
    simpa only [Multiset.map_coe, Multiset.sum_coe] using
      Multiset.sum_map_sum_map (store.clauses : Multiset Clause) (store.clauses : Multiset Clause)
  rw [two_steps, two_steps, exchange]
  refine congrArg List.sum (List.map_congr_left fun c' _ => ?_)
  refine congrArg List.sum (List.map_congr_left fun c _ => ?_)
  obtain ⟨goals, order, alike⟩ := p.exists_alike_resolveTwo goal goal' rest c c'
  exact (alike.ways_eq d).trans (any_order _ order)

/-- The number of ways does not depend on the order of the goals. -/
theorem ways_withGoals_of_perm (d : Nat) (p : Prospect) {goals goals' : List (p.Solution → Atom)}
    (order : goals.Perm goals') :
    (p.withGoals goals).ways store d = (p.withGoals goals').ways store d := by
  induction d using Nat.strong_induction_on generalizing p with
  | _ d ih =>
      induction order with
      | nil => rfl
      | trans _ _ left right => exact left.trans right
      | @cons goal rest rest' order =>
          cases d with
          | zero => rw [ways_zero_of_cons rfl, ways_zero_of_cons rfl]
          | succ d =>
              rw [ways_succ_of_cons d rfl, ways_succ_of_cons d rfl]
              refine congrArg List.sum (List.map_congr_left fun c _ => ?_)
              exact ih d (Nat.lt_succ_self d) (p.resolve goal rest c)
                ((order.map _).append_right _)
      | @swap goal goal' rest =>
          match d with
          | 0 => rw [ways_zero_of_cons rfl, ways_zero_of_cons rfl]
          | 1 =>
              rw [ways_succ_of_cons 0 rfl, ways_succ_of_cons 0 rfl]
              refine congrArg List.sum (List.map_congr_left fun c _ => ?_)
              exact (ways_zero_of_cons rfl).trans (ways_zero_of_cons rfl).symm
          | d + 2 => exact ways_withGoals_swap (ih d (by omega)) p goal' goal rest

end Prospect

end Resolvent
