/-
# Equations turned round

It does not matter which side of an equation is the left one. The side makes a
difference only between two variables, because then it is the left one that is
bound: a run goes on with the one variable, and with the equation turned round
it goes on with the other. What waits is from there on the same but for an
exchange of these two variables, and a run does not see that.

So the two runs make as many moves, whether they end or not, and no condition
on the bindings is needed. A binding that contains its own variable is turned
into another one that does.
-/

import Mathlib.Data.List.Forall2
import Mathlib.Logic.Equiv.Basic
import Resolvent.Proofs.Unification.Termination
import Resolvent.Proofs.Unification.Renaming

namespace Resolvent

namespace Equation

/-- The equation with its sides exchanged. -/
def swap (e : Equation) : Equation :=
  ⟨e.right, e.left⟩

/-- The second equation is the first one, as it stands or turned round. -/
def Turned (e e' : Equation) : Prop :=
  e' = e ∨ e' = e.swap

/-- The moves that an equation calls for, as it stands and turned round. -/
inductive Move.Turned : Move → Move → Prop
  | discard : Turned .discard .discard
  | bind (b : Binding) : Turned (.bind b) (.bind b)
  | exchange (x y : Variable) : Turned (.bind ⟨x, .var y⟩) (.bind ⟨y, .var x⟩)
  | split {parts parts' : List Equation} (each : List.Forall₂ Equation.Turned parts parts') :
      Turned (.split parts) (.split parts')
  | clash : Turned .clash .clash

variable {e e' : Equation}

theorem Turned.refl (e : Equation) : e.Turned e :=
  .inl rfl

/-- An equation may be turned round. -/
theorem turned_swap (e : Equation) : e.Turned e.swap :=
  .inr rfl

/-- A binding acts on both sides alike. -/
theorem Turned.instantiate (h : e.Turned e') (b : Binding) :
    (e.instantiate b).Turned (e'.instantiate b) := by
  rcases h with rfl | rfl
  · exact .refl _
  · exact turned_swap _

theorem Move.Turned.refl (m : Move) : m.Turned m := by
  cases m with
  | discard => exact .discard
  | bind b => exact .bind b
  | split parts => exact .split (List.forall₂_same.mpr fun part _ => .refl part)
  | clash => exact .clash

/-- Equations between arguments are turned one by one. -/
theorem forall₂_turned_zipWith (ss ts : List Term) :
    List.Forall₂ Turned (List.zipWith mk ss ts) (List.zipWith mk ts ss) := by
  induction ss generalizing ts with
  | nil => cases ts <;> exact .nil
  | cons s ss ih =>
      cases ts with
      | nil => exact .nil
      | cons t ts => exact .cons (turned_swap _) (ih ts)

/-- Whatever an equation calls for, the turned equation calls for the mirror of
it. -/
theorem Calls.exists_swap {m : Move} (h : Calls e m) : ∃ m', Calls e.swap m' ∧ m.Turned m' := by
  cases h with
  | discard t => exact ⟨_, .discard t, .discard⟩
  | @bindLeft x t different =>
      -- Only here does it matter what the other side is.
      cases t with
      | var y => exact ⟨_, .bindLeft (Ne.symm different), .exchange x y⟩
      | const c => exact ⟨_, .bindRight (by simp), .bind _⟩
      | app f args => exact ⟨_, .bindRight (by simp), .bind _⟩
  | @bindRight y t rigid => exact ⟨_, .bindLeft (rigid y), .bind _⟩
  | @split f ss ts unequal same =>
      exact ⟨_, .split (Ne.symm unequal) same.symm, .split (forall₂_turned_zipWith ss ts)⟩
  | constants different => exact ⟨_, .constants (Ne.symm different), .clash⟩
  | constApp c g ts => exact ⟨_, .appConst g ts c, .clash⟩
  | appConst f ss d => exact ⟨_, .constApp d f ss, .clash⟩
  | functors unlike =>
      exact ⟨_, .functors fun like => unlike ⟨like.1.symm, like.2.symm⟩, .clash⟩

/-- An equation and the turned one make moves that mirror each other. -/
theorem move_swap (e : Equation) : e.move.Turned e.swap.move := by
  obtain ⟨m, calls, turned⟩ := e.move_calls.exists_swap
  rwa [calls.move_eq]

/-- Equations that may be turned make moves that mirror each other. -/
theorem Turned.move (h : e.Turned e') : e.move.Turned e'.move := by
  rcases h with rfl | rfl
  · exact .refl _
  · exact e.move_swap

end Equation

/-- The two bindings between two variables come to the same, but for an
exchange of these. -/
theorem Binding.apply_exchange (x y : Variable) (t : Term) :
    (Binding.mk y (.var x)).apply t =
      ((Binding.mk x (.var y)).apply t).rename (Equiv.swap x y) := by
  rw [apply_eq_subst, apply_eq_subst, Term.rename, Term.subst_subst]
  refine Term.subst_congr fun z _ => ?_
  by_cases first : z = x
  · subst first
    by_cases same : z = y <;> simp [same]
  · by_cases second : z = y
    · simp [second]
    · simp [first, second, Equiv.swap_apply_of_ne_of_ne first second]

/-- To bind one of two variables to the other, or the other way round, differs
by exchanging the two. -/
theorem Equation.instantiate_exchange (x y : Variable) (e : Equation) :
    e.instantiate ⟨y, .var x⟩ = (e.instantiate ⟨x, .var y⟩).rename (Equiv.swap x y) :=
  congrArg₂ mk (Binding.apply_exchange x y e.left) (Binding.apply_exchange x y e.right)

/-- Two runs have ended alike, or neither has ended. If they have made
bindings, then as many of them, and what comes of a term is the same but for a
permutation of all variables. -/
inductive Verdict.Mirrors : Verdict → Verdict → Prop
  | solved {bindings bindings' : List Binding} (length : bindings'.length = bindings.length)
      (π : Equiv.Perm Variable)
      (same : ∀ t, applyAll bindings' t = (applyAll bindings t).rename π) :
      Mirrors (.solved bindings) (.solved bindings')
  | clash : Mirrors .clash .clash
  | unfinished : Mirrors .unfinished .unfinished

namespace Verdict.Mirrors

variable {v v' : Verdict}

/-- A common binding in front keeps verdicts mirrored. -/
theorem after (h : v.Mirrors v') (b : Binding) : (v.after b).Mirrors (v'.after b) := by
  cases h with
  | solved length π same => exact .solved (congrArg (· + 1) length) π fun t => same (b.apply t)
  | clash => exact .clash
  | unfinished => exact .unfinished

/-- A permutation is put behind that of the bindings made so far. -/
theorem exchange (h : v.Mirrors v') (x y : Variable) :
    (v.after ⟨x, .var y⟩).Mirrors ((v'.rename (Equiv.swap x y)).after ⟨y, .var x⟩) := by
  cases h with
  | @solved bindings bindings' length π same =>
      refine .solved (by simpa using length) (π.trans (Equiv.swap x y)) fun t => ?_
      calc
        applyAll (⟨y, .var x⟩ :: bindings'.map (.rename (Equiv.swap x y))) t
          = applyAll (bindings'.map (.rename (Equiv.swap x y)))
              (((Binding.mk x (.var y)).apply t).rename (Equiv.swap x y)) := by
            rw [applyAll_cons, Binding.apply_exchange]
        _ = (applyAll bindings' ((Binding.mk x (.var y)).apply t)).rename (Equiv.swap x y) :=
            (rename_applyAll (Equiv.swap x y).injective bindings' _).symm
        _ = ((applyAll bindings ((Binding.mk x (.var y)).apply t)).rename π).rename
              (Equiv.swap x y) := by
            rw [same]
        _ = (applyAll (⟨x, .var y⟩ :: bindings) t).rename (π.trans (Equiv.swap x y)) :=
            Term.subst_rename _ _
  | clash => exact .clash
  | unfinished => exact .unfinished

/-- Mirrored verdicts are missing together. -/
theorem finished_iff (h : v.Mirrors v') : v' ≠ .unfinished ↔ v ≠ .unfinished := by
  cases h <;> simp

end Verdict.Mirrors

/-- Equations some of which are turned round are solved in as many moves, clash
after as many, or go on for ever as well. Bindings that solve them are as many,
and do the same to all terms but for one permutation of the variables, also if
there are cycles among them. -/
theorem unify_turned {equations turned : List Equation}
    (each : List.Forall₂ Equation.Turned equations turned) :
    (∀ moves, (unify moves equations).Mirrors (unify moves turned)) ∧
      (Finishes turned ↔ Finishes equations) := by
  suffices mirrors : ∀ moves, (unify moves equations).Mirrors (unify moves turned) from
    ⟨mirrors, exists_congr fun moves => (mirrors moves).finished_iff⟩
  intro moves
  induction moves generalizing equations turned with
  | zero =>
      cases each with
      | nil => exact .solved rfl (Equiv.refl _) fun t => t.subst_id.symm
      | cons _ _ => exact .unfinished
  | succ moves ih =>
      cases each with
      | nil => exact .solved rfl (Equiv.refl _) fun t => t.subst_id.symm
      | @cons e e' rest rest' first others =>
          have instantiated (b : Binding) : List.Forall₂ Equation.Turned
              (rest.map (·.instantiate b)) (rest'.map (·.instantiate b)) :=
            List.forall₂_map_left_iff.mpr (List.forall₂_map_right_iff.mpr
              (others.imp fun _ _ h => h.instantiate b))
          have called := first.move
          rw [unify, unify]
          generalize e.move = m, e'.move = m' at called
          cases called with
          | discard => exact ih others
          | bind b => exact (ih (instantiated b)).after b
          | exchange x y =>
              -- What waits is renamed, and the run on it is the renamed run.
              have waiting : rest'.map (·.instantiate ⟨y, .var x⟩) =
                  (rest'.map (·.instantiate ⟨x, .var y⟩)).map (.rename (Equiv.swap x y)) := by
                rw [List.map_map]
                exact List.map_congr_left fun e _ => e.instantiate_exchange x y
              simp only [waiting, unify_rename (Equiv.swap x y).injective]
              exact (ih (instantiated _)).exchange x y
          | split parts => exact ih (List.rel_append parts others)
          | clash => exact .clash

/-- In `X = Y, X = f(Y)` both equations are turned round. Either way the second
binding is cyclic: `X = Y, Y = f(Y)` become `Y = X, X = f(X)`. -/
theorem unify_turned_cyclic :
    let x : Variable := ⟨0, "X"⟩
    let y : Variable := ⟨1, "Y"⟩
    let f (t : Term) : Term := .app ⟨2, "f"⟩ [t]
    let equations : List Equation := [⟨.var x, .var y⟩, ⟨.var x, f (.var y)⟩]
    let turned : List Equation := [⟨.var y, .var x⟩, ⟨f (.var y), .var x⟩]
    let bindings : List Binding := [⟨x, .var y⟩, ⟨y, f (.var y)⟩]
    let bindings' : List Binding := [⟨y, .var x⟩, ⟨x, f (.var x)⟩]
    List.Forall₂ Equation.Turned equations turned ∧
      unify 2 equations = .solved bindings ∧ unify 2 turned = .solved bindings' ∧
      (Verdict.solved bindings).Mirrors (.solved bindings') ∧
      (Finishes turned ↔ Finishes equations) := by
  intro x y f equations turned bindings bindings'
  have each : List.Forall₂ Equation.Turned equations turned :=
    .cons (.inr rfl) (.cons (.inr rfl) .nil)
  have solved : unify 2 equations = .solved bindings := rfl
  have solved' : unify 2 turned = .solved bindings' := rfl
  obtain ⟨mirrors, finishes⟩ := unify_turned each
  have alike := mirrors 2
  rw [solved, solved'] at alike
  exact ⟨each, solved, solved', alike, finishes⟩

end Resolvent
