/-
# Solutions of equations

The bindings that unification yields have the very solutions that the equations
have: a substitution makes all equations hold exactly when it satisfies all
bindings. One direction is the soundness of unification and the other says that
the bindings are most general. Neither needs the bindings to be free of cycles.

If there is a solution at all then unification ends well. What shrinks with
every move is the total size of the left sides under the solution: a binding
rewrites the waiting equations, but the solution does not see that.
-/

import Mathlib.Data.Nat.Init
import Resolvent.Proofs.Unification.Derivation

namespace Resolvent

namespace Term

mutual

/-- The number of symbols in a term. -/
def size : Term → Nat
  | .var _ => 1
  | .const _ => 1
  | .app _ args => sizeEach args + 1

/-- The number of symbols in several terms. -/
def sizeEach : List Term → Nat
  | [] => 0
  | t :: ts => size t + sizeEach ts

end

/-- Every term has a size. -/
theorem size_pos (t : Term) : 0 < t.size := by
  cases t with
  | var x => exact Nat.one_pos
  | const c => exact Nat.one_pos
  | app f args => exact Nat.succ_pos _

/-- An argument is no larger than all arguments together. -/
theorem size_le_sizeEach {t : Term} {args : List Term} (h : t ∈ args) :
    t.size ≤ sizeEach args := by
  induction args with
  | nil => cases h
  | cons s rest ih =>
      rw [sizeEach]
      rcases List.mem_cons.mp h with rfl | later
      · exact Nat.le_add_right _ _
      · exact Nat.le_trans (ih later) (Nat.le_add_left _ _)

/-- An argument is smaller than the application. -/
theorem size_lt_app {t : Term} {f : Functor} {args : List Term} (h : t ∈ args) :
    t.size < (Term.app f args).size :=
  Nat.lt_succ_of_le (size_le_sizeEach h)

/-- What is put in place of a variable is part of the instance. -/
theorem size_le_size_subst {x : Variable} {t : Term} (hx : x ∈ t.vars) (τ : Substitution) :
    (τ x).size ≤ (t.subst τ).size := by
  induction t with
  | var y =>
      obtain rfl : x = y := by simpa using hx
      exact Nat.le_refl _
  | const c => simp at hx
  | app f args ih =>
      obtain ⟨t, ht, hx⟩ := mem_vars_app.mp hx
      rw [subst_app]
      exact Nat.le_trans (ih t ht hx) (Nat.le_of_lt (size_lt_app (List.mem_map_of_mem ht)))

end Term

/-- A substitution unifies equations when it makes each of them hold. -/
def Substitution.Unifies (τ : Substitution) (equations : List Equation) : Prop :=
  ∀ e ∈ equations, e.Holds τ

namespace Substitution

variable {τ : Substitution}

@[simp] theorem unifies_nil : τ.Unifies [] := by
  simp [Unifies]

/-- To unify equations is to make each of them hold. -/
@[simp] theorem unifies_cons {e : Equation} {rest : List Equation} :
    τ.Unifies (e :: rest) ↔ e.Holds τ ∧ τ.Unifies rest := by
  simp [Unifies]

@[simp] theorem unifies_append {equations others : List Equation} :
    τ.Unifies (equations ++ others) ↔ τ.Unifies equations ∧ τ.Unifies others := by
  simp [Unifies, or_imp, forall_and]

/-- Rewriting the equations with a satisfied binding makes no difference. -/
theorem unifies_map_instantiate {b : Binding} (satisfied : τ b.var = b.term.subst τ)
    {equations : List Equation} :
    τ.Unifies (equations.map (·.instantiate b)) ↔ τ.Unifies equations := by
  simp [Unifies, Equation.Holds, Equation.instantiate, subst_apply satisfied]

/-- The size of the left sides under a substitution. -/
def weight (τ : Substitution) : List Equation → Nat
  | [] => 0
  | e :: rest => (e.left.subst τ).size + weight τ rest

/-- The weight of two lists of equations is that of both. -/
theorem weight_append (equations others : List Equation) :
    τ.weight (equations ++ others) = τ.weight equations + τ.weight others := by
  induction equations with
  | nil => simp [weight]
  | cons e rest ih => simp [weight, ih, Nat.add_assoc]

/-- Every equation has a weight. -/
theorem weight_lt_cons (e : Equation) (rest : List Equation) :
    τ.weight rest < τ.weight (e :: rest) := by
  have positive := (e.left.subst τ).size_pos
  rw [weight]
  omega

/-- A binding that is satisfied does not change what the equations weigh. -/
theorem weight_map_instantiate {b : Binding} (satisfied : τ b.var = b.term.subst τ)
    (equations : List Equation) :
    τ.weight (equations.map (·.instantiate b)) = τ.weight equations := by
  induction equations with
  | nil => rfl
  | cons e rest ih =>
      rw [List.map_cons, weight, weight, ih, Equation.instantiate, subst_apply satisfied]

/-- Equations between arguments weigh what one side of them does. -/
theorem weight_zipWith {ss ts : List Term} (same : ss.length = ts.length) :
    τ.weight (List.zipWith Equation.mk ss ts) = Term.sizeEach (ss.map (Term.subst τ)) := by
  induction ss generalizing ts with
  | nil => rfl
  | cons s ss ih =>
      cases ts with
      | nil => simp at same
      | cons t ts =>
          have tails : ss.length = ts.length := by simpa using same
          rw [List.zipWith_cons_cons, weight, ih tails, List.map_cons, Term.sizeEach]

/-- The parts of an equation weigh less than the equation: its functor is
gone. -/
theorem weight_split_lt {e : Equation} {parts : List Equation} (h : e.move = .split parts)
    (rest : List Equation) : τ.weight (parts ++ rest) < τ.weight (e :: rest) := by
  have calls := e.move_calls
  rw [h] at calls
  cases calls with
  | split _ same =>
      rw [weight_append, weight_zipWith same, weight, Term.subst_app, Term.size]
      omega

end Substitution

namespace Yields

variable {equations : List Equation} {bindings : List Binding}

/-- The bindings have the same solutions as the equations. -/
theorem unifies_iff (h : Yields equations bindings) (τ : Substitution) :
    τ.Unifies equations ↔ τ.Satisfies bindings := by
  induction h with
  | nil => simp
  | discard h _ ih => simpa [Equation.holds_of_discard h] using ih
  | bind h _ ih =>
      rw [Substitution.unifies_cons, Equation.holds_iff_of_bind h, Substitution.satisfies_cons]
      refine and_congr_right fun satisfied => ?_
      rw [← ih, Substitution.unifies_map_instantiate satisfied]
  | split h _ ih =>
      rw [← ih, Substitution.unifies_append, Substitution.unifies_cons,
        Equation.holds_iff_of_split h]
      rfl

/-- Equations that have a solution yield bindings. -/
theorem exists_of_unifies {τ : Substitution} (unifies : τ.Unifies equations) :
    ∃ bindings, Yields equations bindings := by
  induction weight : τ.weight equations using Nat.strong_induction_on
    generalizing equations with
  | _ n ih =>
      subst weight
      cases equations with
      | nil => exact ⟨[], .nil⟩
      | cons e rest =>
          obtain ⟨holds, others⟩ := Substitution.unifies_cons.mp unifies
          have lighter := τ.weight_lt_cons e rest
          cases move : e.move with
          | discard =>
              obtain ⟨bindings, derivation⟩ := ih _ lighter others rfl
              exact ⟨bindings, .discard move derivation⟩
          | bind b =>
              have satisfied := (Equation.holds_iff_of_bind move).mp holds
              rw [← Substitution.weight_map_instantiate satisfied] at lighter
              obtain ⟨bindings, derivation⟩ := ih _ lighter
                ((Substitution.unifies_map_instantiate satisfied).mpr others) rfl
              exact ⟨b :: bindings, .bind move derivation⟩
          | split parts =>
              have each : τ.Unifies parts := (Equation.holds_iff_of_split move).mp holds
              obtain ⟨bindings, derivation⟩ := ih _ (τ.weight_split_lt move rest)
                (Substitution.unifies_append.mpr ⟨each, others⟩) rfl
              exact ⟨bindings, .split move derivation⟩
          | clash => exact absurd holds (Equation.not_holds_of_clash move)

end Yields

end Resolvent
