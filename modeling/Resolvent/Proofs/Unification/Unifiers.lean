/-
# Unification finds a most general unifier

Unification is compared here with the unifiers of its equations, which are said
without it. If there is a unifier, then the run ends, does not clash, and
yields bindings without a cycle. They unify the equations themselves, and no
unifier can see them: whatever it makes of a term, it makes of the term to
which they have been applied.

The converse is about any run that yields bindings. It may have made cyclic
ones, since nothing looks for cycles, and then nothing has been solved.
Otherwise the bindings are in solved form, so that applying them once, from the
first to the last, solves every equation.
-/

import Resolvent.Proofs.Unification.Termination

namespace Resolvent

namespace Yields

variable {equations : List Equation} {bindings : List Binding}

/-- From some number of moves on the run ends with these bindings. -/
theorem exists_forall_unify (h : Yields equations bindings) :
    ∃ moves, ∀ more, moves ≤ more → unify more equations = .solved bindings := by
  obtain ⟨moves, solved⟩ := h.exists_unify
  refine ⟨moves, fun more enough => ?_⟩
  rw [unify_of_le enough (by simp [solved]), solved]

/-- Equations that can be unified are unified without cycles. -/
theorem acyclic_of_unifies (h : Yields equations bindings) {τ : Substitution}
    (unifies : τ.Unifies equations) : ∀ b ∈ bindings, ¬ b.IsCyclic := by
  have satisfied : τ.Satisfies bindings := (h.unifies_iff τ).mp unifies
  intro b bound
  exact Binding.not_isCyclic_of_satisfied (satisfied b bound) (h.binds b bound).term_ne_var

/-- Without cycles the bindings unify the equations. -/
theorem unified (h : Yields equations bindings) (acyclic : ∀ b ∈ bindings, ¬ b.IsCyclic) :
    ∀ e ∈ equations, applyAll bindings e.left = applyAll bindings e.right := by
  have unifies := (h.unifies_iff _).mpr (h.solvedForm acyclic).satisfies
  intro e among
  rw [applyAll_eq_subst, applyAll_eq_subst]
  exact unifies e among

end Yields

/-- Equations that have a unifier are unified, whatever number of moves is
given beyond some first one, and never clash. The bindings have no cycles, they
unify the equations, and every unifier takes a term to what it takes the term
to after the bindings: they are most general. -/
theorem unify_eq_solved_of_unifies {equations : List Equation} {τ : Substitution}
    (unifiable : τ.Unifies equations) :
    ∃ bindings,
      (∃ moves, ∀ more, moves ≤ more → unify more equations = .solved bindings) ∧
      (∀ moves, unify moves equations ≠ .clash) ∧
      (∀ b ∈ bindings, ¬ b.IsCyclic) ∧
      (∀ e ∈ equations, applyAll bindings e.left = applyAll bindings e.right) ∧
      ∀ θ : Substitution, θ.Unifies equations →
        ∀ t, (applyAll bindings t).subst θ = t.subst θ := by
  obtain ⟨bindings, derivation⟩ := Yields.exists_of_unifies unifiable
  have acyclic := derivation.acyclic_of_unifies unifiable
  refine ⟨bindings, derivation.exists_forall_unify, ?_, acyclic, derivation.unified acyclic, ?_⟩
  · intro moves clashed
    have none := solution?_eq_none_of_clash clashed
    rw [solution?_eq_some_iff.mpr derivation] at none
    cases none
  · intro θ unifies t
    exact Substitution.subst_applyAll ((derivation.unifies_iff θ).mp unifies) t

/-- The unifier that takes `X` to `g(a)` and `Y` to `a` is found for
`f(X, Y) = f(g(Y), a)`, by way of two bindings of which the first one leaves
`Y` open. -/
theorem unify_eq_solved_of_unifies_nested :
    let x : Variable := ⟨0, "X"⟩
    let y : Variable := ⟨1, "Y"⟩
    let a : Term := .const ⟨2, "a"⟩
    let g (t : Term) : Term := .app ⟨3, "g"⟩ [t]
    let equations : List Equation :=
      [⟨.app ⟨4, "f"⟩ [.var x, .var y], .app ⟨4, "f"⟩ [g (.var y), a]⟩]
    let τ : Substitution := fun z => if z = x then g a else a
    τ.Unifies equations ∧ ∃ bindings,
      (∃ moves, ∀ more, moves ≤ more → unify more equations = .solved bindings) ∧
      (∀ moves, unify moves equations ≠ .clash) ∧
      (∀ b ∈ bindings, ¬ b.IsCyclic) ∧
      (∀ e ∈ equations, applyAll bindings e.left = applyAll bindings e.right) ∧
      ∀ θ : Substitution, θ.Unifies equations →
        ∀ t, (applyAll bindings t).subst θ = t.subst θ := by
  intro x y a g equations τ
  have unifiable : τ.Unifies equations := by
    intro e among
    rw [List.mem_singleton.mp among]
    rfl
  exact ⟨unifiable, unify_eq_solved_of_unifies unifiable⟩

/-- Bindings without a cycle that a run has ended with solve the equations. No
variable is bound twice, the variable of a binding is gone from all later ones,
applying the bindings again changes nothing, and there is no variable in them
that was not in the equations. -/
theorem solves_of_unify_eq_solved {moves : Nat} {equations : List Equation}
    {bindings : List Binding} (solved : unify moves equations = .solved bindings)
    (acyclic : ∀ b ∈ bindings, ¬ b.IsCyclic) :
    (∀ e ∈ equations, applyAll bindings e.left = applyAll bindings e.right) ∧
      (bindings.map Binding.var).Nodup ∧
      bindings.Pairwise (fun b c => c.var ≠ b.var ∧ b.var ∉ c.term.vars) ∧
      (∀ t, applyAll bindings (applyAll bindings t) = applyAll bindings t) ∧
      ∀ b ∈ bindings, ∀ x, x = b.var ∨ x ∈ b.term.vars →
        ∃ e ∈ equations, x ∈ e.left.vars ∨ x ∈ e.right.vars := by
  have derivation := Yields.of_unify solved
  have form := derivation.solvedForm acyclic
  refine ⟨derivation.unified acyclic, form.nodup_vars, form.eliminated, form.applyAll_applyAll, ?_⟩
  intro b bound x occurs
  exact derivation.exists_mentions bound occurs

/-- Three moves solve `f(X, Y) = f(g(Y), a)`: the first binding is `X = g(Y)`,
and what it has put in place of `X` is completed by the second one. -/
theorem solves_of_unify_eq_solved_nested :
    let x : Variable := ⟨0, "X"⟩
    let y : Variable := ⟨1, "Y"⟩
    let a : Term := .const ⟨2, "a"⟩
    let left : Term := .app ⟨4, "f"⟩ [.var x, .var y]
    let right : Term := .app ⟨4, "f"⟩ [.app ⟨3, "g"⟩ [.var y], a]
    let bindings : List Binding := [⟨x, .app ⟨3, "g"⟩ [.var y]⟩, ⟨y, a⟩]
    unify 3 [⟨left, right⟩] = .solved bindings ∧ (∀ b ∈ bindings, ¬ b.IsCyclic) ∧
      applyAll bindings left = applyAll bindings right ∧
      (bindings.map Binding.var).Nodup ∧
      bindings.Pairwise (fun b c => c.var ≠ b.var ∧ b.var ∉ c.term.vars) ∧
      (∀ t, applyAll bindings (applyAll bindings t) = applyAll bindings t) ∧
      ∀ b ∈ bindings, ∀ z, z = b.var ∨ z ∈ b.term.vars → z ∈ left.vars ∨ z ∈ right.vars := by
  intro x y a left right bindings
  have solved : unify 3 [⟨left, right⟩] = .solved bindings := rfl
  have acyclic : ∀ b ∈ bindings, ¬ b.IsCyclic := by
    change ∀ b ∈ bindings, b.var ∉ b.term.vars
    decide
  obtain ⟨unified, distinct, apart, again, within⟩ := solves_of_unify_eq_solved solved acyclic
  refine ⟨solved, acyclic, unified _ (List.mem_singleton_self _), distinct, apart, again, ?_⟩
  intro b bound z occurs
  obtain ⟨e, among, there⟩ := within b bound z occurs
  rwa [List.mem_singleton.mp among] at there

end Resolvent
