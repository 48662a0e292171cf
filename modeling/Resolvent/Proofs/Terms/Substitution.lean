/-
# Simultaneous substitution

A list of bindings acts one binding after another. What it brings about is
compared here with a substitution, which gives every variable a term and puts
them all in place at once.

A substitution satisfies bindings when it gives each bound variable the value
of the bound term. To such a substitution the bindings are invisible: applying
them first changes nothing. No condition on the bindings is needed for that;
they may well be cyclic. When they are not, the bindings themselves are read as
a substitution, namely the one that applies them all to a variable.
-/

import Resolvent.Clause
import Resolvent.Proofs.Terms.Variables

namespace Resolvent

/-- A term for every variable. -/
abbrev Substitution := Variable → Term

namespace Term

mutual

/-- The term with all variables replaced at once. -/
def subst (θ : Substitution) : Term → Term
  | .var x => θ x
  | .const c => .const c
  | .app f args => .app f (substEach θ args)

/-- The terms with all variables replaced at once. -/
def substEach (θ : Substitution) : List Term → List Term
  | [] => []
  | t :: ts => subst θ t :: substEach θ ts

end

@[simp] theorem subst_var (θ : Substitution) (x : Variable) : (Term.var x).subst θ = θ x := rfl

@[simp] theorem subst_const (θ : Substitution) (c : Constant) :
    (Term.const c).subst θ = .const c := rfl

@[simp] theorem subst_app (θ : Substitution) (f : Functor) (args : List Term) :
    (Term.app f args).subst θ = .app f (args.map (subst θ)) := by
  have each : substEach θ args = args.map (subst θ) := by
    induction args with
    | nil => rfl
    | cons t ts ih => rw [substEach, ih, List.map_cons]
  rw [subst, each]

/-- Only the variables of the term matter. -/
theorem subst_congr {θ η : Substitution} {t : Term} (agree : ∀ x ∈ t.vars, θ x = η x) :
    t.subst θ = t.subst η := by
  induction t with
  | var x => exact agree x (by simp)
  | const c => rfl
  | app f args ih =>
      simp only [subst_app, app.injEq, true_and]
      refine List.map_congr_left fun t ht => ih t ht fun x hx => ?_
      exact agree x (mem_vars_app.mpr ⟨t, ht, hx⟩)

/-- The identity leaves a term as it is. -/
@[simp] theorem subst_id (t : Term) : t.subst .var = t := by
  induction t with
  | var x => rfl
  | const c => rfl
  | app f args ih => rw [subst_app, List.map_congr_left ih, List.map_id']

/-- Two substitutions in a row are one. -/
theorem subst_subst (θ η : Substitution) (t : Term) :
    (t.subst θ).subst η = t.subst fun x => (θ x).subst η := by
  induction t with
  | var x => rfl
  | const c => rfl
  | app f args ih => simpa using ih

/-- A ground term is its own only instance. -/
theorem subst_eq_self {t : Term} (ground : t.isGround) (θ : Substitution) : t.subst θ = t := by
  have agree : ∀ x ∈ t.vars, θ x = .var x := fun x hx => absurd hx (isGround_iff.mp ground x)
  rw [subst_congr agree, subst_id]

/-- The variables afterwards are those of the terms put in. -/
theorem mem_vars_subst {x : Variable} {θ : Substitution} {t : Term} :
    x ∈ (t.subst θ).vars ↔ ∃ y ∈ t.vars, x ∈ (θ y).vars := by
  induction t with
  | var y => simp
  | const c => simp
  | app f args ih =>
      rw [subst_app, mem_vars_app]
      constructor
      · rintro ⟨_, image, hx⟩
        obtain ⟨t, ht, rfl⟩ := List.mem_map.mp image
        obtain ⟨y, hy, hxy⟩ := (ih t ht).mp hx
        exact ⟨y, mem_vars_app.mpr ⟨t, ht, hy⟩, hxy⟩
      · rintro ⟨y, occurs, hxy⟩
        obtain ⟨t, ht, hy⟩ := mem_vars_app.mp occurs
        exact ⟨t.subst θ, List.mem_map_of_mem ht, (ih t ht).mpr ⟨y, hy, hxy⟩⟩

end Term

namespace Binding

/-- A single binding read as a substitution. -/
theorem apply_eq_subst (b : Binding) (t : Term) :
    b.apply t = t.subst fun x => if x = b.var then b.term else .var x := by
  induction t with
  | var x => simp
  | const c => rfl
  | app f args ih => simpa using ih

/-- A term without the bound variable is left as it is. -/
theorem apply_eq_self {b : Binding} {t : Term} (absent : b.var ∉ t.vars) : b.apply t = t := by
  have agree : ∀ x ∈ t.vars, (if x = b.var then b.term else .var x) = .var x := by
    intro x hx
    have other : x ≠ b.var := fun same => absent (same ▸ hx)
    rw [if_neg other]
  rw [apply_eq_subst, Term.subst_congr agree, Term.subst_id]

/-- The bound variable makes way for the variables of the bound term. -/
theorem mem_vars_apply {x : Variable} {b : Binding} {t : Term} :
    x ∈ (b.apply t).vars ↔ (x ∈ t.vars ∧ x ≠ b.var) ∨ (b.var ∈ t.vars ∧ x ∈ b.term.vars) := by
  rw [apply_eq_subst, Term.mem_vars_subst]
  constructor
  · rintro ⟨y, hy, hxy⟩
    by_cases bound : y = b.var
    · rw [if_pos bound] at hxy
      exact .inr ⟨bound ▸ hy, hxy⟩
    · rw [if_neg bound, Term.vars_var, List.mem_singleton] at hxy
      exact .inl ⟨hxy ▸ hy, hxy ▸ bound⟩
  · rintro (⟨hx, other⟩ | ⟨hb, hx⟩)
    · exact ⟨x, hx, by simp [other]⟩
    · exact ⟨b.var, hb, by simpa using hx⟩

end Binding

@[simp] theorem applyAll_const (bindings : List Binding) (c : Constant) :
    applyAll bindings (.const c) = .const c := by
  induction bindings with
  | nil => rfl
  | cons b bs ih => exact ih

/-- Bindings in sequence reach into an application, argument by argument. -/
@[simp] theorem applyAll_app (bindings : List Binding) (f : Functor) (args : List Term) :
    applyAll bindings (.app f args) = .app f (args.map (applyAll bindings)) := by
  induction bindings generalizing args with
  | nil => rw [applyAll_nil, List.map_congr_left fun t _ => applyAll_nil t, List.map_id']
  | cons b bs ih => simp [ih, Function.comp_def]

/-- A list of bindings read as a substitution. -/
theorem applyAll_eq_subst (bindings : List Binding) (t : Term) :
    applyAll bindings t = t.subst fun x => applyAll bindings (.var x) := by
  induction t with
  | var x => rfl
  | const c => simp
  | app f args ih => simpa using ih

/-! ### Satisfied bindings -/

/-- A substitution satisfies bindings when it gives each bound variable the
value of the bound term. -/
def Substitution.Satisfies (τ : Substitution) (bindings : List Binding) : Prop :=
  ∀ b ∈ bindings, τ b.var = b.term.subst τ

namespace Substitution

@[simp] theorem satisfies_nil (τ : Substitution) : τ.Satisfies [] := by
  simp [Satisfies]

/-- To satisfy bindings is to satisfy each of them. -/
@[simp] theorem satisfies_cons {τ : Substitution} {b : Binding} {bs : List Binding} :
    τ.Satisfies (b :: bs) ↔ τ b.var = b.term.subst τ ∧ τ.Satisfies bs := by
  simp [Satisfies]

@[simp] theorem satisfies_append {τ : Substitution} {bs cs : List Binding} :
    τ.Satisfies (bs ++ cs) ↔ τ.Satisfies bs ∧ τ.Satisfies cs := by
  simp [Satisfies, or_imp, forall_and]

/-- A satisfied binding is invisible to the substitution. -/
theorem subst_apply {τ : Substitution} {b : Binding} (satisfied : τ b.var = b.term.subst τ)
    (t : Term) : (b.apply t).subst τ = t.subst τ := by
  induction t with
  | var x =>
      by_cases bound : x = b.var
      · simp [bound, satisfied]
      · simp [bound]
  | const c => rfl
  | app f args ih => simpa using ih

/-- So is a list of satisfied bindings. -/
theorem subst_applyAll {τ : Substitution} {bindings : List Binding}
    (satisfied : τ.Satisfies bindings) (t : Term) :
    (applyAll bindings t).subst τ = t.subst τ := by
  induction bindings generalizing t with
  | nil => rfl
  | cons b bs ih =>
      obtain ⟨first, others⟩ := satisfies_cons.mp satisfied
      rw [applyAll_cons, ih others, subst_apply first]

end Substitution

/-! ### Instances of atoms -/

namespace Atom

/-- The instance of an atom under a substitution. -/
def subst (θ : Substitution) (a : Atom) : Atom :=
  { a with args := a.args.map (Term.subst θ) }

@[simp] theorem predicate_subst (θ : Substitution) (a : Atom) :
    (a.subst θ).predicate = a.predicate := rfl

@[simp] theorem args_subst (θ : Substitution) (a : Atom) :
    (a.subst θ).args = a.args.map (Term.subst θ) := rfl

@[simp] theorem arity_subst (θ : Substitution) (a : Atom) : (a.subst θ).arity = a.arity :=
  List.length_map _

/-- Whether two atoms match is not a matter of their arguments. -/
@[simp] theorem subst_matches? (θ : Substitution) (a b : Atom) :
    (a.subst θ).matches? b = a.matches? b := by
  rw [matches?, matches?, arity_subst, predicate_subst]

/-- Atoms that match still do after a substitution, since it keeps the number
of arguments. -/
@[simp] theorem matches?_subst (θ : Substitution) (a b : Atom) :
    a.matches? (b.subst θ) = a.matches? b := by
  rw [matches?, matches?, arity_subst, predicate_subst]

end Atom

end Resolvent
