/-
# Alphabets

An alphabet says which symbols may be used. What is built over an alphabet uses
no others, and every application in it has an argument. Putting terms over an
alphabet in place of variables leads to nothing else, so whatever resolution
makes of clauses over an alphabet is over it too.
-/

import Resolvent.Proofs.Clauses.Standardized

namespace Resolvent

/-- Which symbols may be used, of whatever role. -/
structure Alphabet where
  Allows : {role : SymbolRole} → Symbol role → Prop

/-- One alphabet allows no more than another. -/
def Alphabet.Within (A B : Alphabet) : Prop :=
  ∀ ⦃role : SymbolRole⦄ (s : Symbol role), A.Allows s → B.Allows s

/-- All symbols but for the variables, of which there are only these. -/
def Alphabet.withVariables (xs : List Variable) : Alphabet where
  Allows {role} s :=
    match role with
    | .var => s ∈ xs
    | .const | .functor | .predicate => True

/-- Whether a variable may be used is told from its name alone. -/
def Alphabet.Renames (A : Alphabet) : Prop :=
  ∀ x y : Variable, x.name = y.name → A.Allows x → A.Allows y

namespace Term

/-- A term that uses symbols of an alphabet only. -/
inductive Over (A : Alphabet) : Term → Prop
  | var {x : Variable} (h : A.Allows x) : Over A (.var x)
  | const {c : Constant} (h : A.Allows c) : Over A (.const c)
  | app {f : Functor} {args : List Term} (h : A.Allows f) (some : args ≠ [])
      (each : ∀ t ∈ args, Over A t) : Over A (.app f args)

namespace Over

variable {A B : Alphabet} {t : Term}

/-- A term over an alphabet is one over any larger alphabet. -/
theorem mono (within : A.Within B) (h : t.Over A) : t.Over B := by
  induction h with
  | var h => exact .var (within _ h)
  | const h => exact .const (within _ h)
  | app h some _ ih => exact .app (within _ h) some ih

/-- The variables of a term are in its alphabet. -/
theorem allows_of_mem_vars (h : t.Over A) : ∀ x ∈ t.vars, A.Allows x := by
  induction h with
  | var h => simpa using h
  | const _ => simp
  | app _ _ _ ih =>
      intro x hx
      obtain ⟨t, ht, hx⟩ := mem_vars_app.mp hx
      exact ih t ht x hx

/-- Terms over the alphabet may be put in place of variables. -/
theorem subst {θ : Substitution} (each : ∀ x : Variable, A.Allows x → (θ x).Over A)
    (h : t.Over A) : (t.subst θ).Over A := by
  induction h with
  | var h => exact each _ h
  | const h => exact .const h
  | app h some _ ih =>
      rw [subst_app]
      refine .app h (by simpa using some) fun t ht => ?_
      obtain ⟨s, hs, rfl⟩ := List.mem_map.mp ht
      exact ih s hs

/-- A binding over an alphabet does not lead out of it. -/
theorem apply {b : Binding} (bound : b.term.Over A) (h : t.Over A) : (b.apply t).Over A := by
  rw [b.apply_eq_subst]
  refine h.subst fun x allowed => ?_
  split
  · exact bound
  · exact .var allowed

theorem applyAll {bindings : List Binding} (bound : ∀ b ∈ bindings, b.term.Over A)
    (h : t.Over A) : (applyAll bindings t).Over A := by
  induction bindings generalizing t with
  | nil => exact h
  | cons b bs ih =>
      obtain ⟨first, others⟩ := List.forall_mem_cons.mp bound
      exact ih others (first.apply h)

end Over

end Term

/-- An atom over an alphabet. -/
structure Atom.Over (A : Alphabet) (a : Atom) : Prop where
  predicate : A.Allows a.predicate
  args : ∀ t ∈ a.args, t.Over A

/-- A clause over an alphabet. -/
structure Clause.Over (A : Alphabet) (c : Clause) : Prop where
  head : c.head.Over A
  body : ∀ a ∈ c.body, a.Over A

variable {A B : Alphabet}

theorem Alphabet.Within.terms {ts : List Term} (within : A.Within B) (h : ∀ t ∈ ts, t.Over A) :
    ∀ t ∈ ts, t.Over B :=
  fun t ht => (h t ht).mono within

/-- An atom over an alphabet is one over any larger alphabet. -/
theorem Atom.Over.mono {a : Atom} (within : A.Within B) (h : a.Over A) : a.Over B :=
  ⟨within _ h.predicate, within.terms h.args⟩

theorem Alphabet.Within.atoms {atoms : List Atom} (within : A.Within B)
    (h : ∀ a ∈ atoms, a.Over A) : ∀ a ∈ atoms, a.Over B :=
  fun a ha => (h a ha).mono within

/-- A clause over an alphabet is one over any larger alphabet. -/
theorem Clause.Over.mono {c : Clause} (within : A.Within B) (h : c.Over A) : c.Over B :=
  ⟨h.head.mono within, within.atoms h.body⟩

/-- Bindings over an alphabet do not lead an atom out of it. -/
theorem Atom.Over.instantiate {a : Atom} {bindings : List Binding}
    (bound : ∀ b ∈ bindings, b.term.Over A) (h : a.Over A) :
    (a.instantiate bindings).Over A := by
  refine ⟨h.predicate, fun t ht => ?_⟩
  obtain ⟨s, hs, rfl⟩ := List.mem_map.mp ht
  exact (h.args s hs).applyAll bound

theorem Clause.Over.instantiate {c : Clause} {bindings : List Binding}
    (bound : ∀ b ∈ bindings, b.term.Over A) (h : c.Over A) :
    (c.instantiate bindings).Over A := by
  obtain ⟨head, body⟩ := h
  cases c with
  | fact a => exact ⟨Atom.Over.instantiate bound head, body⟩
  | rule r =>
      refine ⟨Atom.Over.instantiate bound head, fun a ha => ?_⟩
      obtain ⟨b, hb, rfl⟩ := List.mem_map.mp ha
      exact (body b hb).instantiate bound

/-- Every variable of a clause over the alphabet is allowed. -/
theorem Clause.Over.allows_of_mem_vars {c : Clause} (h : c.Over A) :
    ∀ x ∈ c.vars, A.Allows x := by
  intro x hx
  rcases Clause.mem_vars.mp hx with ⟨t, ht, hx⟩ | ⟨a, ha, t, ht, hx⟩
  · exact (h.head.args t ht).allows_of_mem_vars x hx
  · exact ((h.body a ha).args t ht).allows_of_mem_vars x hx

/-- The variables of atoms are in their alphabet. -/
theorem Alphabet.allows_of_mem_varsOf {atoms : List Atom} (h : ∀ a ∈ atoms, a.Over A) :
    ∀ x ∈ varsOf (atoms.flatMap Atom.args), A.Allows x := by
  intro x hx
  obtain ⟨t, ht, hx⟩ := mem_varsOf.mp hx
  obtain ⟨a, ha, ht⟩ := List.mem_flatMap.mp ht
  exact ((h a ha).args t ht).allows_of_mem_vars x hx

/-- The copy of a clause is over the alphabet too, since fresh variables keep
the names. -/
theorem Clause.Over.standardizeApart {c : Clause} (h : c.Over A) (renames : A.Renames)
    (supply : Supply) : (c.standardizeApart supply).1.Over A := by
  have fresh (xs : List Variable) (allowed : ∀ x ∈ xs, A.Allows x) (supply : Supply) :
      ∀ b ∈ (freshened xs supply).1, b.term.Over A := by
    induction xs generalizing supply with
    | nil => simp [freshened]
    | cons x xs ih =>
        obtain ⟨first, others⟩ := List.forall_mem_cons.mp allowed
        exact List.forall_mem_cons.mpr ⟨.var (renames x _ rfl first), ih others _⟩
  unfold Clause.standardizeApart
  split
  · exact h
  · exact h.instantiate (fresh _ h.allows_of_mem_vars _)

/-! ### Variables by themselves -/

section

variable (others : ∀ {role : SymbolRole} (s : Symbol role), role ≠ .var → A.Allows s → B.Allows s)

include others

/-- If the variables are looked after, nothing but the other symbols
matters. -/
theorem Term.Over.of_vars {t : Term} (h : t.Over A) (own : ∀ x ∈ t.vars, B.Allows x) :
    t.Over B := by
  induction h with
  | var _ => exact .var (own _ (by simp))
  | const allowed => exact .const (others _ (by decide) allowed)
  | app allowed some _ ih =>
      refine .app (others _ (by decide) allowed) some fun t ht => ih t ht fun x hx => ?_
      exact own x (mem_vars_app.mpr ⟨t, ht, hx⟩)

theorem Atom.Over.of_vars {a : Atom} (h : a.Over A) (own : ∀ x, a.Mentions x → B.Allows x) :
    a.Over B where
  predicate := others _ (by decide) h.predicate
  args t ht := (h.args t ht).of_vars others fun x hx => own x ⟨t, ht, hx⟩

theorem Clause.Over.of_vars {c : Clause} (h : c.Over A) (own : ∀ x ∈ c.vars, B.Allows x) :
    c.Over B where
  head := h.head.of_vars others fun x hx => own x (Clause.mem_vars.mpr (.inl hx))
  body a ha := (h.body a ha).of_vars others fun x hx =>
    own x (Clause.mem_vars.mpr (.inr ⟨a, ha, hx⟩))

end

end Resolvent
