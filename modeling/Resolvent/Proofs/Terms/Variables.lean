/-
# The variables of a term

Collecting the variables of a term threads a list of those already found. Here
that list is related to plain membership: a variable is collected exactly when
it occurs, and it is collected once. Groundness, which the program decides by a
recursion of its own, is the absence of collected variables.

Induction on terms is stated with one hypothesis for all arguments of an
application, so that no proof has to treat lists of terms beside terms.
-/

import Mathlib.Data.List.Nodup
import Resolvent.Term

namespace Resolvent

namespace Term

/-- Induction on terms. The arguments of an application share one
hypothesis. -/
@[elab_as_elim, induction_eliminator]
theorem induction {motive : Term → Prop} (var : ∀ x, motive (.var x))
    (const : ∀ c, motive (.const c))
    (app : ∀ f args, (∀ t ∈ args, motive t) → motive (.app f args)) (t : Term) :
    motive t :=
  @Term.rec motive (fun args => ∀ t ∈ args, motive t)
    var const app (fun _ absent => nomatch absent)
    (fun _ _ head tail s occurs => by
      rcases List.mem_cons.mp occurs with rfl | later
      · exact head
      · exact tail s later)
    t

/-- A variable that is noted is among those found, and no other is added. -/
theorem mem_note {found : List Variable} {x y : Variable} :
    x ∈ note found y ↔ x ∈ found ∨ x = y := by
  unfold note
  split
  · next known =>
      constructor
      · exact Or.inl
      · rintro (old | rfl)
        · exact old
        · exact known
  · simp

/-- No variable is noted twice. -/
theorem nodup_note {found : List Variable} (distinct : found.Nodup) (y : Variable) :
    (note found y).Nodup := by
  unfold note
  split
  · exact distinct
  · next unknown => exact List.nodup_append.mpr ⟨distinct, by simp, by grind⟩

/-- What is collected from several terms comes from one of them, provided that
this is so for each alone. -/
private theorem mem_collectEach_of_each {x : Variable} {args : List Term}
    (each : ∀ t ∈ args, ∀ found, x ∈ collect found t ↔ x ∈ found ∨ x ∈ t.vars)
    (found : List Variable) :
    x ∈ collectEach found args ↔ x ∈ found ∨ ∃ t ∈ args, x ∈ t.vars := by
  induction args generalizing found with
  | nil => simp [collectEach]
  | cons t ts ih =>
      rw [collectEach, ih (fun s hs => each s (List.mem_cons_of_mem t hs)),
        each t List.mem_cons_self]
      simp only [List.exists_mem_cons_iff, or_assoc]

/-- Collecting adds the variables of the term to those already found. -/
theorem mem_collect {x : Variable} {t : Term} {found : List Variable} :
    x ∈ collect found t ↔ x ∈ found ∨ x ∈ t.vars := by
  induction t generalizing found with
  | var y => simp [vars, collect, mem_note]
  | const c => simp [vars, collect]
  | app f args ih =>
      have each : ∀ t ∈ args, ∀ found, x ∈ collect found t ↔ x ∈ found ∨ x ∈ t.vars :=
        fun t ht _ => ih t ht
      rw [vars, collect, collect, mem_collectEach_of_each each,
        mem_collectEach_of_each each]
      simp

@[simp] theorem vars_var (x : Variable) : (Term.var x).vars = [x] := by
  simp [vars, collect, note]

@[simp] theorem vars_const (c : Constant) : (Term.const c).vars = [] := rfl

/-- The variables of an application are those of its arguments. -/
theorem mem_vars_app {x : Variable} {f : Functor} {args : List Term} :
    x ∈ (Term.app f args).vars ↔ ∃ t ∈ args, x ∈ t.vars := by
  rw [vars, collect, mem_collectEach_of_each fun _ _ _ => mem_collect]
  simp

/-- Collecting keeps a list without repetitions that way. -/
theorem nodup_collect {t : Term} {found : List Variable} (distinct : found.Nodup) :
    (collect found t).Nodup := by
  induction t generalizing found with
  | var x => exact nodup_note distinct x
  | const c => exact distinct
  | app f args ih =>
      rw [collect]
      induction args generalizing found with
      | nil => exact distinct
      | cons t ts tail =>
          rw [collectEach]
          exact tail (fun s hs => ih s (List.mem_cons_of_mem t hs))
            (ih t List.mem_cons_self distinct)

/-- A term is ground exactly when it has no variables. -/
theorem isGround_iff {t : Term} : t.isGround ↔ ∀ x, x ∉ t.vars := by
  induction t with
  | var x => simp [isGround]
  | const c => simp [isGround]
  | app f args ih =>
      have each : eachIsGround args ↔ ∀ t ∈ args, t.isGround := by
        clear ih
        induction args with
        | nil => simp [eachIsGround]
        | cons t ts tail => simp [eachIsGround, tail]
      rw [isGround, each]
      constructor
      · intro ground x occurs
        obtain ⟨t, ht, hx⟩ := mem_vars_app.mp occurs
        exact (ih t ht).mp (ground t ht) x hx
      · intro absent t ht
        exact (ih t ht).mpr fun x hx => absent x (mem_vars_app.mpr ⟨t, ht, hx⟩)

end Term

/-- The variables of several terms are those of each of them. -/
theorem mem_varsOf {x : Variable} {terms : List Term} :
    x ∈ varsOf terms ↔ ∃ t ∈ terms, x ∈ t.vars := by
  rw [varsOf, Term.mem_collectEach_of_each fun _ _ _ => Term.mem_collect]
  simp

/-- The variables of several terms are collected once each. -/
theorem nodup_varsOf (terms : List Term) : (varsOf terms).Nodup := by
  have general : ∀ found : List Variable, found.Nodup → (Term.collectEach found terms).Nodup := by
    induction terms with
    | nil => exact fun _ distinct => distinct
    | cons t ts ih => exact fun _ distinct => ih _ (Term.nodup_collect distinct)
  exact general [] List.nodup_nil

/-- In another order, the terms have the same variables, in another order. -/
theorem varsOf_perm {terms terms' : List Term} (order : terms.Perm terms') :
    (varsOf terms).Perm (varsOf terms') := by
  refine (List.perm_ext_iff_of_nodup (nodup_varsOf _) (nodup_varsOf _)).mpr fun x => ?_
  rw [mem_varsOf, mem_varsOf]
  exact exists_congr fun t => and_congr_left fun _ => order.mem_iff

end Resolvent
