/-
# Variants of clauses

A variant of a clause is the clause with its variables renamed, different ones
differently. It may well use the variables of other clauses, or those of a
query. Two stores are variants if their facts and their rules are, one by one
and in order.

What makes the difference between a clause and its variant harmless is that
neither is used as it stands. The copies that two supplies give of them are the
same up to a permutation of all variables, and this permutation can be chosen
freely on variables that had been handed out before: the copies mention none of
them.
-/

import Mathlib.Data.List.Forall2
import Mathlib.Data.Set.Function
import Mathlib.Logic.Equiv.Basic
import Resolvent.Proofs.Clauses.Standardized

namespace Resolvent

/-- A permutation can be changed so that it takes given things to given others.
It need not change on anything that is neither among the former nor sent to one
of the latter. -/
theorem exists_perm_extending {α β : Type} [DecidableEq α] (π : Equiv.Perm α) (old : α → Prop)
    {f g : β → α} {xs : List β} (distinct : xs.Nodup) (f_injOn : Set.InjOn f {x | x ∈ xs})
    (g_injOn : Set.InjOn g {x | x ∈ xs}) (f_new : ∀ x ∈ xs, ¬ old (f x))
    (g_new : ∀ x ∈ xs, ∀ a, old a → π a ≠ g x) :
    ∃ π' : Equiv.Perm α, (∀ a, old a → π' a = π a) ∧ ∀ x ∈ xs, π' (f x) = g x := by
  induction xs generalizing π old with
  | nil => exact ⟨π, fun _ _ => rfl, by simp⟩
  | cons x xs ih =>
      obtain ⟨absent, distinct⟩ := List.nodup_cons.mp distinct
      have later {y : β} (hy : y ∈ xs) : y ∈ x :: xs := List.mem_cons_of_mem x hy
      have other {y : β} (hy : y ∈ xs) : y ≠ x := fun same => absent (same ▸ hy)
      -- After this exchange `f x` goes to `g x`, and what is old goes where it
      -- went.
      let σ : Equiv.Perm α := π.trans (Equiv.swap (π (f x)) (g x))
      have kept : ∀ a, old a → σ a = π a := by
        intro a ha
        apply Equiv.swap_apply_of_ne_of_ne
        · intro same
          exact f_new x List.mem_cons_self (π.injective same ▸ ha)
        · exact g_new x List.mem_cons_self a ha
      have first : σ (f x) = g x := Equiv.swap_apply_left _ _
      -- From now on `f x` counts as old.
      have f_later : ∀ y ∈ xs, ¬ (old (f y) ∨ f y = f x) := by
        rintro y hy (before | same)
        · exact f_new y (later hy) before
        · exact other hy (f_injOn (later hy) List.mem_cons_self same)
      have g_later : ∀ y ∈ xs, ∀ a, old a ∨ a = f x → σ a ≠ g y := by
        rintro y hy a (before | rfl) same
        · exact g_new y (later hy) a before ((kept a before).symm.trans same)
        · exact other hy (g_injOn (later hy) List.mem_cons_self (same.symm.trans first))
      obtain ⟨π', agree, others⟩ := ih σ (fun a => old a ∨ a = f x) distinct
        (f_injOn.mono fun _ => later) (g_injOn.mono fun _ => later) f_later g_later
      refine ⟨π', fun a ha => (agree a (.inl ha)).trans (kept a ha), fun y hy => ?_⟩
      rcases List.mem_cons.mp hy with rfl | hy
      · exact (agree _ (.inr rfl)).trans first
      · exact others y hy

/-- Different variables have different copies. -/
theorem Supply.copy_injOn (supply : Supply) (xs : List Variable) :
    Set.InjOn (supply.copy xs) {x | x ∈ xs} := by
  intro x hx y _ same
  simp only [copy, Symbol.mk.injEq] at same
  exact (List.idxOf_inj hx).mp (by omega)

theorem Atom.mentions_rename {a : Atom} {ρ : Variable → Variable} {x : Variable}
    (hx : a.Mentions x) : (a.rename ρ).Mentions (ρ x) :=
  Atom.mentions_subst.mpr ⟨x, hx, by simp⟩

namespace Clause

theorem subst_subst (θ η : Substitution) (c : Clause) :
    (c.subst θ).subst η = c.subst fun x => (θ x).subst η := by
  have body (as : List Atom) : (as.map (Atom.subst θ)).map (Atom.subst η) =
      as.map (Atom.subst fun x => (θ x).subst η) := by
    rw [List.map_map]
    exact List.map_congr_left fun a _ => a.subst_subst θ η
  cases c with
  | fact a => exact congrArg fact (a.subst_subst θ η)
  | rule r => simp only [subst, Atom.subst_subst, body]

/-- The second clause is the first one with its variables renamed, different
ones differently. -/
def Variant (c c' : Clause) : Prop :=
  ∃ ρ : Variable → Variable, Set.InjOn ρ {x | x ∈ c.vars} ∧ c' = c.rename ρ

theorem Variant.refl (c : Clause) : c.Variant c :=
  ⟨id, Function.injective_id.injOn, c.subst_id.symm⟩

/-- A renamed clause mentions the new names. -/
theorem mem_vars_rename {c : Clause} {ρ : Variable → Variable} {x : Variable} (hx : x ∈ c.vars) :
    ρ x ∈ (c.rename ρ).vars := by
  rcases mem_vars.mp hx with head | ⟨a, ha, body⟩
  · apply mem_vars.mpr
    left
    rw [head_rename]
    exact Atom.mentions_rename head
  · apply mem_vars.mpr
    right
    rw [body_rename]
    exact ⟨a.rename ρ, List.mem_map_of_mem ha, Atom.mentions_rename body⟩

/-- Variants have heads that match the same goals. -/
theorem Variant.matches?_eq {c c' : Clause} (h : c.Variant c') (goal : Atom) :
    c'.head.matches? goal = c.head.matches? goal := by
  obtain ⟨ρ, _, rfl⟩ := h
  rw [head_rename, Atom.rename, Atom.subst_matches?]

/-- The copies of two variants are the same up to a permutation of variables,
which can be chosen to do what a given one does with variables that had been
handed out before. -/
theorem Variant.exists_perm {c c' : Clause} (h : c.Variant c') {supply supply' : Supply}
    (known : ∀ x ∈ c.vars, supply.Covers x) (known' : ∀ x ∈ c'.vars, supply'.Covers x)
    (π : Equiv.Perm Variable) {old : Variable → Prop}
    (covered : ∀ x, old x → supply.Covers x ∧ supply'.Covers (π x)) :
    ∃ π' : Equiv.Perm Variable, (∀ x, old x → π' x = π x) ∧
      (c'.standardizeApart supply').1 = (c.standardizeApart supply).1.rename π' := by
  obtain ⟨ρ, injOn, rfl⟩ := h
  have image : Set.MapsTo ρ {x | x ∈ c.vars} {x | x ∈ (c.rename ρ).vars} :=
    fun _ hx => mem_vars_rename hx
  obtain ⟨π', agree, copies⟩ := exists_perm_extending π old c.nodup_vars
    (supply.copy_injOn c.vars) ((supply'.copy_injOn (c.rename ρ).vars).comp injOn image)
    (fun x _ seen => supply.not_covers_copy _ _ (covered _ seen).1)
    (fun x _ a seen same => supply'.not_covers_copy _ _ (same ▸ (covered a seen).2))
  refine ⟨π', agree, ?_⟩
  rw [standardizeApart_eq known, standardizeApart_eq known']
  simp only [rename, subst_subst]
  apply subst_congr
  intro x hx
  exact congrArg Term.var (copies x hx).symm

end Clause

namespace Store

/-- The facts and the rules of two stores are variants, one by one and in
order. -/
structure Variant (store store' : Store) : Prop where
  facts : List.Forall₂ (fun a b => Clause.Variant (.fact a) (.fact b)) store.facts store'.facts
  rules : List.Forall₂ (fun r s => Clause.Variant (.rule r) (.rule s)) store.rules store'.rules

theorem Variant.refl (store : Store) : store.Variant store where
  facts := List.forall₂_same.mpr fun _ _ => .refl _
  rules := List.forall₂_same.mpr fun _ _ => .refl _

/-- The clauses of variants correspond in the order in which they are tried. -/
theorem Variant.clauses {store store' : Store} (h : store.Variant store') :
    List.Forall₂ Clause.Variant store.clauses store'.clauses := by
  apply List.rel_append
  · exact List.forall₂_map_left_iff.mpr (List.forall₂_map_right_iff.mpr h.facts)
  · exact List.forall₂_map_left_iff.mpr (List.forall₂_map_right_iff.mpr h.rules)

/-- The clauses that match a goal are variants, one by one and in order. -/
theorem Variant.candidates {store store' : Store} (h : store.Variant store') (goal : Atom) :
    List.Forall₂ Clause.Variant (store.candidates goal) (store'.candidates goal) := by
  refine List.rel_filter ?_ h.clauses
  intro c c' variant
  simp only [variant.matches?_eq]

end Store

end Resolvent
