/-
# What the bindings of a search make of a term

A term is dereferenced by putting bound terms in place of their variables until
no bound variable is left. A search does not do that: it applies its bindings
once, from the first to the last. Here the two are shown to be the same for
every partial proof that waits in a queue, as long as none of its bindings is
cyclic.

The bindings of such a partial proof are in solved form. They come from many
unifications, but each of these sees only a goal to which all earlier bindings
have been applied and a copy of a clause that shares no variable with them.
Bindings in solved form satisfy themselves, so they cannot see whether a bound
variable has been replaced; what is left when none remains is therefore the
same whatever the order of the replacements was.
-/

import Resolvent.Proofs.Search.Soundness

namespace Resolvent

/-- One term comes of another by applying bindings of a list one at a time, in
any order and any number of times. -/
inductive Dereferences (bindings : List Binding) : Term → Term → Prop
  | refl (t : Term) : Dereferences bindings t t
  | step {b : Binding} {s t : Term} (bound : b ∈ bindings)
      (later : Dereferences bindings (b.apply s) t) : Dereferences bindings s t

/-- Applying bindings in order is one of the ways to dereference. -/
theorem Dereferences.applyAll {bindings part : List Binding} (among : part ⊆ bindings)
    (t : Term) : Dereferences bindings t (applyAll part t) := by
  induction part generalizing t with
  | nil => exact .refl t
  | cons b bs ih =>
      obtain ⟨first, others⟩ := List.cons_subset.mp among
      exact .step first (ih others (b.apply t))

namespace SolvedForm

variable {bindings : List Binding}

/-- Dereferencing cannot be seen through the bindings. -/
theorem applyAll_eq_of_dereferences (h : SolvedForm bindings) {s t : Term}
    (dereferenced : Dereferences bindings s t) : applyAll bindings t = applyAll bindings s := by
  induction dereferenced with
  | refl => rfl
  | @step b s t bound _ ih =>
      have satisfied : applyAll bindings (.var b.var) =
          b.term.subst fun x => applyAll bindings (.var x) := h.satisfies b bound
      rw [ih, applyAll_eq_subst, Substitution.subst_apply satisfied, ← applyAll_eq_subst]

/-- The dereferenced terms without bound variables are those that the bindings
bring about. -/
theorem dereferences_iff (h : SolvedForm bindings) {s t : Term} :
    (Dereferences bindings s t ∧ ∀ b ∈ bindings, b.var ∉ t.vars) ↔ t = applyAll bindings s := by
  constructor
  · rintro ⟨dereferenced, done⟩
    rw [← h.applyAll_eq_of_dereferences dereferenced, applyAll_eq_self done]
  · intro same
    subst same
    exact ⟨.applyAll (List.Subset.refl bindings) s, fun b bound => h.not_mem_vars_applyAll bound s⟩

/-- Renaming keeps bindings in solved form. -/
theorem rename {π : Variable → Variable} (injective : Function.Injective π)
    (h : SolvedForm bindings) : SolvedForm (bindings.map (.rename π)) where
  acyclic := by
    intro _ image
    obtain ⟨b, bound, rfl⟩ := List.mem_map.mp image
    rw [Binding.isCyclic_rename injective]
    exact h.acyclic b bound
  eliminated := by
    rw [List.pairwise_map]
    refine h.eliminated.imp fun {b c} avoids => ⟨fun same => avoids.1 (injective same), ?_⟩
    intro occurs
    obtain ⟨x, hx, same⟩ := Term.mem_vars_rename.mp occurs
    exact avoids.2 (injective same ▸ hx)

end SolvedForm

namespace Query.Run

variable {store : Store} {goals : List Atom} {verbose recording : Bool} {given supply : Supply}
  {k : Nat} {visits : List Visit} {q : Query}

/-- The bindings of a partial proof that waits are in solved form, unless one
is cyclic. -/
theorem solvedForm_of_waiting (known : given.Knows store goals)
    (run : Run store (ofGoals goals verbose recording) given k visits q supply)
    {item : PartialProof} (waits : item ∈ q.queue.toList)
    (acyclic : ∀ b ∈ item.bindings, ¬ b.IsCyclic) : SolvedForm item.bindings := by
  obtain ⟨_, _, waiting⟩ := run.matches_sweep known
  obtain ⟨n, held, matching⟩ := exists_partner waiting waits
  obtain ⟨d, there⟩ := Node.exists_mem_level (k := k) (List.mem_append_right _ held)
  obtain ⟨_, _, solves⟩ := Node.reduces_and_solves known d n there
  obtain ⟨π, injective, _, bound, _⟩ := matching.exists_rename
  rw [bound] at acyclic ⊢
  apply SolvedForm.rename injective
  apply solves
  intro b hb cyclic
  exact acyclic _ (List.mem_map_of_mem hb) ((Binding.isCyclic_rename injective).mpr cyclic)

/-- The bindings of a partial proof that waits, none of them cyclic, bind no
variable twice and do not mention the variables of earlier ones. Applying them
once is therefore all that there is to do: no bound variable is left, applying
them again changes nothing, and every way to dereference a term comes to the
same. -/
theorem waiting_dereferenced (known : given.Knows store goals)
    (run : Run store (ofGoals goals verbose recording) given k visits q supply)
    {item : PartialProof} (waits : item ∈ q.queue.toList)
    (acyclic : ∀ b ∈ item.bindings, ¬ b.IsCyclic) :
    (item.bindings.map Binding.var).Nodup ∧
      item.bindings.Pairwise (fun b c => c.var ≠ b.var ∧ b.var ∉ c.term.vars) ∧
      (∀ t, applyAll item.bindings (applyAll item.bindings t) = applyAll item.bindings t) ∧
      (∀ t, ∀ b ∈ item.bindings, b.var ∉ (applyAll item.bindings t).vars) ∧
      ∀ s t, (Dereferences item.bindings s t ∧ ∀ b ∈ item.bindings, b.var ∉ t.vars) ↔
        t = applyAll item.bindings s := by
  have solved := run.solvedForm_of_waiting known waits acyclic
  refine ⟨solved.nodup_vars, solved.eliminated, solved.applyAll_applyAll, ?_, ?_⟩
  · intro t b bound
    exact solved.not_mem_vars_applyAll bound t
  · intro s t
    exact solved.dereferences_iff

/-- The candidate of the small program has bound the variable of the query to a
fresh one, and that one to the individual. Its value for the query variable is
what dereferencing leaves. -/
theorem waiting_dereferenced_tiny : ∃ visits q after,
    Run Tiny.store (ofGoals Tiny.goals false false) Tiny.supply 2 visits q after ∧
      ⟨[], Tiny.bindings⟩ ∈ q.queue.toList ∧ (∀ b ∈ Tiny.bindings, ¬ b.IsCyclic) ∧
      (Tiny.bindings.map Binding.var).Nodup ∧
      ((Dereferences Tiny.bindings (.var Tiny.y) (.const Tiny.a) ∧
          ∀ b ∈ Tiny.bindings, b.var ∉ (Term.const Tiny.a).vars) ↔
        .const Tiny.a = applyAll Tiny.bindings (.var Tiny.y)) := by
  have start : Run Tiny.store (.ofGoals Tiny.goals false false) Tiny.supply 0 [] _ _ := .nil
  have first := start.step (Nat.le_refl _) (show Query.step _ _ 1 _ = some ⟨_, _, _⟩ from rfl)
  have second := first.step (Nat.le_refl _) (show Query.step _ _ 1 _ = some ⟨_, _, _⟩ from rfl)
  have waits : (⟨[], Tiny.bindings⟩ : PartialProof) ∈ [⟨[], Tiny.bindings⟩] :=
    List.mem_singleton_self _
  have acyclic : ∀ b ∈ Tiny.bindings, ¬ b.IsCyclic := by
    change ∀ b ∈ Tiny.bindings, b.var ∉ b.term.vars
    decide
  obtain ⟨distinct, _, _, _, unique⟩ := waiting_dereferenced Tiny.knows second waits acyclic
  exact ⟨_, _, _, second, waits, acyclic, distinct, unique _ _⟩

end Query.Run

end Resolvent
