/-
# Bindings in solved form

Bindings are in solved form when none is cyclic and the variable of each occurs
neither as the variable nor in the term of a later one. Applying such bindings
one after another leaves none of their variables behind, and read as a
substitution they satisfy themselves.

What unification yields is in solved form as soon as none of its bindings is
cyclic, because a binding without a cycle eliminates its variable from the
equations that wait, and variables are never made on the way. Bindings that
have a solution at all are without cycles, since no instance of a term is a
proper part of itself.
-/

import Resolvent.Proofs.Unification.MostGeneral

namespace Resolvent

/-- A binding is cyclic when it puts in place of a variable a term that
contains it. -/
def Binding.IsCyclic (b : Binding) : Prop :=
  b.var ∈ b.term.vars

/-- A binding does not meet the variable of another one. -/
def Binding.Avoids (c b : Binding) : Prop :=
  c.var ≠ b.var ∧ b.var ∉ c.term.vars

namespace Equation

/-- Applying a binding brings in the variables of the bound term, and no
others. -/
theorem mentions_of_instantiate {b : Binding} {e : Equation} {x : Variable}
    (h : (e.instantiate b).Mentions x) : e.Mentions x ∨ x ∈ b.term.vars := by
  rcases h with side | side <;> rcases Binding.mem_vars_apply.mp side with ⟨there, _⟩ | ⟨_, there⟩
  · exact .inl (.inl there)
  · exact .inr there
  · exact .inl (.inr there)
  · exact .inr there

/-- A binding without a cycle eliminates its variable. -/
theorem not_mentions_instantiate {b : Binding} (acyclic : ¬ b.IsCyclic) (e : Equation) :
    ¬ (e.instantiate b).Mentions b.var := by
  have gone : ∀ t : Term, b.var ∉ (b.apply t).vars := by
    intro t there
    rcases Binding.mem_vars_apply.mp there with ⟨_, other⟩ | ⟨_, cycle⟩
    · exact other rfl
    · exact acyclic cycle
  rintro (left | right)
  · exact gone _ left
  · exact gone _ right

end Equation

/-- No binding is cyclic, and later ones avoid the variables of earlier
ones. -/
structure SolvedForm (bindings : List Binding) : Prop where
  acyclic : ∀ b ∈ bindings, ¬ b.IsCyclic
  eliminated : bindings.Pairwise fun b c => c.Avoids b

/-- Bindings whose variables do not occur change nothing. -/
theorem applyAll_eq_self {bindings : List Binding} {t : Term}
    (absent : ∀ b ∈ bindings, b.var ∉ t.vars) : applyAll bindings t = t := by
  induction bindings with
  | nil => rfl
  | cons b bs ih =>
      obtain ⟨first, others⟩ := List.forall_mem_cons.mp absent
      rw [applyAll_cons, Binding.apply_eq_self first, ih others]

/-- A variable that is there afterwards was there before or in a bound term. -/
theorem mem_vars_of_mem_applyAll {x : Variable} {bindings : List Binding} {t : Term}
    (h : x ∈ (applyAll bindings t).vars) :
    x ∈ t.vars ∨ ∃ b ∈ bindings, x ∈ b.term.vars := by
  induction bindings generalizing t with
  | nil => exact .inl h
  | cons b bs ih =>
      rw [applyAll_cons] at h
      rcases ih h with before | ⟨c, hc, hx⟩
      · rcases Binding.mem_vars_apply.mp before with ⟨there, _⟩ | ⟨_, there⟩
        · exact .inl there
        · exact .inr ⟨b, List.mem_cons_self, there⟩
      · exact .inr ⟨c, List.mem_cons_of_mem b hc, hx⟩

namespace SolvedForm

variable {bindings : List Binding}

theorem nil : SolvedForm [] :=
  ⟨by simp, .nil⟩

/-- The first binding is not cyclic, the others avoid its variable, and they
are in solved form themselves. -/
theorem of_cons {b : Binding} {bs : List Binding} (h : SolvedForm (b :: bs)) :
    ¬ b.IsCyclic ∧ (∀ c ∈ bs, c.Avoids b) ∧ SolvedForm bs := by
  obtain ⟨first, others⟩ := List.forall_mem_cons.mp h.acyclic
  obtain ⟨avoid, later⟩ := List.pairwise_cons.mp h.eliminated
  exact ⟨first, avoid, others, later⟩

/-- Solved forms are joined when the second avoids the variables of the
first. -/
theorem append {others : List Binding} (first : SolvedForm bindings)
    (second : SolvedForm others) (apart : ∀ b ∈ bindings, ∀ c ∈ others, c.Avoids b) :
    SolvedForm (bindings ++ others) where
  acyclic b hb := (List.mem_append.mp hb).elim (first.acyclic b) (second.acyclic b)
  eliminated := List.pairwise_append.mpr ⟨first.eliminated, second.eliminated, apart⟩

/-- No bound variable is left. -/
theorem not_mem_vars_applyAll (h : SolvedForm bindings) {b : Binding} (hb : b ∈ bindings)
    (t : Term) : b.var ∉ (applyAll bindings t).vars := by
  induction bindings generalizing t with
  | nil => cases hb
  | cons c cs ih =>
      obtain ⟨acyclic, avoid, later⟩ := h.of_cons
      rw [applyAll_cons]
      rcases List.mem_cons.mp hb with rfl | hb
      · intro left
        rcases mem_vars_of_mem_applyAll left with there | ⟨d, hd, there⟩
        · rcases Binding.mem_vars_apply.mp there with ⟨_, other⟩ | ⟨_, cycle⟩
          · exact other rfl
          · exact acyclic cycle
        · exact (avoid d hd).2 there
      · exact ih later hb _

/-- No variable is bound twice. -/
theorem nodup_vars (h : SolvedForm bindings) : (bindings.map Binding.var).Nodup := by
  rw [List.Nodup, List.pairwise_map]
  exact h.eliminated.imp fun avoids => avoids.1.symm

/-- Once applied, the bindings have no more effect. -/
theorem applyAll_applyAll (h : SolvedForm bindings) (t : Term) :
    applyAll bindings (applyAll bindings t) = applyAll bindings t := by
  apply applyAll_eq_self
  intro b bound
  exact h.not_mem_vars_applyAll bound t

/-- Bindings in solved form satisfy themselves. -/
theorem satisfies (h : SolvedForm bindings) :
    Substitution.Satisfies (fun x => applyAll bindings (.var x)) bindings := by
  suffices same : ∀ b ∈ bindings, applyAll bindings (.var b.var) = applyAll bindings b.term by
    intro b hb
    rw [← applyAll_eq_subst]
    exact same b hb
  induction bindings with
  | nil => simp
  | cons c cs ih =>
      obtain ⟨acyclic, avoid, later⟩ := h.of_cons
      intro b hb
      rw [applyAll_cons, applyAll_cons]
      rcases List.mem_cons.mp hb with rfl | hb
      · rw [Binding.apply_var, if_pos rfl, Binding.apply_eq_self acyclic]
      · have unbound : c.var ∉ (Term.var b.var).vars := by
          simpa using (avoid b hb).1.symm
        rw [Binding.apply_eq_self unbound, Binding.apply_eq_self (avoid b hb).2]
        exact ih later b hb

end SolvedForm

namespace Yields

variable {equations : List Equation} {bindings : List Binding}

/-- Unification makes no variables. -/
theorem exists_mentions (h : Yields equations bindings) {b : Binding} (hb : b ∈ bindings)
    {x : Variable} (hx : x = b.var ∨ x ∈ b.term.vars) : ∃ e ∈ equations, e.Mentions x := by
  induction h with
  | nil => cases hb
  | discard _ _ ih =>
      obtain ⟨e, he, mentions⟩ := ih hb
      exact ⟨e, List.mem_cons_of_mem _ he, mentions⟩
  | @bind e c rest _ h _ ih =>
      rcases List.mem_cons.mp hb with rfl | hb
      · exact ⟨e, List.mem_cons_self, (Equation.mentions_iff_of_bind h).mpr hx⟩
      · obtain ⟨_, image, mentions⟩ := ih hb
        obtain ⟨d, hd, rfl⟩ := List.mem_map.mp image
        rcases Equation.mentions_of_instantiate mentions with there | there
        · exact ⟨d, List.mem_cons_of_mem e hd, there⟩
        · exact ⟨e, List.mem_cons_self, (Equation.mentions_iff_of_bind h).mpr (.inr there)⟩
  | @split e parts rest _ h _ ih =>
      obtain ⟨d, hd, mentions⟩ := ih hb
      rcases List.mem_append.mp hd with part | waiting
      · exact ⟨e, List.mem_cons_self,
          (Equation.mentions_iff_of_split h).mpr ⟨d, part, mentions⟩⟩
      · exact ⟨d, List.mem_cons_of_mem e waiting, mentions⟩

/-- What unification yields is in solved form, unless a binding is cyclic. -/
theorem solvedForm (h : Yields equations bindings) (acyclic : ∀ b ∈ bindings, ¬ b.IsCyclic) :
    SolvedForm bindings := by
  induction h with
  | nil => exact .nil
  | discard _ _ ih => exact ih acyclic
  | split _ _ ih => exact ih acyclic
  | @bind e b rest made h later ih =>
      obtain ⟨first, others⟩ := List.forall_mem_cons.mp acyclic
      have absent : ∀ c ∈ made, ∀ x, x = c.var ∨ x ∈ c.term.vars → x ≠ b.var := by
        rintro c hc x hx rfl
        obtain ⟨_, image, mentions⟩ := later.exists_mentions hc hx
        obtain ⟨d, _, rfl⟩ := List.mem_map.mp image
        exact Equation.not_mentions_instantiate first d mentions
      refine ⟨acyclic, List.pairwise_cons.mpr ⟨fun c hc => ⟨?_, ?_⟩, (ih others).eliminated⟩⟩
      · exact absent c hc c.var (.inl rfl)
      · exact fun occurs => absent c hc b.var (.inr occurs) rfl

end Yields

/-- A binding that can be satisfied is not cyclic, unless it binds a variable
to itself. -/
theorem Binding.not_isCyclic_of_satisfied {b : Binding} {τ : Substitution}
    (satisfied : τ b.var = b.term.subst τ) (proper : b.term ≠ .var b.var) : ¬ b.IsCyclic := by
  obtain ⟨x, t⟩ := b
  intro (cycle : x ∈ t.vars)
  cases t with
  | var y =>
      obtain rfl : x = y := by simpa using cycle
      exact proper rfl
  | const c => simp at cycle
  | app f args =>
      obtain ⟨t, ht, hx⟩ := Term.mem_vars_app.mp cycle
      have part := Term.size_le_size_subst hx τ
      have whole := Term.size_lt_app (f := f) (List.mem_map_of_mem (f := Term.subst τ) ht)
      rw [← Term.subst_app, ← satisfied] at whole
      exact Nat.not_lt_of_le part whole

end Resolvent
