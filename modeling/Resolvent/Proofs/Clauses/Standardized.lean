/-
# Clauses standardized apart

Standardizing a clause apart replaces its variables one at a time. If the
clause has nothing but variables that the supply has already handed out, this
is the same as renaming them all at once: the i-th variable of the clause
becomes the i-th one that the supply hands out next. The copy is therefore
determined by the clause and a single number, and no variable in it has been
seen before.
-/

import Mathlib.Data.List.Nodup
import Resolvent.Proofs.Unification.Renaming
import Resolvent.Store

namespace Resolvent

namespace Supply

/-- The supply after a number of draws. -/
def skip (supply : Supply) (n : Nat) : Supply :=
  ⟨supply.next + n⟩

/-- A supply never gives out again what it has skipped. -/
theorem next_le_skip (supply : Supply) (n : Nat) : supply.next ≤ (supply.skip n).next :=
  Nat.le_add_right _ _

/-- What the supply hands out for a variable of a list, taken in the order of
the list. -/
def copy (supply : Supply) (xs : List Variable) (x : Variable) : Variable :=
  ⟨supply.next + xs.idxOf x, x.name⟩

/-- What has been handed out stays handed out. -/
theorem Covers.mono {before after : Supply} (later : before.next ≤ after.next) {x : Variable}
    (h : before.Covers x) : after.Covers x :=
  Nat.lt_of_lt_of_le h later

/-- The copy of a variable is none that had been handed out before. -/
theorem not_covers_copy (supply : Supply) (xs : List Variable) (x : Variable) :
    ¬ supply.Covers (supply.copy xs x) := by
  simp [Covers, copy]

/-- The copies are handed out when as many symbols have been drawn as there are
variables. -/
theorem covers_copy (supply : Supply) {xs : List Variable} {x : Variable} (hx : x ∈ xs) :
    (supply.skip xs.length).Covers (supply.copy xs x) := by
  have index := List.idxOf_lt_length_iff.mpr hx
  simp only [Covers, copy, skip]
  omega

end Supply

namespace Atom

/-- Whether a variable occurs in an atom. -/
def Mentions (a : Atom) (x : Variable) : Prop :=
  ∃ t ∈ a.args, x ∈ t.vars

/-- The atom with every variable replaced by another one. -/
def rename (π : Variable → Variable) (a : Atom) : Atom :=
  a.subst fun x => .var (π x)

@[simp] theorem args_rename (π : Variable → Variable) (a : Atom) :
    (a.rename π).args = a.args.map (Term.rename π) := rfl

/-- An atom sees no more of a substitution than its own variables. -/
theorem subst_congr {θ η : Substitution} {a : Atom} (agree : ∀ x, a.Mentions x → θ x = η x) :
    a.subst θ = a.subst η := by
  rw [subst, subst, List.map_congr_left]
  exact fun t ht => Term.subst_congr fun x hx => agree x ⟨t, ht, hx⟩

theorem subst_subst (θ η : Substitution) (a : Atom) :
    (a.subst θ).subst η = a.subst fun x => (θ x).subst η := by
  simp [subst, Term.subst_subst, Function.comp_def]

/-- A substituted atom mentions what stands for one of its own variables. -/
theorem mentions_subst {a : Atom} {θ : Substitution} {x : Variable} :
    (a.subst θ).Mentions x ↔ ∃ y, a.Mentions y ∧ x ∈ (θ y).vars := by
  simp only [Mentions, args_subst]
  constructor
  · rintro ⟨_, image, hx⟩
    obtain ⟨t, ht, rfl⟩ := List.mem_map.mp image
    obtain ⟨y, hy, hxy⟩ := Term.mem_vars_subst.mp hx
    exact ⟨y, ⟨t, ht, hy⟩, hxy⟩
  · rintro ⟨y, ⟨t, ht, hy⟩, hxy⟩
    exact ⟨t.subst θ, List.mem_map_of_mem ht, Term.mem_vars_subst.mpr ⟨y, hy, hxy⟩⟩

@[simp] theorem subst_id (a : Atom) : a.subst .var = a := by
  rw [subst, List.map_congr_left fun t _ => t.subst_id, List.map_id']

/-- Applying bindings in sequence to an atom is one simultaneous
substitution. -/
theorem instantiate_eq_subst (bindings : List Binding) (a : Atom) :
    a.instantiate bindings = a.subst fun x => applyAll bindings (.var x) := by
  rw [instantiate, subst, List.map_congr_left fun t _ => applyAll_eq_subst bindings t]

end Atom

namespace Clause

/-- Whether a variable occurs in a clause. -/
def Mentions (c : Clause) (x : Variable) : Prop :=
  c.head.Mentions x ∨ ∃ a ∈ c.body, a.Mentions x

/-- The variables that are collected from a clause are those that it
mentions. -/
theorem mem_vars {c : Clause} {x : Variable} : x ∈ c.vars ↔ c.Mentions x := by
  cases c with
  | fact a => simp [vars, Atom.vars, mem_varsOf, Mentions, Atom.Mentions, head, body]
  | rule r =>
      simp only [vars, Rule.vars, mem_varsOf, List.mem_append, List.mem_flatMap, Mentions,
        Atom.Mentions, head, body]
      grind

theorem nodup_vars (c : Clause) : c.vars.Nodup := by
  cases c <;> exact nodup_varsOf _

/-- The instance of a clause under a substitution. -/
def subst (θ : Substitution) : Clause → Clause
  | .fact a => .fact (a.subst θ)
  | .rule r => .rule ⟨r.head.subst θ, r.body.map (Atom.subst θ)⟩

/-- A fact and a rule are substituted in the head alike. -/
@[simp] theorem head_subst (θ : Substitution) (c : Clause) :
    (c.subst θ).head = c.head.subst θ := by
  cases c <;> rfl

/-- The body of a fact stays empty; in that of a rule every atom is
substituted. -/
@[simp] theorem body_subst (θ : Substitution) (c : Clause) :
    (c.subst θ).body = c.body.map (Atom.subst θ) := by
  cases c <;> rfl

/-- The clause with every variable replaced by another one. -/
def rename (π : Variable → Variable) (c : Clause) : Clause :=
  c.subst fun x => .var (π x)

@[simp] theorem head_rename (π : Variable → Variable) (c : Clause) :
    (c.rename π).head = c.head.rename π :=
  head_subst _ c

@[simp] theorem body_rename (π : Variable → Variable) (c : Clause) :
    (c.rename π).body = c.body.map (Atom.rename π) :=
  body_subst _ c

/-- A clause sees no more of a substitution than its own variables. -/
theorem subst_congr {θ η : Substitution} {c : Clause} (agree : ∀ x ∈ c.vars, θ x = η x) :
    c.subst θ = c.subst η := by
  have agree_head : c.head.subst θ = c.head.subst η :=
    Atom.subst_congr fun x hx => agree x (mem_vars.mpr (.inl hx))
  have agree_body : c.body.map (Atom.subst θ) = c.body.map (Atom.subst η) :=
    List.map_congr_left fun a ha =>
      Atom.subst_congr fun x hx => agree x (mem_vars.mpr (.inr ⟨a, ha, hx⟩))
  cases c with
  | fact a => exact congrArg fact agree_head
  | rule r => exact congrArg₂ (fun head body => rule ⟨head, body⟩) agree_head agree_body

@[simp] theorem subst_id (c : Clause) : c.subst .var = c := by
  cases c with
  | fact a => exact congrArg fact a.subst_id
  | rule r =>
      have body : r.body.map (Atom.subst .var) = r.body := by
        rw [List.map_congr_left fun a _ => a.subst_id, List.map_id']
      exact congrArg₂ (fun head body => rule ⟨head, body⟩) r.head.subst_id body

/-- Applying bindings in sequence to a clause is one simultaneous
substitution. -/
theorem instantiate_eq_subst (bindings : List Binding) (c : Clause) :
    c.instantiate bindings = c.subst fun x => applyAll bindings (.var x) := by
  cases c <;> simp only [instantiate, subst, Rule.instantiate, Atom.instantiate_eq_subst,
    funext (Atom.instantiate_eq_subst bindings)]

/-! ### The copy of a clause -/

/-- As many symbols are drawn as there are variables to be replaced. -/
theorem freshened_snd (xs : List Variable) (supply : Supply) :
    (freshened xs supply).2 = supply.skip xs.length := by
  induction xs generalizing supply with
  | nil => rfl
  | cons x xs ih =>
      simp only [freshened, Supply.mint, ih, Supply.skip, List.length_cons]
      congr 1
      omega

/-- Standardizing a clause apart draws from the supply and gives nothing
back. -/
theorem next_le_standardizeApart (c : Clause) (supply : Supply) :
    supply.next ≤ (c.standardizeApart supply).2.next := by
  unfold standardizeApart
  split
  · exact Nat.le_refl _
  · rw [freshened_snd]
    exact supply.next_le_skip _

/-- Only the given variables are replaced by new ones. -/
theorem var_mem_of_mem_freshened {xs : List Variable} {supply : Supply} {b : Binding}
    (h : b ∈ (freshened xs supply).1) : b.var ∈ xs := by
  induction xs generalizing supply with
  | nil => cases h
  | cons x xs ih =>
      rcases List.mem_cons.mp h with rfl | later
      · exact List.mem_cons_self
      · exact List.mem_cons_of_mem x (ih later)

/-- Replacing the variables one at a time gives each its copy: a copy that has
been put in place is none of the variables still to be replaced. -/
theorem applyAll_freshened {xs : List Variable} {supply : Supply} (distinct : xs.Nodup)
    (known : ∀ x ∈ xs, supply.Covers x) {y : Variable} (hy : y ∈ xs) :
    applyAll (freshened xs supply).1 (.var y) = .var (supply.copy xs y) := by
  induction xs generalizing supply with
  | nil => cases hy
  | cons x xs ih =>
      obtain ⟨new, distinct⟩ := List.nodup_cons.mp distinct
      obtain ⟨_, known⟩ := List.forall_mem_cons.mp known
      simp only [freshened, Supply.mint, applyAll_cons, Binding.apply_var]
      by_cases first : y = x
      · rw [if_pos first, applyAll_eq_self]
        · simp [Supply.copy, first]
        · intro b hb same
          have old := known b.var (var_mem_of_mem_freshened hb)
          simp only [Term.vars_var, List.mem_singleton] at same
          simp [Supply.Covers, same] at old
      · have later : y ∈ xs := (List.mem_cons.mp hy).resolve_left first
        have still : ∀ z ∈ xs, (⟨supply.next + 1⟩ : Supply).Covers z :=
          fun z hz => (known z hz).mono (Nat.le_succ _)
        have index : (x :: xs).idxOf y = xs.idxOf y + 1 :=
          List.idxOf_cons_ne xs (Ne.symm first)
        rw [if_neg first, ih distinct still later]
        simp only [Supply.copy, index]
        congr 2
        omega

/-- Standardizing apart renames all variables of the clause at once. -/
theorem standardizeApart_eq {c : Clause} {supply : Supply}
    (known : ∀ x ∈ c.vars, supply.Covers x) :
    c.standardizeApart supply = (c.rename (supply.copy c.vars), supply.skip c.vars.length) := by
  have copied : ∀ x ∈ c.vars, applyAll (freshened c.vars supply).1 (.var x) =
      .var (supply.copy c.vars x) :=
    fun x hx => applyAll_freshened c.nodup_vars known hx
  unfold standardizeApart
  split
  · next none =>
      have fixed : c.rename (supply.copy []) = c := by
        rw [rename, subst_congr (η := .var) (by simp [none]), subst_id]
      rw [none, fixed]
      rfl
  · rw [← freshened_snd, rename, ← subst_congr copied, ← instantiate_eq_subst]

end Clause

end Resolvent
