/-
# The copies of a clause

Standardizing a clause apart gives a copy of it: the clause with its variables
renamed, different ones differently and each to one of the same name. The copy
may be standardized apart again, as may the clause itself, and in between all
kinds of other symbols may be drawn from the supply. However often that is
done, every copy is still one of the clause that it all began with, and none of
its variables was there before.

It is the supply that has to be told about the variables of the first clause.
Those of the copies it has handed out itself.
-/

import Resolvent.Proofs.Clauses.Variants

namespace Resolvent

namespace Clause

/-- The second clause is the first one with its variables renamed, different
ones differently and each to one of the same name. -/
def Copy (c d : Clause) : Prop :=
  ∃ ρ : Variable → Variable,
    Set.InjOn ρ {x | x ∈ c.vars} ∧ (∀ x, (ρ x).name = x.name) ∧ d = c.rename ρ

theorem Copy.refl (c : Clause) : c.Copy c :=
  ⟨id, Function.injective_id.injOn, fun _ => rfl, c.subst_id.symm⟩

theorem Copy.trans {c d e : Clause} (first : c.Copy d) (second : d.Copy e) : c.Copy e := by
  obtain ⟨ρ, injOn, named, rfl⟩ := first
  obtain ⟨σ, injOn', named', rfl⟩ := second
  have image : Set.MapsTo ρ {x | x ∈ c.vars} {x | x ∈ (c.rename ρ).vars} :=
    fun _ occurs => mem_vars_rename occurs
  refine ⟨σ ∘ ρ, injOn'.comp injOn image, fun x => (named' (ρ x)).trans (named x), ?_⟩
  exact subst_subst _ _ c

/-- A copy of a fact is a fact and a copy of a rule is a rule. -/
theorem Copy.kindName_eq {c d : Clause} (copied : c.Copy d) : d.kindName = c.kindName := by
  obtain ⟨ρ, _, _, rfl⟩ := copied
  cases c <;> rfl

/-- A renamed clause has no variables but the images of those of the clause. -/
theorem exists_of_mem_vars_rename {c : Clause} {ρ : Variable → Variable} {y : Variable}
    (occurs : y ∈ (c.rename ρ).vars) : ∃ x ∈ c.vars, y = ρ x := by
  have image {a : Atom} (mentioned : (a.rename ρ).Mentions y) : ∃ x, a.Mentions x ∧ y = ρ x := by
    simpa [Atom.rename, Atom.mentions_subst] using mentioned
  rcases mem_vars.mp occurs with head | ⟨b, among, body⟩
  · rw [head_rename] at head
    obtain ⟨x, mentioned, same⟩ := image head
    exact ⟨x, mem_vars.mpr (.inl mentioned), same⟩
  · rw [body_rename] at among
    obtain ⟨a, ha, rfl⟩ := List.mem_map.mp among
    obtain ⟨x, mentioned, same⟩ := image body
    exact ⟨x, mem_vars.mpr (.inr ⟨a, ha, mentioned⟩), same⟩

section Standardized

variable {c : Clause} {supply : Supply} (known : ∀ x ∈ c.vars, supply.Covers x)
include known

/-- Standardizing apart makes a copy. -/
theorem copy_standardizeApart : c.Copy (c.standardizeApart supply).1 := by
  rw [standardizeApart_eq known]
  exact ⟨supply.copy c.vars, supply.copy_injOn c.vars, fun _ => rfl, rfl⟩

/-- No variable of the copy had been handed out before. -/
theorem not_covers_standardizeApart :
    ∀ x ∈ (c.standardizeApart supply).1.vars, ¬ supply.Covers x := by
  rw [standardizeApart_eq known]
  intro y occurs
  obtain ⟨x, _, rfl⟩ := exists_of_mem_vars_rename occurs
  exact supply.not_covers_copy c.vars x

/-- Every variable of the copy has been handed out afterwards. -/
theorem covers_standardizeApart :
    ∀ x ∈ (c.standardizeApart supply).1.vars, (c.standardizeApart supply).2.Covers x := by
  rw [standardizeApart_eq known]
  intro y occurs
  obtain ⟨x, there, rfl⟩ := exists_of_mem_vars_rename occurs
  exact supply.covers_copy there

end Standardized

/-- The clauses that are at hand when an original, or a clause at hand, has
been standardized apart a number of times. Other symbols may have been drawn
from the supply before each call. -/
inductive Standardizes (original : Clause) (given : Supply) : List Clause → Supply → Prop
  | start : Standardizes original given [original] given
  | call {made : List Clause} {supply now : Supply} {c : Clause}
      (before : Standardizes original given made supply) (later : supply.next ≤ now.next)
      (among : c ∈ made) :
      Standardizes original given (made ++ [(c.standardizeApart now).1]) (c.standardizeApart now).2

namespace Standardizes

variable {original : Clause} {given supply : Supply} {made : List Clause}

/-- All clauses at hand are copies of the original, and their variables have
been handed out. -/
theorem copies (run : Standardizes original given made supply)
    (known : ∀ x ∈ original.vars, given.Covers x) :
    ∀ c ∈ made, original.Copy c ∧ ∀ x ∈ c.vars, supply.Covers x := by
  induction run with
  | start => simpa using ⟨Copy.refl original, known⟩
  | @call made supply now c _ later among ih =>
      obtain ⟨copied, covered⟩ := ih c among
      have covered_now : ∀ x ∈ c.vars, now.Covers x := fun x hx => (covered x hx).mono later
      have drawn := next_le_standardizeApart c now
      intro d at_hand
      rcases List.mem_append.mp at_hand with old | new
      · refine ⟨(ih d old).1, fun x hx => ?_⟩
        exact ((ih d old).2 x hx).mono (Nat.le_trans later drawn)
      · rw [List.mem_singleton.mp new]
        exact ⟨copied.trans (copy_standardizeApart covered_now),
          covers_standardizeApart covered_now⟩

/-- Whatever has been standardized apart before, the next call makes a copy of
the clause that it is given, and of the original. No variable of the copy
occurs in a clause at hand or in any term that was there before the call. A
clause without variables is handed back, and nothing is drawn from the
supply. -/
theorem copies_apart (run : Standardizes original given made supply)
    (known : ∀ x ∈ original.vars, given.Covers x) {now : Supply} (later : supply.next ≤ now.next)
    {c : Clause} (among : c ∈ made) :
    c.Copy (c.standardizeApart now).1 ∧ original.Copy (c.standardizeApart now).1 ∧
      (c.standardizeApart now).1.kindName = c.kindName ∧
      (∀ x ∈ (c.standardizeApart now).1.vars, (∀ d ∈ made, x ∉ d.vars) ∧
        ∀ t : Term, (∀ y ∈ t.vars, now.Covers y) → x ∉ t.vars) ∧
      (c.vars = [] → c.standardizeApart now = (c, now)) := by
  have at_hand := run.copies known
  have covered (d : Clause) (there : d ∈ made) : ∀ x ∈ d.vars, now.Covers x :=
    fun x hx => ((at_hand d there).2 x hx).mono later
  have copied := copy_standardizeApart (covered c among)
  refine ⟨copied, (at_hand c among).1.trans copied, copied.kindName_eq, ?_, ?_⟩
  · intro x occurs
    have unseen := not_covers_standardizeApart (covered c among) x occurs
    exact ⟨fun d there hx => unseen (covered d there x hx), fun t seen hx => unseen (seen x hx)⟩
  · intro none
    unfold standardizeApart
    rw [none]

/-- A rule with two variables of one name has been standardized apart once.
Standardizing its copy apart gives two more variables of that name, all four of
them different. -/
theorem copies_apart_namesakes :
    let x : Variable := ⟨0, "X"⟩
    let y : Variable := ⟨1, "X"⟩
    let rule : Clause := .rule ⟨⟨⟨2, "p"⟩, [.var x, .var y]⟩, [⟨⟨2, "p"⟩, [.var y, .var x]⟩]⟩
    let first := rule.standardizeApart ⟨3⟩
    let second := first.1.standardizeApart first.2
    (∀ z ∈ rule.vars, (⟨3⟩ : Supply).Covers z) ∧
      rule.Standardizes ⟨3⟩ [rule, first.1] first.2 ∧ first.1 ∈ [rule, first.1] ∧
      first.1.Copy second.1 ∧ rule.Copy second.1 ∧ second.1.kindName = first.1.kindName ∧
      (∀ z ∈ second.1.vars, (∀ d ∈ [rule, first.1], z ∉ d.vars) ∧
        ∀ t : Term, (∀ y ∈ t.vars, first.2.Covers y) → z ∉ t.vars) ∧
      (first.1.vars = [] → second = (first.1, first.2)) := by
  intro x y rule first second
  have known : ∀ z ∈ rule.vars, (⟨3⟩ : Supply).Covers z := by
    change ∀ z ∈ rule.vars, z.serial < 3
    decide
  have run : rule.Standardizes ⟨3⟩ [rule, first.1] first.2 :=
    .call .start (Nat.le_refl _) (List.mem_singleton_self rule)
  have among : first.1 ∈ [rule, first.1] := List.mem_cons_of_mem _ (List.mem_singleton_self _)
  exact ⟨known, run, among, run.copies_apart known (Nat.le_refl _) among⟩

end Standardizes

end Clause

end Resolvent
