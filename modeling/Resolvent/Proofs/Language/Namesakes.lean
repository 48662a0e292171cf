/-
# The same symbols up to the variables

Where a text is read twice, the two results have the same names. If there is
one vocabulary that knows all of their symbols, they have the same constants,
functors and predicates, because the vocabulary has one of each for a name.
Then they differ in their variables alone.
-/

import Resolvent.Proofs.Clauses.Variants
import Resolvent.Proofs.Language.LegibleTexts
import Resolvent.Proofs.Language.Recognition

namespace Resolvent

/-! ### What is known of a symbol before and after -/

section

variable {A B C : Alphabet} {ρ ρ' : Relabelling}
  (both : ∀ {role : SymbolRole} (s : Symbol role), A.Allows s → B.Allows (ρ.map s) → C.Allows s)

include both

/-- What is known of the symbols of a term, and of those that replace them, can
be put together. -/
theorem Term.Over.zip {t : Term} (h : t.Over A) (h' : (t.relabel ρ).Over B) : t.Over C := by
  induction h with
  | var allowed =>
      cases h' with
      | var allowed' => exact .var (both _ allowed allowed')
  | const allowed =>
      cases h' with
      | const allowed' => exact .const (both _ allowed allowed')
  | app allowed some _ ih =>
      rw [relabel_app] at h'
      cases h' with
      | app allowed' _ each' =>
          exact .app (both _ allowed allowed') some fun t ht =>
            ih t ht (each' _ (List.mem_map_of_mem ht))

theorem Atom.Over.zip {a : Atom} (h : a.Over A) (h' : (a.relabel ρ).Over B) : a.Over C where
  predicate := both _ h.predicate h'.predicate
  args t ht := (h.args t ht).zip both (h'.args _ (List.mem_map_of_mem ht))

theorem Clause.Over.zip {c : Clause} (h : c.Over A) (h' : (c.relabel ρ).Over B) : c.Over C := by
  cases c with
  | fact a => exact ⟨Atom.Over.zip both h.head h'.head, List.forall_mem_nil _⟩
  | rule r =>
      have body (a : Atom) (ha : a ∈ r.body) : a.Over C :=
        (h.body a ha).zip both (h'.body _ (List.mem_map_of_mem ha))
      exact ⟨Atom.Over.zip both h.head h'.head, body⟩

end

/-- A clause sees no more of two relabellings than where they agree. -/
theorem Clause.Over.relabel_congr {ρ ρ' : Relabelling} {c : Clause}
    (h : c.Over (ρ.agreement ρ')) : c.relabel ρ = c.relabel ρ' := by
  cases c with
  | fact a => exact congrArg fact (Atom.Over.relabel_congr h.head)
  | rule r =>
      have body : r.body.map (Atom.relabel ρ) = r.body.map (Atom.relabel ρ') :=
        List.map_congr_left fun a ha => (h.body a ha).relabel_congr
      have head : r.head.relabel ρ = r.head.relabel ρ' := Atom.Over.relabel_congr h.head
      rw [relabel, relabel, head, body]

/-! ### Variables alone -/

/-- Other variables, and no other symbols. -/
def Relabelling.onVariables (f : Variable → Variable) : Relabelling where
  map {role} s :=
    match role with
    | .var => f s
    | .const | .functor | .predicate => s

variable (f : Variable → Variable)

/-- To relabel variables only is to rename a term. -/
theorem Term.relabel_onVariables (t : Term) : t.relabel (.onVariables f) = t.rename f := by
  induction t with
  | var x => rfl
  | const c => rfl
  | app g args ih =>
      rw [relabel_app, rename_app, List.map_congr_left ih]
      rfl

theorem Atom.relabel_onVariables (a : Atom) : a.relabel (.onVariables f) = a.rename f :=
  congrArg (Atom.mk a.predicate) (List.map_congr_left fun t _ => t.relabel_onVariables f)

theorem Clause.relabel_onVariables (c : Clause) : c.relabel (.onVariables f) = c.rename f := by
  cases c with
  | fact a => exact congrArg fact (a.relabel_onVariables f)
  | rule r =>
      have body := List.map_congr_left fun a (_ : a ∈ r.body) => a.relabel_onVariables f
      rw [relabel, r.head.relabel_onVariables f, body]
      rfl

namespace Vocabulary

variable {v : Vocabulary} {ρ : Relabelling}

/-- A vocabulary knows one symbol for a name. -/
theorem eq_of_knows {role : SymbolRole} {s s' : Symbol role} (known : v.Knows s)
    (known' : v.Knows s') (same : s.name = s'.name) : s = s' := by
  unfold Knows at known known'
  rw [same] at known
  exact Option.some.inj (known.symm.trans known')

/-- If names are kept, a symbol can only be replaced by another one that the
vocabulary knows as well if it is a variable. -/
theorem map_eq_onVariables (names : ρ.KeepsNames) {role : SymbolRole} (s : Symbol role)
    (known : v.alphabet.Allows s) (known' : v.alphabet.Allows (ρ.map s)) :
    (ρ.agreement (.onVariables ρ.map)).Allows s := by
  have same {role : SymbolRole} {s : Symbol role} (other : role ≠ .var)
      (known : v.alphabet.Allows s) (known' : v.alphabet.Allows (ρ.map s)) : ρ.map s = s :=
    eq_of_knows (known'.2.resolve_left other) (known.2.resolve_left other) (names s)
  cases role with
  | var => rfl
  | const => exact same (by decide) known known'
  | functor => exact same (by decide) known known'
  | predicate => exact same (by decide) known known'

/-- If two clauses have the same names, and all their symbols are known, they
are variants. -/
theorem variant_of_namedLike {c c' : Clause} (like : NamedLike Clause.relabel c' c)
    (legible : c.Legible v) (legible' : c'.Legible v) : c.Variant c' := by
  obtain ⟨ρ, names, rfl⟩ := like
  have agreed := legible.fits.zip (map_eq_onVariables names) legible'.fits
  refine ⟨ρ.map, ?_, ?_⟩
  · intro x hx y hy merged
    apply legible.apart hx hy
    rw [← names x, ← names y, merged]
  · rw [agreed.relabel_congr, Clause.relabel_onVariables]

end Vocabulary

end Resolvent
