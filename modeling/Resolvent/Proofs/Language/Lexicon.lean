/-
# The symbols that readers know

A reader finds each symbol that it knows by the name of the symbol, and by that
name it finds no other one of the same role. So among the symbols that a reader
knows the names are as good as the symbols themselves. A vocabulary is a reader
without the variables of a text.
-/

import Mathlib.Data.Set.Operations
import Resolvent.Proofs.Language.Growth
import Resolvent.Proofs.Language.Relabelling

namespace Resolvent

/-- Whether a symbol is legible is told from its name alone. -/
theorem Alphabet.legible_of_name {role : SymbolRole} {s s' : Symbol role} (same : s.name = s'.name)
    (h : Alphabet.legible.Allows s) : Alphabet.legible.Allows s' := by
  show IsIdentifier s'.name ∧ role.Suits s'.name
  rw [← same]
  exact h

/-- Distinct variables of a list have distinct names. -/
def NamesApart (xs : List Variable) : Prop :=
  Set.InjOn Symbol.name {x | x ∈ xs}

instance (xs : List Variable) : Decidable (NamesApart xs) :=
  decidable_of_iff (∀ x ∈ xs, ∀ y ∈ xs, x.name = y.name → x = y)
    ⟨fun h x hx y hy => h x hx y hy, fun h _ hx _ hy => h hx hy⟩

/-- The symbol is the one that the vocabulary has for its name. -/
def Vocabulary.Knows (v : Vocabulary) {role : SymbolRole} (s : Symbol role) : Prop :=
  ({ vocabulary := v } : Reader).find? role s.name = some s

/-- The legible symbols that the vocabulary knows, and all legible
variables. -/
def Vocabulary.alphabet (v : Vocabulary) : Alphabet where
  Allows {role} s := Alphabet.legible.Allows s ∧ (role = .var ∨ v.Knows s)

/-- The legible symbols that the reader knows, the variables of the text among
them. -/
def Reader.lexicon (r : Reader) : Alphabet where
  Allows {role} s := Alphabet.legible.Allows s ∧ r.find? role s.name = some s

namespace Vocabulary

/-- A vocabulary that grows goes on to find what it found. -/
theorem Grows.extends {v v' : Vocabulary} (h : v.Grows v') :
    ({ vocabulary := v } : Reader).Extends { vocabulary := v' }
  | .var => List.prefix_rfl
  | .const => h.constants
  | .functor => h.functors
  | .predicate => h.predicates

/-- Whatever a vocabulary allows can be read. -/
theorem alphabet_within_legible (v : Vocabulary) : v.alphabet.Within .legible :=
  fun _ _ h => h.1

/-- A variable that is called like an allowed one is allowed itself. -/
theorem alphabet_renames (v : Vocabulary) : v.alphabet.Renames :=
  fun _ _ same h => ⟨Alphabet.legible_of_name same h.1, .inl rfl⟩

end Vocabulary

namespace Reader

/-- A reader that learns keeps what was in its lexicon. -/
theorem Extends.lexicon_within {r r' : Reader} (h : r.Extends r') :
    r.lexicon.Within r'.lexicon :=
  fun _ _ allowed => ⟨allowed.1, h.find?_eq allowed.2⟩

/-- Only variables are known to a reader and not to its vocabulary. -/
theorem knows_iff {r : Reader} {role : SymbolRole} (other : role ≠ .var) (s : Symbol role) :
    r.vocabulary.Knows s ↔ r.find? role s.name = some s := by
  cases role with
  | var => exact absurd rfl other
  | const => rfl
  | functor => rfl
  | predicate => rfl

/-- The vocabulary of a reader that learns keeps its alphabet. -/
theorem Extends.alphabet_within {r r' : Reader} (h : r.Extends r') :
    r.vocabulary.alphabet.Within r'.vocabulary.alphabet := by
  intro role s allowed
  obtain ⟨legible, known⟩ := allowed
  refine ⟨legible, or_iff_not_imp_left.mpr fun other => ?_⟩
  exact (knows_iff other s).mpr (h.find?_eq ((knows_iff other s).mp (known.resolve_left other)))

/-- Whatever is in a lexicon can be read. -/
theorem lexicon_within_legible {r : Reader} : r.lexicon.Within .legible :=
  fun _ _ allowed => allowed.1

/-- The lexicon of a reader has no symbols that its vocabulary would not
allow. -/
theorem lexicon_within_alphabet (r : Reader) : r.lexicon.Within r.vocabulary.alphabet :=
  fun _ s allowed =>
    ⟨allowed.1, or_iff_not_imp_left.mpr fun other => (knows_iff other s).mpr allowed.2⟩

/-- No two variables that a reader knows share a name. -/
theorem namesApart_of_lexicon {r : Reader} {xs : List Variable}
    (known : ∀ x ∈ xs, r.lexicon.Allows x) : NamesApart xs := by
  intro x hx y hy same
  have found : r.find? .var x.name = some y := same ▸ (known y hy).2
  exact Option.some.inj ((known x hx).2.symm.trans found)

/-- What is found for the name of a legible symbol is in the lexicon. -/
theorem lexicon_relabelling {r : Reader} {role : SymbolRole} {s : Symbol role}
    (legible : Alphabet.legible.Allows s) (known : r.naming.Allows s) :
    r.lexicon.Allows (r.relabelling.map s) := by
  have same := r.name_relabelling s
  obtain ⟨s', found⟩ := Option.isSome_iff_exists.mp known
  have image : r.relabelling.map s = s' := by
    show (r.find? role s.name).getD s = s'
    rw [found, Option.getD_some]
  refine ⟨Alphabet.legible_of_name same.symm legible, ?_⟩
  rw [same, image]
  exact found

end Reader

namespace Vocabulary

variable {v v' : Vocabulary}

/-- What is known to a vocabulary is known to it when it has grown. -/
theorem Grows.knows (h : v.Grows v') {role : SymbolRole} {s : Symbol role} (known : v.Knows s) :
    v'.Knows s :=
  h.extends.find?_eq known

/-- What a vocabulary allows it allows when it has grown. -/
theorem Grows.alphabet_within (h : v.Grows v') : v.alphabet.Within v'.alphabet :=
  h.extends.alphabet_within

end Vocabulary

end Resolvent
