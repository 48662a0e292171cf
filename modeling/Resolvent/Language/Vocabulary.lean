/-
# Vocabularies

A vocabulary knows the constants, functors and predicates that have been named
so far. Naming one of them again gives the same symbol; the three roles are
kept apart, so one name may be all three. A vocabulary only grows. It also
holds the supply of serial numbers, from which the variables of a text are
minted.
-/

import Resolvent.Symbol

namespace Resolvent

/-- The known symbols of each role, in order of first mention. -/
structure Vocabulary where
  constants : List Constant := []
  functors : List Functor := []
  predicates : List Predicate := []
  supply : Supply := {}

namespace Vocabulary

/-- The symbol of a name among known ones: the known symbol if there is one,
else a fresh symbol, which is known from then on. -/
def intern {role : SymbolRole} (known : List (Symbol role)) (supply : Supply) (name : String) :
    Symbol role × List (Symbol role) × Supply :=
  match known.find? (·.name = name) with
  | some symbol => (symbol, known, supply)
  | none =>
    let (symbol, supply) := supply.mint name
    (symbol, known ++ [symbol], supply)

/-- The constant of a name. -/
def constant (v : Vocabulary) (name : String) : Constant × Vocabulary :=
  let (c, constants, supply) := intern v.constants v.supply name
  (c, { v with constants, supply })

/-- The functor of a name. -/
def functor (v : Vocabulary) (name : String) : Functor × Vocabulary :=
  let (f, functors, supply) := intern v.functors v.supply name
  (f, { v with functors, supply })

/-- The predicate of a name. -/
def predicate (v : Vocabulary) (name : String) : Predicate × Vocabulary :=
  let (p, predicates, supply) := intern v.predicates v.supply name
  (p, { v with predicates, supply })

/-- The symbol of a name has that name. -/
theorem intern_name {role : SymbolRole} (known : List (Symbol role)) (supply : Supply)
    (name : String) : (intern known supply name).1.name = name := by
  unfold intern
  split
  · next h => simpa using List.find?_some h
  · rfl

/-- What was known stays known, in the same place. -/
theorem isPrefix_intern {role : SymbolRole} (known : List (Symbol role)) (supply : Supply)
    (name : String) : known <+: (intern known supply name).2.1 := by
  unfold intern
  split
  · exact ⟨[], by simp⟩
  · exact ⟨_, rfl⟩

/-- An interned symbol is known. -/
theorem mem_intern {role : SymbolRole} (known : List (Symbol role)) (supply : Supply)
    (name : String) : (intern known supply name).1 ∈ (intern known supply name).2.1 := by
  unfold intern
  split
  · next h => exact List.mem_of_find?_eq_some h
  · exact List.mem_append_right _ (List.mem_singleton.2 rfl)

end Vocabulary

end Resolvent
