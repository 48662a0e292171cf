/-
# Symbols

A name alone does not say which object is meant: the `X` of one clause is not
the `X` of the next. A symbol therefore carries a serial number beside its
name, and two symbols are the same exactly when both agree. Serial numbers are
drawn from a supply that is passed along explicitly, so that "a fresh symbol"
is a statement about the supply and not about memory.
-/

namespace Resolvent

/-- The four roles a name can play. Symbols of different roles have different
types and are never compared. -/
inductive SymbolRole
  | var | const | functor | predicate
  deriving DecidableEq

/-- A named object. The serial number tells apart symbols of one name. -/
structure Symbol (role : SymbolRole) where
  serial : Nat
  name : String
  deriving DecidableEq

/-- A logic variable. Its scope is the clause or query it was minted for. -/
abbrev Variable := Symbol .var

/-- An individual. -/
abbrev Constant := Symbol .const

/-- The label of a compound term. -/
abbrev Functor := Symbol .functor

/-- The label of an atom. It never occurs inside a term. -/
abbrev Predicate := Symbol .predicate

/-- The serial numbers not yet handed out: `next` and everything above it. -/
structure Supply where
  next : Nat := 0
  deriving DecidableEq

namespace Supply

/-- A symbol that no earlier draw from this supply has produced. -/
def mint {role : SymbolRole} (supply : Supply) (name : String) :
    Symbol role × Supply :=
  (⟨supply.next, name⟩, ⟨supply.next + 1⟩)

/-- A symbol that this supply has already produced, or could have. -/
def Covers {role : SymbolRole} (supply : Supply) (symbol : Symbol role) : Prop :=
  symbol.serial < supply.next

/-- A new symbol is none that has been handed out. -/
theorem not_covers_mint {role : SymbolRole} (supply : Supply) (name : String) :
    ¬ supply.Covers (supply.mint name : Symbol role × Supply).1 := by
  simp [Covers, mint]

/-- When a symbol has been minted it has been handed out. -/
theorem covers_mint {role : SymbolRole} (supply : Supply) (name : String) :
    let minted : Symbol role × Supply := supply.mint name
    minted.2.Covers minted.1 := by
  simp [Covers, mint]

end Supply

end Resolvent
