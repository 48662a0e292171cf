/-
# The clause store

A store keeps its facts and its rules apart, each in the order in which they
were added. That order is the order in which a search tries them, facts first.
Clauses are only ever added.
-/

import Resolvent.Clause

namespace Resolvent

/-- Facts and rules in order of addition. -/
structure Store where
  facts : List Atom := []
  rules : List Rule := []
  deriving DecidableEq

namespace Store

/-- A store with one more clause at the end of its facts or of its rules. -/
def add (store : Store) : Clause → Store
  | .fact a => { store with facts := store.facts ++ [a] }
  | .rule r => { store with rules := store.rules ++ [r] }

/-- A store with several more clauses, in order. -/
def extend (store : Store) (clauses : List Clause) : Store :=
  clauses.foldl add store

/-- The clauses in the order in which a search tries them. -/
def clauses (store : Store) : List Clause :=
  store.facts.map .fact ++ store.rules.map .rule

/-- The number of clauses. -/
def size (store : Store) : Nat :=
  store.facts.length + store.rules.length

/-- The clauses whose head matches a goal. -/
def candidates (store : Store) (goal : Atom) : List Clause :=
  store.clauses.filter fun c => c.head.matches? goal

/-- The name and arity of an atom's predicate. Predicates of one name and arity
are listed together even if they are different symbols. -/
def signature (a : Atom) : String × Nat :=
  (a.predicate.name, a.arity)

/-- A list with an item added at its end unless it is there already. -/
def including {α : Type} [DecidableEq α] (items : List α) (item : α) : List α :=
  if item ∈ items then items else items ++ [item]

/-- The signatures that the store defines, by first appearance among the facts
and then the rules. -/
def predicates (store : Store) : List (String × Nat) :=
  (store.clauses.map fun c => signature c.head).foldl including []

/-- A store in brief. -/
def summary (store : Store) : String :=
  s!"ClauseStore({store.facts.length} facts, {store.rules.length} rules)"

/-! ### Offers -/

/-- What a host may try to put into a store. -/
inductive Offer
  | clause (c : Clause)
  | term (t : Term)
  | text (s : String)

/-- An offer that no store takes. -/
inductive Refusal
  | termOffered (t : Term)
  | textOffered (s : String)

/-- The wording of a refusal: what was offered is shown with its sort. -/
def Refusal.message : Refusal → String
  | .termOffered t => "not a clause: " ++ t.tagged
  | .textOffered s => "not a clause: " ++ Text.quoted s

/-- Add a clause, and refuse anything else. -/
def accept (store : Store) : Offer → Except Refusal Store
  | .clause c => .ok (store.add c)
  | .term t => .error (.termOffered t)
  | .text s => .error (.textOffered s)

end Store

end Resolvent
