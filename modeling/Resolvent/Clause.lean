/-
# Clauses

An atom is a predicate with arguments. A clause is either a fact, an atom that
holds outright, or a rule, whose head holds if every atom of its body does. A
rule may have an empty body and is then still a rule.
-/

import Resolvent.Unification

namespace Resolvent

/-- A predicate with its arguments. -/
structure Atom where
  predicate : Predicate
  args : List Term := []
  deriving DecidableEq

namespace Atom

/-- The number of arguments. -/
def arity (a : Atom) : Nat :=
  a.args.length

/-- Two atoms match when they have the same predicate and as many arguments;
what the arguments are is left to unification. -/
def matches? (a b : Atom) : Bool :=
  a.predicate = b.predicate && a.arity = b.arity

/-- The variables of an atom, each once, by first appearance. -/
def vars (a : Atom) : List Variable :=
  varsOf a.args

/-- An atom with bindings applied to its arguments. -/
def instantiate (bindings : List Binding) (a : Atom) : Atom :=
  { a with args := a.args.map (applyAll bindings) }

/-- An atom as it is written. Without arguments it is its bare name. -/
def text (a : Atom) : String :=
  match a.args with
  | [] => a.predicate.name
  | args => a.predicate.name ++ "(" ++ Text.listed (Term.texts args) ++ ")"

/-- The place an atom is made for. It has no influence on what the atom means
and is told only when an atom is shown with its sort. -/
inductive Place
  | anywhere | fact | goal
  deriving DecidableEq

/-- The name of a place. -/
def Place.name : Place → String
  | .anywhere => "Atom"
  | .fact => "Fact"
  | .goal => "Goal"

/-- An atom with the name of its place in front. -/
def tagged (place : Place) (a : Atom) : String :=
  place.name ++ "(" ++ a.text ++ ")"

end Atom

/-- The head holds if every atom of the body does. -/
structure Rule where
  head : Atom
  body : List Atom := []
  deriving DecidableEq

namespace Rule

/-- The variables of a rule, each once, by first appearance, the head first. -/
def vars (r : Rule) : List Variable :=
  varsOf (r.head.args ++ r.body.flatMap Atom.args)

/-- A rule with bindings applied throughout. -/
def instantiate (bindings : List Binding) (r : Rule) : Rule :=
  ⟨r.head.instantiate bindings, r.body.map (Atom.instantiate bindings)⟩

/-- A rule as it is written. Without a body it is its bare head. -/
def text (r : Rule) : String :=
  match r.body with
  | [] => r.head.text
  | body => r.head.text ++ " :- " ++ Text.listed (body.map Atom.text)

end Rule

/-- A fact or a rule. -/
inductive Clause
  | fact (a : Atom)
  | rule (r : Rule)
  deriving DecidableEq

namespace Clause

/-- What a clause concludes. -/
def head : Clause → Atom
  | .fact a => a
  | .rule r => r.head

/-- What a clause asks for. -/
def body : Clause → List Atom
  | .fact _ => []
  | .rule r => r.body

/-- The variables of a clause, each once, by first appearance. -/
def vars : Clause → List Variable
  | .fact a => a.vars
  | .rule r => r.vars

/-- A clause with bindings applied throughout. -/
def instantiate (bindings : List Binding) : Clause → Clause
  | .fact a => .fact (a.instantiate bindings)
  | .rule r => .rule (r.instantiate bindings)

/-- A clause as it is written, without its full stop. -/
def text : Clause → String
  | .fact a => a.text
  | .rule r => r.text

/-- A clause with its sort in front. -/
def tagged : Clause → String
  | .fact a => a.tagged .fact
  | .rule r => "Rule(" ++ r.text ++ ")"

/-- The word for the kind of a clause in messages. -/
def kindName : Clause → String
  | .fact _ => "fact"
  | .rule _ => "rule"

/-! ### Standardizing apart -/

/-- A fresh variable of the same name for each variable of a list. -/
def freshened : List Variable → Supply → List Binding × Supply
  | [], supply => ([], supply)
  | x :: xs, supply =>
    let (fresh, supply) := supply.mint x.name
    let (rest, supply) := freshened xs supply
    (⟨x, .var fresh⟩ :: rest, supply)

/-- The clause with fresh variables in place of its own, so that it shares none
with anything made before. A clause without variables is kept as it is. The
renaming is applied one variable at a time, which comes to the same as all at
once because the fresh variables are none of those still to be replaced. -/
def standardizeApart (c : Clause) (supply : Supply) : Clause × Supply :=
  match c.vars with
  | [] => (c, supply)
  | xs =>
    let (bindings, supply) := freshened xs supply
    (c.instantiate bindings, supply)

end Clause

end Resolvent
