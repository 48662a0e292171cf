/-
# Answers

An answer gives each variable of a query its value, in the order in which the
variables first appear in the query. A query without variables has the empty
answer, which says no more than that the query holds.
-/

import Resolvent.Binding

namespace Resolvent

/-- The value of each query variable. -/
structure Answer where
  values : List Binding := []
  deriving DecidableEq

namespace Answer

/-- An answer with one more value. A variable that has a value already gets the
new one in the place of the old. -/
def put (answer : Answer) (b : Binding) : Answer :=
  if answer.values.any (·.var = b.var) then
    ⟨answer.values.map fun old => if old.var = b.var then b else old⟩
  else ⟨answer.values ++ [b]⟩

/-- Whether every value is without variables. -/
def isGround (answer : Answer) : Bool :=
  answer.values.all (·.term.isGround)

/-- An answer as it is written. The empty one reads `true`. -/
def text (answer : Answer) : String :=
  match answer.values with
  | [] => "true"
  | values => Text.listed (values.map Binding.text)

end Answer

end Resolvent
