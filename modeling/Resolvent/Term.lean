/-
# Terms

A term is a variable, a constant, or a functor applied to arguments. Leaves are
compared as symbols, never by name alone. An application may have no arguments
at all; it is then still different from every constant.
-/

import Resolvent.Symbol
import Resolvent.Text.Layout
import Resolvent.Text.Quoted

namespace Resolvent

/-- The objects that variables range over. -/
inductive Term
  | var (x : Variable)
  | const (c : Constant)
  | app (f : Functor) (args : List Term)

namespace Term

/-! ### Equality

Terms are equal when they have the same leaves under the same functors.
Unification binds variables to terms that it has met before, so a subterm can
be shared many times over and a term be very much larger than what is stored of
it. Equality is therefore decided by looking first whether two subterms are one
and the same in memory, which changes nothing about the outcome and spares
walking through a shared subterm more than once.
-/

mutual

/-- Decide whether two terms are equal. -/
def decEq : (s t : Term) → Decidable (s = t)
  | .var x, .var y => decidable_of_iff (x = y) (by simp)
  | .const c, .const d => decidable_of_iff (c = d) (by simp)
  | .app f ss, .app g ts =>
    if h : f = g ∧ ss.length = ts.length then
      @decidable_of_iff _ (ss = ts) (by simp [h.1]) (decEqEach ss ts)
    else isFalse fun e => h (by cases e; exact ⟨rfl, rfl⟩)
  | .var _, .const _ | .var _, .app _ _ | .const _, .var _ | .const _, .app _ _
  | .app _ _, .var _ | .app _ _, .const _ => isFalse (by simp)

/-- Decide whether two lists of terms are equal, from the first pair on. -/
def decEqEach : (ss ts : List Term) → Decidable (ss = ts)
  | [], [] => isTrue rfl
  | s :: ss, t :: ts =>
    match withPtrEqDecEq s t fun _ => decEq s t with
    | isFalse h => isFalse (by simp [h])
    | isTrue h => @decidable_of_iff _ (ss = ts) (by simp [h]) (decEqEach ss ts)
  | [], _ :: _ | _ :: _, [] => isFalse (by simp)

end

instance : DecidableEq Term := fun s t => withPtrEqDecEq s t fun _ => decEq s t

/-- The number of arguments of an application. -/
def arity? : Term → Option Nat
  | .app _ args => some args.length
  | _ => none

/-! ### Variables -/

/-- A list of distinct variables, with one more at its end unless it has it
already. -/
def note (found : List Variable) (x : Variable) : List Variable :=
  if x ∈ found then found else found ++ [x]

mutual

/-- The variables of a term added to those already found, in the order in which
they are first met from left to right. -/
def collect (found : List Variable) : Term → List Variable
  | .var x => note found x
  | .const _ => found
  | .app _ args => collectEach found args

/-- The variables of several terms added to those already found. -/
def collectEach (found : List Variable) : List Term → List Variable
  | [] => found
  | t :: ts => collectEach (collect found t) ts

end

/-- The variables of a term, each once, by first appearance. -/
def vars (t : Term) : List Variable :=
  collect [] t

mutual

/-- Whether a term has no variables. -/
def isGround : Term → Bool
  | .var _ => false
  | .const _ => true
  | .app _ args => eachIsGround args

/-- Whether no term of a list has variables. -/
def eachIsGround : List Term → Bool
  | [] => true
  | t :: ts => isGround t && eachIsGround ts

end

/-! ### Text -/

mutual

/-- A term as it is written. The parentheses of an application are always
there. -/
def text : Term → String
  | .var x => x.name
  | .const c => c.name
  | .app f args => f.name ++ "(" ++ Text.listed (texts args) ++ ")"

/-- Terms as they are written, one by one. -/
def texts : List Term → List String
  | [] => []
  | t :: ts => text t :: texts ts

end

/-- A term with its sort in front. The name of a leaf is quoted, since any text
can be a name. -/
def tagged : Term → String
  | .var x => "Variable(" ++ Text.quoted x.name ++ ")"
  | .const c => "Constant(" ++ Text.quoted c.name ++ ")"
  | t@(.app _ _) => "Application(" ++ t.text ++ ")"

end Term

/-- The variables of several terms, each once, by first appearance. -/
def varsOf (terms : List Term) : List Variable :=
  Term.collectEach [] terms

end Resolvent
