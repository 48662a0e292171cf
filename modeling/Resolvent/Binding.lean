/-
# Bindings

A binding replaces one variable by a term. A list of bindings is applied from
its front to its end: what an earlier binding puts in place is still open to
the later ones, and a binding does not look back. This is composition in
sequence, neither simultaneous replacement nor a fixed point.

Replacement keeps what it can. A subterm in which nothing changes is handed
back as it is, and `replace?` says so by answering with nothing; only the path
from the root to a changed leaf is built anew.
-/

import Resolvent.Term

namespace Resolvent

/-- The variable `var` stands for `term`. -/
structure Binding where
  var : Variable
  term : Term
  deriving DecidableEq

namespace Binding

mutual

/-- The term with the variable replaced, or nothing if no leaf changes. Binding
a variable to itself changes no leaf. -/
def replace? (b : Binding) : Term → Option Term
  | .var x => if x = b.var ∧ b.term ≠ .var x then some b.term else none
  | .const _ => none
  | .app f args => (replaceEach? b args).map (.app f)

/-- The terms with the variable replaced, or nothing if none of them
changes. -/
def replaceEach? (b : Binding) : List Term → Option (List Term)
  | [] => none
  | t :: ts =>
    match replace? b t, replaceEach? b ts with
    | none, none => none
    | t', ts' => some (t'.getD t :: ts'.getD ts)

end

/-- The term with every occurrence of the bound variable replaced. -/
def apply (b : Binding) (t : Term) : Term :=
  (b.replace? t).getD t

@[simp] theorem apply_var (b : Binding) (x : Variable) :
    b.apply (.var x) = if x = b.var then b.term else .var x := by
  simp only [apply, replace?]
  split
  · next h => simp [h.1]
  · next h =>
    split
    · next hx => simp_all
    · rfl

@[simp] theorem apply_const (b : Binding) (c : Constant) : b.apply (.const c) = .const c := rfl

/-- The terms afterwards are those of each one by itself, whether or not
anything has changed. -/
theorem getD_replaceEach? (b : Binding) (ts : List Term) :
    (b.replaceEach? ts).getD ts = ts.map b.apply := by
  induction ts with
  | nil => rfl
  | cons t ts ih =>
    simp only [replaceEach?, List.map_cons, ← ih, apply]
    split
    · next ht hts => simp [ht, hts]
    · rfl

/-- Below a functor the arguments are treated one by one. -/
@[simp] theorem apply_app (b : Binding) (f : Functor) (args : List Term) :
    b.apply (.app f args) = .app f (args.map b.apply) := by
  rw [← getD_replaceEach?, apply, replace?]
  cases b.replaceEach? args <;> rfl

/-- A binding as it is written. -/
def text (b : Binding) : String :=
  b.var.name ++ " -> " ++ b.term.text

end Binding

/-- A term under a list of bindings, applied in order. -/
def applyAll (bindings : List Binding) (t : Term) : Term :=
  bindings.foldl (fun t b => b.apply t) t

@[simp] theorem applyAll_nil (t : Term) : applyAll [] t = t := rfl

@[simp] theorem applyAll_cons (b : Binding) (bs : List Binding) (t : Term) :
    applyAll (b :: bs) t = applyAll bs (b.apply t) := rfl

/-- A list put behind another acts on what the other brings about. -/
theorem applyAll_append (bs cs : List Binding) (t : Term) :
    applyAll (bs ++ cs) t = applyAll cs (applyAll bs t) := by
  simp [applyAll]

/-- Whether a list of bindings hands back the very term it is given. A leaf is
kept when the outcome is the same symbol, also after a detour. An application
is kept only when no binding changes it, since a change builds a new one even
if a later change undoes it. -/
def keeps : List Binding → Term → Bool
  | [], _ => true
  | b :: bs, t@(.app _ _) => (b.replace? t).isNone && keeps bs t
  | bindings, leaf => applyAll bindings leaf = leaf

end Resolvent
