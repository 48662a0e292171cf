/-
# Unification

Equations between terms are solved one after another. Each makes one of four
moves: it is discarded if its sides are equal, it binds a variable, it is split
into equations between arguments, or it clashes. A binding is applied at once
to the equations that are left, so its variable does not come up again unless
the bound term contains it; there is no occurs check.

Because of that a run may go on for ever: the equations `X = g(X, X)` and
`X = g(X, X)` are never used up. A run is therefore given a number of moves,
and running out of them is an outcome of its own, different from a clash.
-/

import Resolvent.Binding

namespace Resolvent

/-- Two terms that are to be made the same. -/
structure Equation where
  left : Term
  right : Term
  deriving DecidableEq

namespace Equation

/-- An equation with a binding applied to both sides. -/
def instantiate (b : Binding) (e : Equation) : Equation :=
  ⟨b.apply e.left, b.apply e.right⟩

/-- An equation as it is written. -/
def text (e : Equation) : String :=
  e.left.text ++ " = " ++ e.right.text

/-- What a single equation calls for. -/
inductive Move
  | discard
  | bind (b : Binding)
  | split (parts : List Equation)
  | clash

/-- The move of an equation. Equal sides need nothing done. Otherwise the left
side is bound if it is a variable, else the right side. Two applications need
the same functor and as many arguments. -/
def move (e : Equation) : Move :=
  if e.left = e.right then .discard
  else
    match e.left, e.right with
    | .var x, t => .bind ⟨x, t⟩
    | t, .var y => .bind ⟨y, t⟩
    | .app f ss, .app g ts =>
      if f = g ∧ ss.length = ts.length then .split (List.zipWith Equation.mk ss ts) else .clash
    | .const _, .const _ | .const _, .app _ _ | .app _ _, .const _ => .clash

end Equation

/-- How a run of unification ends. -/
inductive Verdict
  | solved (bindings : List Binding)
  | clash
  | unfinished
  deriving DecidableEq

namespace Verdict

/-- A verdict on what is left after a binding, as a verdict on the whole. -/
def after (b : Binding) : Verdict → Verdict
  | .solved bindings => .solved (b :: bindings)
  | .clash => .clash
  | .unfinished => .unfinished

end Verdict

/-- Solve equations within a number of moves. The bindings of a solution stand
in the order in which they were made. -/
def unify : (moves : Nat) → List Equation → Verdict
  | _, [] => .solved []
  | 0, _ :: _ => .unfinished
  | moves + 1, e :: rest =>
    match e.move with
    | .discard => unify moves rest
    | .bind b => (unify moves (rest.map (·.instantiate b))).after b
    | .split parts => unify moves (parts ++ rest)
    | .clash => .clash

/-- With more moves a finished run ends in the same way. -/
theorem unify_of_le {moves more : Nat} (h : moves ≤ more) {equations : List Equation}
    (finished : unify moves equations ≠ .unfinished) :
    unify more equations = unify moves equations := by
  induction moves generalizing more equations with
  | zero =>
    cases equations with
    | nil => simp [unify]
    | cons e rest => exact absurd rfl finished
  | succ moves ih =>
    cases equations with
    | nil => simp [unify]
    | cons e rest =>
      obtain ⟨more, rfl⟩ : ∃ n, more = n + 1 := ⟨more - 1, by omega⟩
      have hle : moves ≤ more := by omega
      rw [unify] at finished
      rw [unify, unify]
      cases hm : e.move with
      | discard => rw [hm] at finished; exact ih hle finished
      | split parts => rw [hm] at finished; exact ih hle finished
      | clash => rfl
      | bind b =>
        simp only [hm] at finished
        have hrest : unify moves (rest.map (·.instantiate b)) ≠ .unfinished := by
          intro h
          rw [h] at finished
          exact finished rfl
        simp only [ih hle hrest]

/-- Solve a single equation. -/
def unifyTerms (moves : Nat) (s t : Term) : Verdict :=
  unify moves [⟨s, t⟩]

end Resolvent
