/-
# Positive integers

Numbers of answers and of steps are given as integers of at least one. A bound
on either may be left open. On the command line it may also be asked for
without a number, which is found out only when the bound is needed.
-/

import Resolvent.Text.Integer
import Resolvent.Text.Quoted

namespace Resolvent.CommandLine

/-- Why a text is not a positive integer. -/
inductive NumberError
  | notInteger (text : String)
  | tooSmall (value : Int)
  deriving DecidableEq

/-- The wording of an error. -/
def NumberError.message : NumberError → String
  | .notInteger text => "not an integer: " ++ Text.quoted text
  | .tooSmall value => s!"must be at least 1, got {value}"

/-- The positive integer that a text stands for. -/
def positiveInteger (text : String) : Except NumberError Nat :=
  match Text.integer? text with
  | none => .error (.notInteger text)
  | some value => if value < 1 then .error (.tooSmall value) else .ok value.toNat

/-- A bound on a number of answers or steps. -/
inductive Bound
  | unlimited
  | atMost (n : Nat)
  /-- A bound is asked for, but its number is missing. -/
  | numberless
  deriving DecidableEq

/-- What a bound allows, if its number is not missing: so many at most, or any
number. -/
def Bound.limit? : Bound → Option (Option Nat)
  | .unlimited => some none
  | .atMost n => some (some n)
  | .numberless => none

/-- The number of answers to show if none is asked for: what the environment
says, if it says a positive integer, or else ten. -/
def defaultAnswers (environment : Option String) : Nat :=
  match environment.map positiveInteger with
  | some (.ok value) => value
  | _ => 10

/-- What is accepted is at least one. -/
theorem one_le_positiveInteger {text : String} {n : Nat} (h : positiveInteger text = .ok n) :
    1 ≤ n := by
  unfold positiveInteger at h
  split at h
  · cases h
  · split at h
    · cases h
    · cases h
      omega

end Resolvent.CommandLine
