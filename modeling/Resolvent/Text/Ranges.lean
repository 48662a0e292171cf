/-
# Ranges of code points

Character classes are given as runs of code points in increasing order. Only
membership is needed, so a class is a plain list of its runs.
-/

namespace Resolvent.Text

/-- Runs of code points, each by its first and last member. -/
abbrev Ranges := List (Nat × Nat)

/-- Whether a code point lies in one of the runs. -/
def Ranges.contains (ranges : Ranges) (code : Nat) : Bool :=
  ranges.any fun (first, last) => first ≤ code && code ≤ last

/-- Whether a code point lies in one of the runs at an even distance from the
start of that run. -/
def Ranges.containsAlternate (ranges : Ranges) (code : Nat) : Bool :=
  ranges.any fun (first, last) => first ≤ code && code ≤ last && (code - first) % 2 == 0

/-- A code point lies in one of the runs if it is not below its first nor above
its last member. -/
theorem Ranges.contains_iff {ranges : Ranges} {code : Nat} :
    ranges.contains code ↔ ∃ run ∈ ranges, run.1 ≤ code ∧ code ≤ run.2 := by
  simp [Ranges.contains]

end Resolvent.Text
