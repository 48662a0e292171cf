/-
# The catalogue of sample programs
-/

import Resolvent.Programs.Family
import Resolvent.Programs.Lists
import Resolvent.Programs.Peano

namespace Resolvent.Programs

/-- The sample programs in the order in which they are offered. -/
def catalogue : List Sample :=
  [peano, family, lists]

/-- The names of the sample programs. -/
def names : List String :=
  catalogue.map Sample.name

/-- The sample program of a name. -/
def find? (name : String) : Option Sample :=
  catalogue.find? (·.name = name)

/-- The programs that are found are those whose names are listed. -/
theorem find?_isSome_iff {name : String} : (find? name).isSome ↔ name ∈ names := by
  simp [find?, names]

end Resolvent.Programs
