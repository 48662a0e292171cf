/-
# Sample programs

A sample program comes with the system: its clauses, a query to try on them,
and a line that says what it is about.
-/

import Resolvent.Text.Layout

namespace Resolvent.Programs

/-- A program that comes with the system. -/
structure Sample where
  name : String
  source : String
  query : String
  description : String
  deriving DecidableEq

end Resolvent.Programs
