/-
# Peano arithmetic

Natural numbers are `z`, `s(z)`, `s(s(z))` and so on, with addition and
multiplication by recursion on the first argument. Addition may be asked
backwards. The predicate `nat` enumerates every number, so its search never
ends.
-/

import Resolvent.Programs.Sample

namespace Resolvent.Programs

/-- Addition, multiplication and the natural numbers. -/
def peano : Sample where
  name := "peano"
  source := Text.lines [
    "% addition",
    "add(z, Y, Y).",
    "add(s(X), Y, s(Z)) :- add(X, Y, Z).",
    "",
    "% multiplication",
    "mul(z, Y, z).",
    "mul(s(X), Y, Z) :- mul(X, Y, W), add(W, Y, Z).",
    "",
    "% every natural number",
    "nat(z).",
    "nat(s(X)) :- nat(X)."]
  query := "add(X, Y, s(s(z)))"
  description := "Peano arithmetic: add/3, mul/3, nat/1 over z and s(_)"

end Resolvent.Programs
