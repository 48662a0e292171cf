/-
# A family tree

Flat facts about parents, and the ancestor relation by recursion. Every search
over them is finite.
-/

import Resolvent.Programs.Sample

namespace Resolvent.Programs

/-- Parents, mothers, grandparents and ancestors. -/
def family : Sample where
  name := "family"
  source := Text.lines [
    "parent(tom, bob).",
    "parent(tom, liz).",
    "parent(bob, ann).",
    "parent(bob, pat).",
    "parent(pat, jim).",
    "",
    "female(liz).",
    "female(ann).",
    "female(pat).",
    "",
    "mother(X, Y) :- parent(X, Y), female(X).",
    "grandparent(X, Z) :- parent(X, Y), parent(Y, Z).",
    "ancestor(X, Y) :- parent(X, Y).",
    "ancestor(X, Y) :- parent(X, Z), ancestor(Z, Y)."]
  query := "ancestor(tom, Who)"
  description := "Family tree: parent/2 facts, ancestor/2 by recursion"

end Resolvent.Programs
