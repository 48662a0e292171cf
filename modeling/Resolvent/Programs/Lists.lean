/-
# Lists

A list is `nil`, or `cons(H, T)` with its first element and the rest. Appending
may be asked backwards and then enumerates the ways to split a list.
-/

import Resolvent.Programs.Sample

namespace Resolvent.Programs

/-- Appending, membership and reversal. -/
def lists : Sample where
  name := "lists"
  source := Text.lines [
    "append(nil, L, L).",
    "append(cons(H, T), L, cons(H, R)) :- append(T, L, R).",
    "",
    "member(X, cons(X, T)).",
    "member(X, cons(H, T)) :- member(X, T).",
    "",
    "reverse(nil, nil).",
    "reverse(cons(H, T), R) :- reverse(T, S), append(S, cons(H, nil), R)."]
  query := "append(X, Y, cons(a, cons(b, nil)))"
  description := "Lists over cons/nil: append/3, member/2, reverse/2"

end Resolvent.Programs
