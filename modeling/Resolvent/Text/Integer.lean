/-
# Integers as they are typed

An integer may have blanks around it, a sign in front, and a low line between
two digits; its digits may be of any script. It may not have more than 4300 of
them. The blanks around it are the white space of ASCII and any blank beyond
ASCII, but not the four separators of ASCII.
-/

import Resolvent.Text.Blank
import Resolvent.Text.Digit

namespace Resolvent.Text

/-- The greatest number of digits that is read. -/
def digitLimit : Nat :=
  4300

/-- The white space of ASCII: the space and the characters from tab to carriage
return. -/
def isAsciiSpace (c : Char) : Bool :=
  c = ' ' || (0x9 ≤ c.toNat && c.toNat ≤ 0xd)

/-- Whether a character may stand around an integer. The four separators of
ASCII are blank otherwise, but not here. -/
def isPadding (c : Char) : Bool :=
  isAsciiSpace c || (0x7f ≤ c.toNat && isBlank c)

/-- The values of the digits of a numeral, whose digits may be separated by
single low lines. -/
def digitValues? : List Char → Option (List Nat)
  | [] => none
  | [c] => (digitValue? c).map ([·])
  | c :: '_' :: rest => do
    let d ← digitValue? c
    let ds ← digitValues? rest
    return d :: ds
  | c :: rest => do
    let d ← digitValue? c
    let ds ← digitValues? rest
    return d :: ds

/-- The number that digits stand for, the most significant first. -/
def ofDigitValues (digits : List Nat) : Nat :=
  digits.foldl (fun n d => 10 * n + d) 0

/-- The number that a numeral without a sign stands for. -/
def natural? (text : List Char) : Option Nat := do
  let digits ← digitValues? text
  if digits.length ≤ digitLimit then return ofDigitValues digits else none

/-- The integer that a text stands for, if it stands for one. -/
def integer? (text : String) : Option Int :=
  match trimmed isPadding text.toList with
  | '+' :: rest => (natural? rest).map Int.ofNat
  | '-' :: rest => (natural? rest).map fun n => -Int.ofNat n
  | numeral => (natural? numeral).map Int.ofNat

end Resolvent.Text
