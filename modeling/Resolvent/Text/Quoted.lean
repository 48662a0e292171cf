/-
# Quoted text

A text of arbitrary characters is shown between quotation marks in such a way
that every character of it can be told: the mark itself and the backslash are
escaped, line breaks and tabs have short escapes, and any other character that
is not printable is written by its number. The single mark is preferred; the
double mark is used when it saves escaping, that is, when the text has a single
mark and no double one.
-/

import Resolvent.Text.Printable

namespace Resolvent.Text

/-- The digits of a number in lower-case hexadecimal, at least `width` of
them. -/
def hexadecimal (width code : Nat) : List Char :=
  let digits := Nat.toDigits 16 code
  List.replicate (width - digits.length) '0' ++ digits

/-- One character of a text quoted with `mark`. The number of an unprintable
character takes two, four or eight digits, whichever is enough. -/
def escaped (mark c : Char) : List Char :=
  if c = mark ∨ c = '\\' then ['\\', c]
  else if c = '\n' then ['\\', 'n']
  else if c = '\r' then ['\\', 'r']
  else if c = '\t' then ['\\', 't']
  else if isPrintable c then [c]
  else if c.toNat < 0x100 then '\\' :: 'x' :: hexadecimal 2 c.toNat
  else if c.toNat < 0x10000 then '\\' :: 'u' :: hexadecimal 4 c.toNat
  else '\\' :: 'U' :: hexadecimal 8 c.toNat

/-- The mark that a text is quoted with. -/
def quotationMark (text : List Char) : Char :=
  if '\'' ∈ text ∧ '"' ∉ text then '"' else '\''

/-- A text between quotation marks. -/
def quoted (text : String) : String :=
  let characters := text.toList
  let mark := quotationMark characters
  String.ofList (mark :: (characters.flatMap (escaped mark) ++ [mark]))

end Resolvent.Text
