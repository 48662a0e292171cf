/-
# Blank characters

The characters that separate words and are dropped from both ends of a line:
the ASCII spaces and separators, and the space characters of Unicode.
Zero-width characters are not blank.
-/

import Resolvent.Text.Ranges

namespace Resolvent.Text

/-- The runs of blank code points. -/
def blanks : Ranges :=
  [(0x9, 0xd), (0x1c, 0x20), (0x85, 0x85), (0xa0, 0xa0), (0x1680, 0x1680), (0x2000, 0x200a),
    (0x2028, 0x2029), (0x202f, 0x202f), (0x205f, 0x205f), (0x3000, 0x3000)]

/-- Whether a character is blank. -/
def isBlank (c : Char) : Bool :=
  blanks.contains c.toNat

/-- Everything that ASCII calls white space is blank. -/
theorem isBlank_of_isWhitespace {c : Char} (h : c.isWhitespace) : isBlank c := by
  simp [Char.isWhitespace] at h
  rcases h with ((rfl | rfl) | rfl) | rfl <;> decide

/-- A text without the characters of one class at both ends. -/
def trimmed (drop : Char → Bool) (text : List Char) : List Char :=
  ((text.dropWhile drop).reverse.dropWhile drop).reverse

/-- A text without the blanks at both ends. -/
def strip (text : List Char) : List Char :=
  trimmed isBlank text

end Resolvent.Text
