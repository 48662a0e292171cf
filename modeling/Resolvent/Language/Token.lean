/-
# Tokens

A text is cut into names, punctuation and the two arrows `:-` and `?-`. Blanks
and comments, which run from a percent sign to the end of the line, separate
tokens and are dropped. A name is as long as it can be.
-/

import Resolvent.Language.ParseError
import Resolvent.Text.Blank
import Resolvent.Text.Uppercase

namespace Resolvent

/-- A piece of the text with its offset from the start. -/
structure Token where
  kind : TokenKind
  text : String
  offset : Nat
  deriving DecidableEq

/-- The characters that names are made of: the ASCII letters and digits and the
low line. -/
def isNameCharacter (c : Char) : Bool :=
  c.isAlphanum || c = '_'

/-- Whether a name is that of a variable, which its first character decides.
There is no telling for the empty name. -/
def isVariableName? (name : String) : Option Bool :=
  name.toList.head?.map fun c => Text.isUppercase c || c = '_'

/-- Whether a name is that of a variable. -/
def isVariableName (name : String) : Bool :=
  isVariableName? name = some true

/-- A text that is a token by itself, by its first character and the others. -/
structure Mark where
  kind : TokenKind
  first : Char
  more : List Char := []

namespace Mark

/-- The arrows and the punctuation. None of them begins like a name. -/
def all : List Mark :=
  [⟨.neck, ':', ['-']⟩, ⟨.query, '?', ['-']⟩, ⟨.opening, '(', []⟩, ⟨.closing, ')', []⟩,
    ⟨.comma, ',', []⟩, ⟨.stop, '.', []⟩]

/-- The text of a mark. -/
def text (m : Mark) : String :=
  String.ofList (m.first :: m.more)

/-- Whether a text, given by its first character and the rest, begins with a
mark. -/
def begins (m : Mark) (c : Char) (rest : List Char) : Bool :=
  m.first = c && m.more.isPrefixOf rest

/-- The mark that a text begins with. There is one at most, since no two marks
have the same first character. -/
def at? (c : Char) (rest : List Char) : Option Mark :=
  all.find? (·.begins c rest)

end Mark

namespace Token

/-- The tokens of a text that starts at an offset, behind those already found,
which come newest first. -/
def scan (found : List Token) (offset : Nat) (text : List Char) :
    Except ParseError (List Token) :=
  match text with
  | [] => .ok found.reverse
  | c :: rest =>
    if Text.isBlank c then scan found (offset + 1) rest
    else if c = '%' then
      let comment := rest.takeWhile (· ≠ '\n')
      scan found (offset + 1 + comment.length) (rest.dropWhile (· ≠ '\n'))
    else if isNameCharacter c then
      let more := rest.takeWhile isNameCharacter
      scan (⟨.name, String.ofList (c :: more), offset⟩ :: found) (offset + 1 + more.length)
        (rest.dropWhile isNameCharacter)
    else
      match Mark.at? c rest with
      | some m =>
        scan (⟨m.kind, m.text, offset⟩ :: found) (offset + 1 + m.more.length)
          (rest.drop m.more.length)
      | none => .error ⟨.strayCharacter c, offset⟩
termination_by text.length
decreasing_by
  · simp only [List.length_cons]; omega
  · exact Nat.lt_succ_of_le (List.dropWhile_sublist _).length_le
  · exact Nat.lt_succ_of_le (List.dropWhile_sublist _).length_le
  · exact Nat.lt_succ_of_le (List.drop_sublist _ _).length_le

/-- The tokens of a text, in order. -/
def ofText (text : String) : Except ParseError (List Token) :=
  scan [] 0 text.toList

end Token

end Resolvent
