/-
# Errors in program and query text

A text is refused at its first character that begins no token, or else at its
first token that cannot continue what came before. The offset of an error
counts characters from the start of the text; the end of the text counts as a
place where something may be missing.
-/

import Resolvent.Text.Quoted

namespace Resolvent

/-- The kinds of token. -/
inductive TokenKind
  | name | neck | query | opening | closing | comma | stop
  deriving DecidableEq

/-- What a kind of token is called. Punctuation is called by its own text. -/
def TokenKind.label : TokenKind → String
  | .name => "name"
  | .neck => "neck"
  | .query => "query"
  | .opening => "("
  | .closing => ")"
  | .comma => ","
  | .stop => "."

/-- Why a text is refused. -/
inductive ParseError.Cause
  /-- No token begins with this character. -/
  | strayCharacter (c : Char)
  /-- A token of this kind was expected, or the end of the text; found was a
  token with this text, or the end of the text. -/
  | expected (wanted : Option TokenKind) (found : Option String)
  /-- A variable stands where a predicate has to be named. -/
  | variableAsPredicate (name : String)
  deriving DecidableEq

/-- A refusal and the place of it. -/
structure ParseError where
  cause : ParseError.Cause
  offset : Nat
  deriving DecidableEq

namespace ParseError

/-- The wording of a cause. -/
def Cause.message : Cause → String
  | .strayCharacter c => "unexpected character " ++ Text.quoted (String.singleton c)
  | .expected wanted found =>
    "expected " ++ described (wanted.map TokenKind.label) ++ ", found " ++ described found
  | .variableAsPredicate name => "predicate name expected, got variable " ++ Text.quoted name
where
  /-- A token between quotation marks, or the words for the end of the text. -/
  described : Option String → String
    | some text => Text.quoted text
    | none => "end of input"

/-- A message with the place it refers to, if that is known. -/
def located (message : String) : Option Int → String
  | some offset => message ++ s!" (at offset {offset})"
  | none => message

/-- The wording of an error. -/
def message (e : ParseError) : String :=
  located e.cause.message (some (Int.ofNat e.offset))

end ParseError

end Resolvent
