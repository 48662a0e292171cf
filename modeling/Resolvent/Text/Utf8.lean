/-
# Strict UTF-8

Bytes are decoded one character at a time. The first byte of a character says
how many bytes follow and which values the second may have, so that every
character has one encoding only and no code point outside Unicode has any.
Decoding stops at the first fault. The fault is placed at the bytes that are
the start of a character, as far as they go, and says what is wrong with the
byte behind them.
-/

namespace Resolvent.Text

/-- What is wrong with a sequence of bytes. -/
inductive Utf8Fault
  /-- No character begins with this byte. -/
  | badStart
  /-- The character goes on with a byte that cannot be part of it. -/
  | badContinuation
  /-- The text ends within a character. -/
  | cutShort
  deriving DecidableEq

/-- A fault with the faulty bytes and the position of the first of them. -/
structure Utf8Error where
  fault : Utf8Fault
  position : Nat
  bytes : List UInt8

/-- The wording of a fault. -/
def Utf8Fault.message : Utf8Fault → String
  | .badStart => "invalid start byte"
  | .badContinuation => "invalid continuation byte"
  | .cutShort => "unexpected end of data"

/-- The wording of an error. A single faulty byte is shown, several are
counted. -/
def Utf8Error.message (e : Utf8Error) : String :=
  let place :=
    match e.bytes with
    | [byte] =>
      let shown := String.ofList (Nat.toDigits 16 byte.toNat)
      let padded := if byte < 16 then "0" ++ shown else shown
      s!"byte 0x{padded} in position {e.position}"
    | bytes => s!"bytes in position {e.position}-{e.position + bytes.length - 1}"
  "'utf-8' codec can't decode " ++ place ++ ": " ++ e.fault.message

/-- What the first byte of a character announces: the bits of the code point
that it holds, the number of bytes to follow, and the least and greatest second
byte. -/
structure Utf8Lead where
  bits : Nat
  following : Nat
  least : UInt8 := 0x80
  greatest : UInt8 := 0xbf

/-- The announcement of a first byte, if a character can begin with it. -/
def utf8Lead? (byte : UInt8) : Option Utf8Lead :=
  let value := byte.toNat
  if value < 0x80 then some { bits := value, following := 0 }
  else if value < 0xc2 then none
  else if value < 0xe0 then some { bits := value - 0xc0, following := 1 }
  else if value = 0xe0 then some { bits := 0, following := 2, least := 0xa0 }
  else if value = 0xed then some { bits := 0xd, following := 2, greatest := 0x9f }
  else if value < 0xf0 then some { bits := value - 0xe0, following := 2 }
  else if value = 0xf0 then some { bits := 0, following := 3, least := 0x90 }
  else if value = 0xf4 then some { bits := 4, following := 3, greatest := 0x8f }
  else if value < 0xf4 then some { bits := value - 0xf0, following := 3 }
  else none

/-- Read the bytes that have to follow in a character. The result is its code
point and the number of bytes read, or else the fault and the number of bytes
that were right. -/
def utf8Tail : (following : Nat) → (least greatest : UInt8) → (code read : Nat) →
    List UInt8 → Except (Utf8Fault × Nat) (Nat × Nat)
  | 0, _, _, code, read, _ => .ok (code, read)
  | _ + 1, _, _, _, read, [] => .error (.cutShort, read)
  | following + 1, least, greatest, code, read, byte :: rest =>
    if least ≤ byte ∧ byte ≤ greatest then
      utf8Tail following 0x80 0xbf (code * 64 + (byte.toNat - 0x80)) (read + 1) rest
    else .error (.badContinuation, read)

/-- Decode bytes that begin at a position, behind the characters already
decoded, which come last first. -/
def utf8Scan (found : List Char) (position : Nat) (bytes : List UInt8) :
    Except Utf8Error (List Char) :=
  match bytes with
  | [] => .ok found.reverse
  | byte :: rest =>
    match utf8Lead? byte with
    | none => .error ⟨.badStart, position, [byte]⟩
    | some lead =>
      match utf8Tail lead.following lead.least lead.greatest lead.bits 0 rest with
      | .ok (code, read) =>
        utf8Scan (Char.ofNat code :: found) (position + 1 + read) (rest.drop read)
      | .error (fault, read) => .error ⟨fault, position, byte :: rest.take read⟩
termination_by bytes.length
decreasing_by
  simp only [List.length_drop, List.length_cons]
  omega

/-- The text that bytes encode. -/
def decodeUtf8 (bytes : List UInt8) : Except Utf8Error (List Char) :=
  utf8Scan [] 0 bytes

end Resolvent.Text
