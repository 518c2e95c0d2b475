import SchemaGen.Number.Decimal
import SchemaGen.Text.Hex

/-!
# UTF-8

The octets of a text, and the text of octets. In reading, the first octet of a character says how
many more belong to it and in which range the second lies, so overlong forms, surrogates and codes
past the last plane fail at their second octet. A fault names the octets that started a character
and could not be finished: as many as were right so far, or all that are left when the data ends.
-/

namespace SchemaGen.Text.Utf8

/-- Why octets are not a character. -/
inductive Reason where
  | invalidStart
  | invalidContinuation
  | unexpectedEnd
  deriving DecidableEq, Repr

/-- The words for a reason. -/
def Reason.text : Reason → String
  | .invalidStart => "invalid start byte"
  | .invalidContinuation => "invalid continuation byte"
  | .unexpectedEnd => "unexpected end of data"

/-- The octets from `position`, `length` many and the first of them `octet`, are no character. -/
structure Fault where
  octet : UInt8
  position : Nat
  length : Nat
  reason : Reason
  deriving DecidableEq, Repr

/-- A single octet is shown by its value, several by their places. -/
def Fault.message (f : Fault) : String :=
  let place :=
    if f.length ≤ 1 then
      "byte 0x" ++ String.ofList (Hex.digits 2 f.octet.toNat) ++ " in position " ++
        Number.decimal f.position
    else
      "bytes in position " ++ Number.decimal f.position ++ "-" ++
        Number.decimal (f.position + f.length - 1 : Nat)
  "'utf-8' codec can't decode " ++ place ++ ": " ++ f.reason.text

/-- What a first octet promises: the bits it gives, the range of the second octet, and how many
octets follow it. -/
structure Lead where
  bits : Nat
  low : UInt8
  high : UInt8
  more : Nat

/-- The promise of an octet that starts a character of several octets. -/
def lead? (b : UInt8) : Option Lead :=
  if b < 0xc2 then none
  else if b < 0xe0 then some ⟨b.toNat - 0xc0, 0x80, 0xbf, 1⟩
  else if b = 0xe0 then some ⟨0, 0xa0, 0xbf, 2⟩
  else if b = 0xed then some ⟨0xd, 0x80, 0x9f, 2⟩
  else if b < 0xf0 then some ⟨b.toNat - 0xe0, 0x80, 0xbf, 2⟩
  else if b = 0xf0 then some ⟨0, 0x90, 0xbf, 3⟩
  else if b < 0xf4 then some ⟨b.toNat - 0xf0, 0x80, 0xbf, 3⟩
  else if b = 0xf4 then some ⟨4, 0x80, 0x8f, 3⟩
  else none

/-- Where reading stands between two octets. -/
inductive State where
  /-- Between characters. -/
  | start
  /-- Inside a character that began with `octet`, `seen` octets ago: `more + 1` octets are owed,
  the next of them between `low` and `high`, and `bits` is the code so far. -/
  | inside (octet : UInt8) (seen : Nat) (bits : Nat) (low high : UInt8) (more : Nat)

/-- Decodes the octets from `position` on, going on from a state. -/
def decodeFrom : State → Nat → List UInt8 → Except Fault (List Char)
  | .start, _, [] => .ok []
  | .inside octet seen _ _ _ _, position, [] =>
    .error ⟨octet, position - seen, seen, .unexpectedEnd⟩
  | .start, position, b :: rest =>
    if b < 0x80 then do
      return Char.ofNat b.toNat :: (← decodeFrom .start (position + 1) rest)
    else
      match lead? b with
      | none => .error ⟨b, position, 1, .invalidStart⟩
      | some l => decodeFrom (.inside b 1 l.bits l.low l.high (l.more - 1)) (position + 1) rest
  | .inside octet seen bits low high more, position, b :: rest =>
    if low ≤ b ∧ b ≤ high then
      let code := bits * 64 + (b.toNat - 0x80)
      match more with
      | 0 => do return Char.ofNat code :: (← decodeFrom .start (position + 1) rest)
      | more + 1 => decodeFrom (.inside octet (seen + 1) code 0x80 0xbf more) (position + 1) rest
    else .error ⟨octet, position - seen, seen, .invalidContinuation⟩

/-- The octets of a text. -/
def encode (s : String) : List UInt8 := s.toUTF8.toList

/-- The text of octets. -/
def decode (octets : List UInt8) : Except Fault (List Char) := decodeFrom .start 0 octets

end SchemaGen.Text.Utf8
