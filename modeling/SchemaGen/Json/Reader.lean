import SchemaGen.Json.Fault
import SchemaGen.Json.Value
import SchemaGen.Text.Hex

/-!
# Reading JSON

One value with blank space around it. The scanners take the characters that are left and give back
what they read with the rest; a fault carries the characters that were left where it lies, from
which its place is computed at the end. An object's repeated key keeps the place of its first and
the value of its last occurrence. A surrogate without its partner is read as the replacement
character.
-/

namespace SchemaGen.Json

open SchemaGen.Number (Binary64)

/-- Why scanning stopped. -/
inductive Stop where
  | misread (problem : Problem) (left : List Char)
  | tooManyDigits (count : Nat)

/-- The four characters that may stand between the parts of a text. -/
def isSpace (c : Char) : Bool := c == ' ' || c == '\t' || c == '\n' || c == '\r'

/-- The characters after blank space. -/
def skipSpace (s : List Char) : List Char := s.dropWhile isSpace

/-! ## Strings -/

/-- The character named after a backslash. -/
def namedEscape? : Char → Option Char
  | '"' => some '"'
  | '\\' => some '\\'
  | '/' => some '/'
  | 'b' => some '\x08'
  | 'f' => some '\x0c'
  | 'n' => some '\n'
  | 'r' => some '\r'
  | 't' => some '\t'
  | _ => none

/-- Whether a code is the first half of a surrogate pair. -/
def isHighSurrogate (code : Nat) : Bool := 0xd800 ≤ code && code ≤ 0xdbff

/-- Whether a code is the second half of a surrogate pair. -/
def isLowSurrogate (code : Nat) : Bool := 0xdc00 ≤ code && code ≤ 0xdfff

/-- The character with a code, or the replacement character for half a pair. This has a limit: a
string has no place for half a pair, which a reader of JSON may keep as it stands, so texts that
differ in such halves only are read as one. -/
def characterOf (code : Nat) : Char :=
  if isHighSurrogate code || isLowSurrogate code then '\ufffd' else Char.ofNat code

/-- The character that a surrogate pair stands for. -/
def joinSurrogates (high low : Nat) : Char :=
  Char.ofNat (0x10000 + (high - 0xd800) * 0x400 + (low - 0xdc00))

/-- Puts a character before the characters that a scanner read. -/
def push (c : Char) (read : List Char × List Char) : List Char × List Char :=
  (c :: read.1, read.2)

/-- Puts a high surrogate that found no partner before the characters that a scanner read. -/
def flush (pending : Option Nat) (read : List Char × List Char) : List Char × List Char :=
  match pending with
  | none => read
  | some high => push (characterOf high) read

/-- The characters of a string after its opening quote; `whole` starts at that quote. A high
surrogate that was just read is `pending` until the next character shows whether it is half of a
pair. -/
def scanString (whole : List Char) :
    Option Nat → List Char → Except Stop (List Char × List Char)
  | _, [] => .error (.misread .unterminatedString whole)
  | pending, '"' :: rest => .ok (flush pending ([], rest))
  | _, ['\\'] => .error (.misread .unterminatedString whole)
  | pending, '\\' :: 'u' :: a :: b :: c :: d :: rest =>
    match Text.Hex.value4? a b c d, rest.isEmpty with
    | some code, false =>
      match pending, isLowSurrogate code with
      | some high, true => (scanString whole none rest).map (push (joinSurrogates high code))
      | pending, _ =>
        if isHighSurrogate code then (scanString whole (some code) rest).map (flush pending)
        else (scanString whole none rest).map (flush pending ∘ push (characterOf code))
    | _, _ => .error (.misread .incompleteCode ('u' :: a :: b :: c :: d :: rest))
  | _, '\\' :: 'u' :: short => .error (.misread .incompleteCode ('u' :: short))
  | pending, '\\' :: c :: rest =>
    match namedEscape? c with
    | some named => (scanString whole none rest).map (flush pending ∘ push named)
    | none => .error (.misread .unknownEscape ('\\' :: c :: rest))
  | pending, c :: rest =>
    if c.toNat ≤ 0x1f then .error (.misread .controlCharacter (c :: rest))
    else (scanString whole none rest).map (flush pending ∘ push c)

/-! ## Numbers -/

/-- The number that decimal digits write. -/
def ofDigits (digits : List Char) : Nat :=
  digits.foldl (fun n d => n * 10 + (d.toNat - 48)) 0

/-- The digits of the whole part: a single zero, or digits that do not start with one. -/
def scanWhole : List Char → Option (List Char × List Char)
  | '0' :: rest => some (['0'], rest)
  | c :: rest =>
    if c.isDigit then some (c :: rest.takeWhile Char.isDigit, rest.dropWhile Char.isDigit) else none
  | [] => none

/-- The digits after a point, where a point and a digit follow. -/
def scanFraction : List Char → Option (List Char × List Char)
  | '.' :: rest =>
    if (rest.takeWhile Char.isDigit).isEmpty then none
    else some (rest.takeWhile Char.isDigit, rest.dropWhile Char.isDigit)
  | _ => none

/-- A power of ten, where its mark and a digit follow. -/
def scanPower (s : List Char) : Option (Int × List Char) :=
  let digits (negative : Bool) (rest : List Char) :=
    let shown := rest.takeWhile Char.isDigit
    if shown.isEmpty then none
    else
      let n : Int := ofDigits shown
      some (if negative then -n else n, rest.dropWhile Char.isDigit)
  match s with
  | e :: rest =>
    if e = 'e' ∨ e = 'E' then
      match rest with
      | '-' :: rest => digits true rest
      | '+' :: rest => digits false rest
      | rest => digits false rest
    else none
  | [] => none

/-- A number: an integer unless a fraction or a power follows the whole part. -/
def scanNumber (s : List Char) : Except Stop (Value × List Char) :=
  let (negative, body) := match s with
    | '-' :: rest => (true, rest)
    | _ => (false, s)
  match scanWhole body with
  | none => .error (.misread .expectingValue s)
  | some (whole, rest) =>
    let fraction := scanFraction rest
    let (decimals, rest) := fraction.getD ([], rest)
    let power := scanPower rest
    let (exponent, rest) := power.getD (0, rest)
    if fraction.isNone ∧ power.isNone then
      if digitLimit < whole.length then .error (.tooManyDigits whole.length)
      else
        let n : Int := ofDigits whole
        .ok (.int (if negative then -n else n), rest)
    else
      .ok (.real (Binary64.ofDecimal negative (ofDigits (whole ++ decimals))
        (exponent - decimals.length)), rest)

/-! ## Values -/

/-- A constant, where the text starts with one. -/
def scanConstant : List Char → Option (Value × List Char)
  | 'n' :: 'u' :: 'l' :: 'l' :: rest => some (.null, rest)
  | 't' :: 'r' :: 'u' :: 'e' :: rest => some (.bool true, rest)
  | 'f' :: 'a' :: 'l' :: 's' :: 'e' :: rest => some (.bool false, rest)
  | 'N' :: 'a' :: 'N' :: rest => some (.real .nan, rest)
  | 'I' :: 'n' :: 'f' :: 'i' :: 'n' :: 'i' :: 't' :: 'y' :: rest =>
    some (.real (.infinite false), rest)
  | '-' :: 'I' :: 'n' :: 'f' :: 'i' :: 'n' :: 'i' :: 't' :: 'y' :: rest =>
    some (.real (.infinite true), rest)
  | _ => none

mutual

/-- One value at the start of the text; `fuel` bounds the nested steps. -/
def scanValue : Nat → List Char → Except Stop (Value × List Char)
  | 0, s => .error (.misread .expectingValue s)
  | fuel + 1, s =>
    match s with
    | '"' :: rest => do
      let (cs, rest) ← scanString s none rest
      return (.text (String.ofList cs), rest)
    | '{' :: rest =>
      match skipSpace rest with
      | '}' :: rest => .ok (.object [], rest)
      | rest => scanEntries fuel [] rest
    | '[' :: rest =>
      match skipSpace rest with
      | ']' :: rest => .ok (.list [], rest)
      | rest => scanItems fuel [] rest
    | s =>
      match scanConstant s with
      | some found => .ok found
      | none => scanNumber s

/-- The entries of an object from a name on, after those already read. -/
def scanEntries : Nat → Entries → List Char → Except Stop (Value × List Char)
  | 0, _, s => .error (.misread .expectingName s)
  | fuel + 1, entries, s =>
    match s with
    | '"' :: rest => do
      let (name, rest) ← scanString s none rest
      match skipSpace rest with
      | ':' :: rest =>
        let (value, rest) ← scanValue fuel (skipSpace rest)
        let entries := Table.set entries (String.ofList name) value
        match skipSpace rest with
        | '}' :: rest => return (.object entries, rest)
        | ',' :: rest => scanEntries fuel entries (skipSpace rest)
        | rest => .error (.misread .expectingComma rest)
      | rest => .error (.misread .expectingColon rest)
    | s => .error (.misread .expectingName s)

/-- The items of a list from a value on, after those already read, which are held last first. -/
def scanItems : Nat → List Value → List Char → Except Stop (Value × List Char)
  | 0, _, s => .error (.misread .expectingValue s)
  | fuel + 1, items, s => do
    let (value, rest) ← scanValue fuel s
    match skipSpace rest with
    | ']' :: rest => return (.list (value :: items).reverse, rest)
    | ',' :: rest => scanItems fuel (value :: items) (skipSpace rest)
    | rest => .error (.misread .expectingComma rest)

end

/-- The fault of a text whose scanning stopped. -/
def Stop.fault (text : List Char) : Stop → Fault
  | .misread problem left => Fault.at text problem (text.length - left.length)
  | .tooManyDigits count => .tooManyDigits count

/-- The value that a text writes. -/
def read (text : List Char) : Except Fault Value :=
  if text.head? = some '\ufeff' then .error (Fault.at text .byteOrderMark 0)
  else
    match scanValue (2 * text.length + 2) (skipSpace text) with
    | .error stop => .error (stop.fault text)
    | .ok (value, rest) =>
      match skipSpace rest with
      | [] => .ok value
      | rest => .error (Fault.at text .extraData (text.length - rest.length))

end SchemaGen.Json
