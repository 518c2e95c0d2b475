import SchemaGen.Number.Binary64
import SchemaGen.Table

/-!
# JSON values

The values of a JSON text. Integers are unbounded, an object keeps its entries in the order in
which they were first written, and the numbers beyond the standard (infinities and the undefined
one) are allowed. Two notions of likeness stand beside structural equality: `truthy`, on which all
yes-or-no settings rest, and `equal`, which compares numbers and truth values by amount and
objects without regard to order.
-/

namespace SchemaGen.Json

open SchemaGen.Number (Binary64)

/-- A JSON value. -/
inductive Value where
  | null
  | bool (b : Bool)
  | int (n : Int)
  | real (x : Binary64)
  | text (s : String)
  | list (items : List Value)
  | object (entries : List (String × Value))
  deriving Inhabited

/-- The entries of an object, in order. -/
abbrev Entries := Table Value

/-! ## Decidable equality -/

mutual

/-- Decides equality of values. -/
def Value.decEq : (x y : Value) → Decidable (x = y)
  | .null, .null => isTrue rfl
  | .bool a, .bool b => if h : a = b then isTrue (h ▸ rfl) else isFalse (by simpa using h)
  | .int a, .int b => if h : a = b then isTrue (h ▸ rfl) else isFalse (by simpa using h)
  | .real a, .real b => if h : a = b then isTrue (h ▸ rfl) else isFalse (by simpa using h)
  | .text a, .text b => if h : a = b then isTrue (h ▸ rfl) else isFalse (by simpa using h)
  | .list a, .list b =>
    match decEqItems a b with
    | isTrue h => isTrue (h ▸ rfl)
    | isFalse h => isFalse (by simpa using h)
  | .object a, .object b =>
    match decEqEntries a b with
    | isTrue h => isTrue (h ▸ rfl)
    | isFalse h => isFalse (by simpa using h)
  | .null, .bool _ | .null, .int _ | .null, .real _ | .null, .text _ | .null, .list _
  | .null, .object _ | .bool _, .null | .bool _, .int _ | .bool _, .real _ | .bool _, .text _
  | .bool _, .list _ | .bool _, .object _ | .int _, .null | .int _, .bool _ | .int _, .real _
  | .int _, .text _ | .int _, .list _ | .int _, .object _ | .real _, .null | .real _, .bool _
  | .real _, .int _ | .real _, .text _ | .real _, .list _ | .real _, .object _ | .text _, .null
  | .text _, .bool _ | .text _, .int _ | .text _, .real _ | .text _, .list _ | .text _, .object _
  | .list _, .null | .list _, .bool _ | .list _, .int _ | .list _, .real _ | .list _, .text _
  | .list _, .object _ | .object _, .null | .object _, .bool _ | .object _, .int _
  | .object _, .real _ | .object _, .text _ | .object _, .list _ => isFalse (by simp)

/-- Decides equality of lists of values. -/
def decEqItems : (x y : List Value) → Decidable (x = y)
  | [], [] => isTrue rfl
  | [], _ :: _ | _ :: _, [] => isFalse (by simp)
  | a :: x, b :: y =>
    match a.decEq b, decEqItems x y with
    | isTrue h, isTrue h' => isTrue (h ▸ h' ▸ rfl)
    | isFalse h, _ => isFalse (by simp [h])
    | _, isFalse h => isFalse (by simp [h])

/-- Decides equality of entries. -/
def decEqEntries : (x y : List (String × Value)) → Decidable (x = y)
  | [], [] => isTrue rfl
  | [], _ :: _ | _ :: _, [] => isFalse (by simp)
  | (j, a) :: x, (k, b) :: y =>
    if hk : j = k then
      match a.decEq b, decEqEntries x y with
      | isTrue h, isTrue h' => isTrue (hk ▸ h ▸ h' ▸ rfl)
      | isFalse h, _ => isFalse (by simp [h])
      | _, isFalse h => isFalse (by simp [h])
    else isFalse (by simp [hk])

end

instance : DecidableEq Value := Value.decEq

namespace Value

/-! ## Looking at a value -/

/-- Whether a value counts as yes: null, false, zero and the empty text, list and object do not. -/
def truthy : Value → Bool
  | .null => false
  | .bool b => b
  | .int n => n != 0
  | .real x => !x.isZero
  | .text s => !s.isEmpty
  | .list items => !items.isEmpty
  | .object entries => !entries.isEmpty

/-- The sort of a value, named as messages name it. -/
def kindName : Value → String
  | .null => "NoneType"
  | .bool _ => "bool"
  | .int _ => "int"
  | .real _ => "float"
  | .text _ => "str"
  | .list _ => "list"
  | .object _ => "dict"

/-- The parts of a value that has parts: the items of a list, the characters of a text, the keys
of an object. -/
def parts? : Value → Option (List Value)
  | .list items => some items
  | .text s => some (s.toList.map fun c => .text (String.singleton c))
  | .object entries => some (entries.map fun e => .text e.1)
  | _ => none

/-- The text of a value that is a text. -/
def text? : Value → Option String
  | .text s => some s
  | _ => none

/-- The entries of a value that is an object. -/
def entries? : Value → Option Entries
  | .object entries => some entries
  | _ => none

/-- The integer that a truth value or an integer amounts to. -/
def amount? : Value → Option Int
  | .bool b => some (if b then 1 else 0)
  | .int n => some n
  | _ => none

/-- Whether two numbers or truth values are equal in amount. -/
def sameAmount : Value → Value → Bool
  | .real x, .real y => x.sameValue y
  | .real x, y => y.amount?.any x.isInt
  | x, .real y => x.amount?.any y.isInt
  | x, y => x.amount?.isSome && x.amount? == y.amount?

end Value

/-! ## Equality by amount -/

mutual

/-- Whether two values are alike when numbers and truth values are compared by amount and
objects without regard to the order of their keys. -/
def Value.equal : Value → Value → Bool
  | .null, .null => true
  | .text s, .text t => s == t
  | .list x, .list y => equalItems x y
  | .object x, .object y => x.length == y.length && equalEntries x y
  | x, y => x.sameAmount y

/-- Whether two lists are alike item by item. -/
def equalItems : List Value → List Value → Bool
  | [], [] => true
  | x :: xs, y :: ys => x.equal y && equalItems xs ys
  | _, _ => false

/-- Whether every entry has a like value under the same key on the other side. -/
def equalEntries : Entries → Entries → Bool
  | [], _ => true
  | (k, x) :: rest, other =>
    (Table.get? other k).any (fun y => x.equal y) && equalEntries rest other

end

end SchemaGen.Json
