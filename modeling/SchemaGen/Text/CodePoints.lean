import SchemaGen.Text.Utf8

/-!
# Texts that may have no UTF-8

The codes from U+D800 to U+DFFF are halves of pairs in another encoding and not characters. A text
that was read from escapes can hold one of them alone. It can be looked at like any other text, but
there are no octets for it: encoding stops at the first half, and the fault names this half, its
position, and how many halves stand there side by side.

`encode_eq_ok_iff` says that exactly the texts of characters have octets.
-/

namespace SchemaGen.Text

/-- A character, or half of a surrogate pair. -/
inductive CodePoint where
  | char (c : Char)
  | half (offset : Fin 0x800)
  deriving DecidableEq

namespace CodePoint

/-- Whether a code point is half of a pair. -/
def isHalf : CodePoint → Bool
  | .char _ => false
  | .half _ => true

/-- The character that is shown for a code point. -/
def shown : CodePoint → Char
  | .char c => c
  | .half _ => Char.ofNat 0xfffd

end CodePoint

/-- A text of code points. -/
structure RawText where
  points : List CodePoint
  deriving DecidableEq

/-- The halves from `position`, `length` many and the first of them `code`, have no octets. -/
structure EncodingFault where
  code : Nat
  position : Nat
  length : Nat
  deriving DecidableEq, Repr

/-- A single half is shown by its code, several by their places. -/
def EncodingFault.message (f : EncodingFault) : String :=
  let place :=
    if f.length ≤ 1 then
      "character '\\u" ++ String.ofList (Hex.digits 4 f.code) ++ "' in position " ++
        Number.decimal f.position
    else
      "characters in position " ++ Number.decimal f.position ++ "-" ++
        Number.decimal (f.position + f.length - 1 : Nat)
  "'utf-8' codec can't encode " ++ place ++ ": surrogates not allowed"

namespace RawText

/-- A text of characters. -/
def ofString (s : String) : RawText := ⟨s.toList.map .char⟩

instance : Coe String RawText := ⟨ofString⟩

/-- The text with a replacement character for every half. -/
def shown (t : RawText) : String := String.ofList (t.points.map CodePoint.shown)

/-- The first halves among code points, of which the first one is at `position`. -/
def firstHalves : Nat → List CodePoint → Option EncodingFault
  | _, [] => none
  | position, .char _ :: rest => firstHalves (position + 1) rest
  | position, .half offset :: rest =>
    some ⟨0xd800 + offset, position, (rest.takeWhile CodePoint.isHalf).length + 1⟩

/-- The octets of a text. -/
def encode (t : RawText) : Except EncodingFault (List UInt8) :=
  match firstHalves 0 t.points with
  | none => .ok (Utf8.encode t.shown)
  | some fault => .error fault

@[simp] theorem shown_ofString (s : String) : (ofString s).shown = s := by
  simp [shown, ofString, Function.comp_def, CodePoint.shown]

theorem firstHalves_eq_none_iff {position : Nat} {points : List CodePoint} :
    firstHalves position points = none ↔ ∃ s : String, points = s.toList.map .char := by
  induction points generalizing position with
  | nil => simp only [firstHalves, true_iff]; exact ⟨"", rfl⟩
  | cons point points ih =>
    cases point with
    | char c =>
      rw [firstHalves, ih]
      constructor
      · rintro ⟨s, rfl⟩
        exact ⟨String.ofList (c :: s.toList), by simp⟩
      · rintro ⟨s, hs⟩
        cases hlist : s.toList with
        | nil => simp [hlist] at hs
        | cons first rest =>
          rw [hlist, List.map_cons] at hs
          exact ⟨String.ofList rest, by simp [(List.cons.inj hs).2]⟩
    | half offset =>
      simp only [firstHalves, reduceCtorEq, false_iff]
      rintro ⟨s, hs⟩
      cases hlist : s.toList <;> simp [hlist] at hs

@[simp] theorem encode_ofString (s : String) : (ofString s).encode = .ok (Utf8.encode s) := by
  have hnone : firstHalves 0 (ofString s).points = none := firstHalves_eq_none_iff.mpr ⟨s, rfl⟩
  rw [encode, hnone, shown_ofString]

/-- The texts that have octets are the texts of characters. -/
theorem encode_eq_ok_iff {t : RawText} {octets : List UInt8} :
    t.encode = .ok octets ↔ ∃ s, t = ofString s ∧ octets = Utf8.encode s := by
  constructor
  · intro h
    unfold encode at h
    split at h
    · rename_i hnone
      obtain ⟨s, hs⟩ := firstHalves_eq_none_iff.mp hnone
      obtain rfl : t = ofString s := by
        cases t
        exact congrArg RawText.mk hs
      rw [shown_ofString] at h
      exact ⟨s, rfl, (Except.ok.inj h).symm⟩
    · cases h
  · rintro ⟨s, rfl, rfl⟩
    exact encode_ofString s

end RawText

end SchemaGen.Text
