import Mathlib.Tactic.SplitIfs
import SchemaGen.Json.Literal
import SchemaGen.Proofs.Spellings

/-!
# Written literals

A literal is a string in the sense of JSON. Each character is written in one
of its spellings: five controls, the quote and the backslash under their
names, printed characters as themselves, and every other character by its
UTF-16 units, of which one beyond the basic plane has two (`spells_units16`).
All of these are printed characters of ASCII (`printed_of_mem_stringLiteral`).

A literal therefore denotes the text that was written and a list of literals
the texts in it, and both are read back.
-/

namespace SchemaGen

/-- Four digits are enough for a UTF-16 unit. -/
theorem Text.Hex.value4?_digits {n : Nat} (h : n < 0x10000) :
    ∃ a b c d, Text.Hex.digits 4 n = [a, b, c, d] ∧ Text.Hex.value4? a b c d = some n := by
  refine ⟨_, _, _, _, rfl, ?_⟩
  have hdigit : ∀ k, value? (digit (k % 16)) = some (k % 16) :=
    fun k => value?_digit _ (Nat.mod_lt _ (by decide))
  have hsum : ((n / 16 / 16 / 16 % 16 * 16 + n / 16 / 16 % 16) * 16 + n / 16 % 16) * 16 + n % 16
      = n := by omega
  simp only [value4?, hdigit, Option.bind_eq_bind, Option.bind_some, Option.pure_def, hsum]

namespace Json

/-! ## Characters -/

theorem escapesUnit_unitEscape {unit : Nat} (h : unit < 0x10000) :
    EscapesUnit (unitEscape unit) unit := by
  obtain ⟨a, b, c, d, hdigits, hvalue⟩ := Text.Hex.value4?_digits h
  exact ⟨a, b, c, d, by rw [unitEscape, hdigits], hvalue⟩

theorem spells_units16 (c : Char) : Spells ((units16 c).flatMap unitEscape) c := by
  unfold units16
  split
  · rename_i hbasic
    rw [List.flatMap_singleton]
    exact .unit (escapesUnit_unitEscape hbasic)
  · rename_i hbeyond
    have hvalid : c.toNat.isValidChar := c.valid
    have hlt : c.toNat < 0x110000 := by
      rcases hvalid with h | ⟨-, h⟩ <;> omega
    have hpair : SurrogatePair (0xd800 + (c.toNat - 0x10000) / 0x400)
        (0xdc00 + (c.toNat - 0x10000) % 0x400) c :=
      ⟨by omega, by omega, by omega⟩
    rw [List.flatMap_cons, List.flatMap_singleton]
    exact .pair (escapesUnit_unitEscape (by omega)) (escapesUnit_unitEscape (by omega)) hpair

/-- The three ways in which a character is written. -/
theorem literalChar_cases (c : Char) :
    (∃ name, literalChar c = ['\\', name] ∧ (name, c) ∈ escapeNames)
      ∨ (literalChar c = [c] ∧ c ≠ '"' ∧ c ≠ '\\' ∧ ' ' ≤ c ∧ c ≤ '~')
      ∨ literalChar c = (units16 c).flatMap unitEscape := by
  unfold literalChar
  split_ifs with hmark hfeed hreturn htab hback hform hprinted
  · rcases hmark with rfl | rfl
    · exact Or.inl ⟨_, rfl, by decide⟩
    · exact Or.inl ⟨_, rfl, by decide⟩
  · exact Or.inl ⟨'n', rfl, by rw [hfeed]; decide⟩
  · exact Or.inl ⟨'r', rfl, by rw [hreturn]; decide⟩
  · exact Or.inl ⟨'t', rfl, by rw [htab]; decide⟩
  · exact Or.inl ⟨'b', rfl, by rw [hback]; decide⟩
  · exact Or.inl ⟨'f', rfl, by rw [hform]; decide⟩
  · exact Or.inr (Or.inl ⟨rfl, (not_or.mp hmark).1, (not_or.mp hmark).2, hprinted⟩)
  · exact Or.inr (Or.inr rfl)

theorem spells_literalChar (c : Char) : Spells (literalChar c) c := by
  rcases literalChar_cases c with ⟨name, hc, hname⟩ | ⟨hc, hquote, hbackslash, hle, -⟩ | hc
  · rw [hc]
    exact .named hname
  · rw [hc]
    exact .plain hquote hbackslash hle
  · rw [hc]
    exact spells_units16 c

theorem printed_of_mem_unitEscape {unit : Nat} {d : Char} (h : d ∈ unitEscape unit) :
    ' ' ≤ d ∧ d ≤ '~' := by
  have hdigit : ∀ n < 16, ' ' ≤ Text.Hex.digit n ∧ Text.Hex.digit n ≤ '~' := by decide
  have hdigits : ∀ width n, ∀ d ∈ Text.Hex.digits width n, ' ' ≤ d ∧ d ≤ '~' := by
    intro width
    induction width with
    | zero => simp [Text.Hex.digits]
    | succ width ih =>
        intro n d hd
        rcases List.mem_append.mp hd with hd | hd
        · exact ih _ d hd
        · rw [List.mem_singleton.mp hd]
          exact hdigit _ (Nat.mod_lt _ (by decide))
  rcases List.mem_cons.mp h with rfl | h
  · decide
  rcases List.mem_cons.mp h with rfl | h
  · decide
  · exact hdigits 4 unit d h

theorem printed_of_mem_literalChar {c d : Char} (h : d ∈ literalChar c) : ' ' ≤ d ∧ d ≤ '~' := by
  rcases literalChar_cases c with ⟨name, hc, hname⟩ | ⟨hc, -, -, hprinted⟩ | hc
  · rw [hc] at h
    rcases List.mem_cons.mp h with rfl | h
    · decide
    · rw [List.mem_singleton.mp h]
      have hnames : ∀ entry ∈ escapeNames, ' ' ≤ entry.1 ∧ entry.1 ≤ '~' := by decide
      exact hnames _ hname
  · rw [hc, List.mem_singleton] at h
    exact h ▸ hprinted
  · rw [hc] at h
    obtain ⟨unit, -, hd⟩ := List.mem_flatMap.mp h
    exact printed_of_mem_unitEscape hd

/-! ## Texts -/

/-- A literal is written in printed characters alone. -/
theorem printed_of_mem_stringLiteral {s : String} {d : Char} (h : d ∈ (stringLiteral s).toList) :
    ' ' ≤ d ∧ d ≤ '~' := by
  rw [stringLiteral, String.toList_ofList, literalChars, List.mem_append, List.mem_cons,
    List.mem_flatMap, List.mem_singleton] at h
  rcases h with (rfl | ⟨c, -, hd⟩) | rfl
  · decide
  · exact printed_of_mem_literalChar hd
  · decide

theorem spellsAll_flatMap (s : List Char) : SpellsAll (s.flatMap literalChar) s := by
  induction s with
  | nil => exact .nil
  | cons c s ih =>
      rw [List.flatMap_cons]
      exact .cons (spells_literalChar c) ih

theorem denotesText_literalChars (s : String) : DenotesText (literalChars s.toList) s :=
  ⟨_, spellsAll_flatMap s.toList, rfl⟩

theorem denotesText_stringLiteral (s : String) : DenotesText (stringLiteral s).toList s := by
  rw [stringLiteral, String.toList_ofList]
  exact denotesText_literalChars s

/-- A text survives being written as a literal and read. -/
theorem read_stringLiteral (s : String) : read (stringLiteral s).toList = .ok (.text s) :=
  read_of_denotesText (denotesText_stringLiteral s)

/-! ## Lists of texts -/

/-- The items of a list after the first. -/
def moreItems (items : List String) : List Char :=
  items.flatMap fun s => ',' :: ' ' :: literalChars s.toList

theorem toList_stringListLiteral (first : String) (items : List String) :
    (stringListLiteral (first :: items)).toList
      = '[' :: (literalChars first.toList ++ (moreItems items ++ [']'])) := by
  have hitems : (", ".intercalate ((first :: items).map stringLiteral)).toList
      = literalChars first.toList ++ moreItems items := by
    induction items generalizing first with
    | nil => simp [stringLiteral, moreItems]
    | cons second items ih =>
        rw [List.map_cons, List.map_cons, String.intercalate_cons_cons, ← List.map_cons,
          String.toList_append, String.toList_append, ih, stringLiteral, String.toList_ofList]
        simp [moreItems]
  rw [stringListLiteral, String.toList_append, String.toList_append, hitems]
  simp

theorem blank_nil : Blank [] := fun _ hc => absurd hc List.not_mem_nil

theorem denotesMore_moreItems (items : List String) :
    DenotesMore (moreItems items ++ [']']) items := by
  induction items with
  | nil => exact .close blank_nil
  | cons s items ih =>
      have hcons : moreItems (s :: items) ++ [']']
          = [] ++ ',' :: ([' '] ++ (literalChars s.toList ++ (moreItems items ++ [']']))) := by
        simp [moreItems]
      rw [hcons]
      exact .item blank_nil (by simp [Blank]) (denotesText_literalChars s) ih

theorem denotesTexts_stringListLiteral (items : List String) :
    DenotesTexts (stringListLiteral items).toList items := by
  cases items with
  | nil => exact .empty blank_nil
  | cons first items =>
      rw [toList_stringListLiteral]
      exact @DenotesTexts.items [] _ _ _ _ blank_nil (denotesText_literalChars first)
        (denotesMore_moreItems items)

/-- A list of texts survives being written as a list of literals and read. -/
theorem read_stringListLiteral (items : List String) :
    read (stringListLiteral items).toList = .ok (.list (items.map .text)) :=
  read_of_denotesTexts (denotesTexts_stringListLiteral items)

end Json

end SchemaGen
