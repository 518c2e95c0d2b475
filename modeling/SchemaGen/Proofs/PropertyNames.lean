import SchemaGen.Proofs.FieldTypes
import SchemaGen.Proofs.Literals

/-!
# Names in the place of properties

A property name is written bare where it is an identifier and as a literal
elsewhere. The identifiers are the bare words, and like the names of fields
they may have a line feed behind them (`isIdentifier_iff`).

Two names are never written alike. Bare names are written as they are, and a
literal denotes one text only (`stringLiteral_injective`). A bare name does not
look like a literal either, since a bare word has no quotes
(`not_isIdentifier_stringLiteral`).
-/

namespace SchemaGen

namespace Text

variable {s : String}

/-! ## Bare words -/

/-- One or more ASCII letters, digits, underscores and dollar signs, with no digit first. -/
structure BareWord (s : String) : Prop where
  ne_empty : s ≠ ""
  word : Word s
  start : ∀ c, s.toList.head? = some c → c.isDigit = false

/-- A bare word, with or without a line feed behind it. -/
def BareName (s : String) : Prop := ∃ word, BareWord word ∧ (s = word ∨ s = word ++ "\n")

/-- A character with which an identifier may start. -/
def isBareStart (c : Char) : Bool := isNameStart c || c == '$'

theorem isDigit_of_isAlpha {c : Char} (h : c.isAlpha = true) : c.isDigit = false := by
  have hletter : 65 ≤ c.toNat := by
    rcases (Bool.or_eq_true _ _).mp h with hupper | hlower
    · exact (of_decide_eq_true hupper).1
    · have hle : 97 ≤ c.toNat := of_decide_eq_true ((Bool.and_eq_true _ _).mp hlower).1
      omega
  rw [Bool.eq_false_iff]
  intro hdigit
  have hle : c.toNat ≤ 57 := (Char.isDigit_iff_toNat.mp hdigit).2
  omega

theorem isBareStart_iff {c : Char} :
    isBareStart c = true ↔ isWordChar c = true ∧ c.isDigit = false := by
  constructor
  · intro h
    simp only [isBareStart, isNameStart, Bool.or_eq_true, beq_iff_eq] at h
    rcases h with (halpha | rfl) | rfl
    · refine ⟨?_, isDigit_of_isAlpha halpha⟩
      simp [isWordChar, isNameChar, Char.isAlphanum, halpha]
    · decide
    · decide
  · rintro ⟨hword, hdigit⟩
    simpa [isBareStart, isNameStart, isWordChar, isNameChar, Char.isAlphanum, hdigit] using hword

theorem bareWord_iff : BareWord s ↔ isWord isBareStart isWordChar s.toList = true := by
  constructor
  · rintro ⟨hne, hword, hstart⟩
    obtain ⟨c, rest, hs⟩ : ∃ c rest, s.toList = c :: rest :=
      List.exists_cons_of_ne_nil fun hnil => hne (String.toList_eq_nil_iff.mp hnil)
    refine isWord_iff.mpr ⟨c, rest, hs, isBareStart_iff.mpr ⟨?_, ?_⟩, fun d hd => ?_⟩
    · exact hword c (hs ▸ List.mem_cons_self ..)
    · exact hstart c (by rw [hs, List.head?_cons])
    · exact hword d (hs ▸ List.mem_cons_of_mem _ hd)
  · intro h
    obtain ⟨c, rest, hs, hc, -⟩ := isWord_iff.mp h
    refine ⟨?_, fun d hd => ?_, fun d hd => ?_⟩
    · rintro rfl
      cases hs
    · rcases mem_of_isWord h hd with hfirst | hlater
      · exact (isBareStart_iff.mp hfirst).1
      · exact hlater
    · rw [hs, List.head?_cons] at hd
      exact Option.some.inj hd ▸ (isBareStart_iff.mp hc).2

theorem isIdentifier_iff : isIdentifier s = true ↔ BareName s := by
  have hident : isIdentifier s = isWord isBareStart isWordChar (dropFinalNewline s.toList) := rfl
  have hfeed : "\n".toList = ['\n'] := rfl
  rw [hident, isWord_dropFinalNewline_iff (by decide) (by decide)]
  constructor
  · rintro ⟨word, hword, hs⟩
    refine ⟨String.ofList word, bareWord_iff.mpr (by rwa [String.toList_ofList]), ?_⟩
    simpa only [← String.toList_inj, String.toList_append, String.toList_ofList, hfeed] using hs
  · rintro ⟨word, hword, hs⟩
    refine ⟨word.toList, bareWord_iff.mp hword, ?_⟩
    simpa only [← String.toList_inj, String.toList_append, hfeed] using hs

theorem BareName.quote_not_mem (h : BareName s) : '"' ∉ s.toList := by
  obtain ⟨word, hword, hs⟩ := h
  have hfree : '"' ∉ word.toList := hword.word.not_mem (by decide)
  rcases hs with rfl | rfl
  · exact hfree
  · rw [String.toList_append, List.mem_append]
    exact not_or.mpr ⟨hfree, by decide⟩

end Text

namespace Json

open SchemaGen.Text (BareName isIdentifier isIdentifier_iff)

variable {name : String}

/-! ## Bare and quoted names -/

theorem stringLiteral_injective : Function.Injective stringLiteral := fun s t h =>
  (denotesText_stringLiteral s).unique (h ▸ denotesText_stringLiteral t)

theorem stringLiteral_ne_self (s : String) : stringLiteral s ≠ s := fun h =>
  (denotesText_stringLiteral s).ne (congrArg String.toList h)

theorem not_isIdentifier_stringLiteral (s : String) : ¬isIdentifier (stringLiteral s) = true := by
  intro hident
  have hquote : '"' ∈ (stringLiteral s).toList := by simp [stringLiteral, literalChars]
  exact (isIdentifier_iff.mp hident).quote_not_mem hquote

theorem propertyName_eq_self_iff : propertyName name = name ↔ BareName name := by
  rw [← isIdentifier_iff, propertyName]
  split_ifs with hident
  · exact iff_of_true rfl hident
  · exact iff_of_false (stringLiteral_ne_self name) hident

theorem propertyName_eq_literal_iff :
    propertyName name = stringLiteral name ↔ ¬BareName name := by
  rw [← isIdentifier_iff, propertyName]
  split_ifs with hident
  · exact iff_of_false (stringLiteral_ne_self name).symm (not_not_intro hident)
  · exact iff_of_true rfl hident

theorem propertyName_injective : Function.Injective propertyName := by
  intro name other h
  unfold propertyName at h
  split_ifs at h with hname hother hother
  · exact h
  · exact absurd (h ▸ hname) (not_isIdentifier_stringLiteral other)
  · exact absurd (h ▸ hother) (not_isIdentifier_stringLiteral name)
  · exact stringLiteral_injective h

/-- A literal is written in printed ASCII characters and denotes the text that was written and no
other. A list of literals denotes the list of its texts. Both are read back. A property name is
either bare or a literal, by its form, and no two names are written alike. -/
theorem literals_decode :
    (∀ s : String, (∀ c ∈ (stringLiteral s).toList, ' ' ≤ c ∧ c ≤ '~')
        ∧ (∀ t, DenotesText (stringLiteral s).toList t ↔ t = s)
        ∧ read (stringLiteral s).toList = .ok (.text s))
      ∧ (∀ items : List String,
        (∀ others, DenotesTexts (stringListLiteral items).toList others ↔ others = items)
          ∧ read (stringListLiteral items).toList = .ok (.list (items.map .text)))
      ∧ (∀ name : String, (propertyName name = name ↔ BareName name)
        ∧ (propertyName name = stringLiteral name ↔ ¬BareName name))
      ∧ Function.Injective propertyName := by
  refine ⟨fun s => ⟨fun _ => printed_of_mem_stringLiteral, fun _ => ?_, read_stringLiteral s⟩,
    fun items => ⟨fun _ => ?_, read_stringListLiteral items⟩,
    fun _ => ⟨propertyName_eq_self_iff, propertyName_eq_literal_iff⟩, propertyName_injective⟩
  · exact (denotesText_stringLiteral s).iff_eq
  · exact (denotesTexts_stringListLiteral items).iff_eq

example : stringLiteral "é\x7f😀" = "\"\\u00e9\\u007f\\ud83d\\ude00\"" := by decide

end Json

end SchemaGen
