import SchemaGen.Proofs.Translation

/-!
# Field types as the targets spell them

A field type that was read is a word, or an array of a word, with or without
the mark of a required field. Each target has its own signs for the array
and for the mark, and puts them around the word (`typeText_shape`). No word
contains one of the signs, so they can be read off the text again: the
brackets in all three targets (`typeText_brackets`), the mark in GraphQL
alone (`typeText_signs`), where it is part of the type.

A word consists of the characters of identifiers. The tables of primitives
hold words only, with one exception, the empty object that stands for `any`
in a schema definition.
-/

namespace SchemaGen

open SchemaGen.Model

/-! ## Words -/

namespace Text

/-- A character that may stand in an identifier. -/
def isWordChar (c : Char) : Bool := isNameChar c || c == '$'

/-- A text of such characters. -/
def Word (s : String) : Prop := ∀ c ∈ s.toList, isWordChar c = true

instance (s : String) : Decidable (Word s) :=
  decidable_of_iff (s.toList.all isWordChar = true) List.all_eq_true

/-- An identifier to the last character: no line feed is allowed at its end. -/
def PlainIdentifier (s : String) : Prop := isIdentifier s = true ∧ '\n' ∉ s.toList

instance (s : String) : Decidable (PlainIdentifier s) :=
  inferInstanceAs (Decidable (isIdentifier s = true ∧ '\n' ∉ s.toList))

theorem Word.append {s t : String} (hs : Word s) (ht : Word t) : Word (s ++ t) := by
  intro c hc
  rw [String.toList_append, List.mem_append] at hc
  exact hc.elim (hs c) (ht c)

theorem Word.not_mem {s : String} (h : Word s) {c : Char} (hc : isWordChar c = false) :
    c ∉ s.toList := by
  intro hmem
  rw [h c hmem] at hc
  cases hc

theorem Word.feed_not_mem {s : String} (h : Word s) : '\n' ∉ s.toList := h.not_mem (by decide)

theorem Word.blank_not_mem {s : String} (h : Word s) : ' ' ∉ s.toList := h.not_mem (by decide)

theorem Word.not_suffix {s : String} (h : Word s) {back : List Char} {c : Char} (hback : c ∈ back)
    (hc : isWordChar c = false) : ¬back <:+ s.toList :=
  fun hends => h.not_mem hc (hends.subset hback)

theorem PlainIdentifier.word {s : String} (h : PlainIdentifier s) : Word s := by
  obtain ⟨hident, hfeed⟩ := h
  intro c hc
  rcases mem_dropFinalNewline hc with hmem | rfl
  · rcases mem_of_isWord hident hmem with hfirst | hlater
    · exact Bool.or_eq_true_iff.mpr
        ((Bool.or_eq_true_iff.mp hfirst).imp_left isNameChar_of_isNameStart)
    · exact hlater
  · exact absurd hc hfeed

/-- The text ends in the mark of a required field. -/
def Marked (s : String) : Prop := ['!'] <:+ s.toList

instance (s : String) : Decidable (Marked s) :=
  inferInstanceAs (Decidable (['!'] <:+ s.toList))

/-- The text without its mark. -/
def unmarked (s : String) : List Char := if Marked s then s.toList.dropLast else s.toList

/-- The text stands in brackets. -/
def Bracketed (s : List Char) : Prop := ['['] <+: s ∧ [']'] <:+ s

instance (s : List Char) : Decidable (Bracketed s) :=
  inferInstanceAs (Decidable (['['] <+: s ∧ [']'] <:+ s))

theorem bracketed_around (s : List Char) : Bracketed ('[' :: (s ++ [']'])) :=
  ⟨⟨s ++ [']'], rfl⟩, ⟨'[' :: s, rfl⟩⟩

end Text

open SchemaGen.Text (Word)

variable {type : FieldType} {settings : Settings}

theorem Model.FieldType.Shape.unmarked (h : type.Shape) :
    type.unwrap = type ∧ type.isRequired = false := by
  cases h with
  | token htoken => cases htoken <;> exact ⟨rfl, rfl⟩
  | array _ => exact ⟨rfl, rfl⟩

theorem Model.FieldType.Spelled.unwrap_shape (h : type.Spelled) : type.unwrap.Shape := by
  cases h with
  | optional hshape => rwa [hshape.unmarked.1]
  | required hshape => rwa [FieldType.unwrap, hshape.unmarked.1]

/-! ## Tokens -/

theorem Model.FieldType.Token.isArray (h : type.Token) : type.isArray = false := by
  cases h <;> rfl

theorem TypeScript.typeText_token (h : type.Token) (hrefs : ∀ ref ∈ type.references, Word ref) :
    ∃ w, TypeScript.typeText type = .ok w ∧ Word w := by
  obtain ⟨w, hw⟩ := TypeScript.typeText_ok h.written
  refine ⟨w, hw, ?_⟩
  cases h with
  | primitive hname => exact primitiveIn_mem (by decide) hw
  | reference name =>
      obtain rfl := Except.ok.inj hw
      exact hrefs name (List.mem_singleton_self _)

theorem Mongoose.typeText_token (hsuffix : Word settings.ormSuffix.display) (h : type.Token)
    (hrefs : ∀ ref ∈ type.references, Word ref) :
    ∃ w, Mongoose.typeText settings type = .ok w ∧ (Word w ∨ w = "\x7b\x7d") := by
  obtain ⟨w, hw⟩ := Mongoose.typeText_ok settings h.written
  refine ⟨w, hw, ?_⟩
  cases h with
  | primitive hname =>
      exact primitiveIn_mem (P := fun s => Word s ∨ s = "\x7b\x7d") (by decide) hw
  | reference name =>
      obtain rfl := Except.ok.inj hw
      exact Or.inl ((hrefs name (List.mem_singleton_self _)).append hsuffix)

theorem GraphQL.typeValue_token (hany : Word settings.graphqlAnyScalar.display) (h : type.Token)
    (hrefs : ∀ ref ∈ type.references, Word ref) :
    ∃ v, GraphQL.typeValue settings type = .ok v ∧ Word v.display := by
  obtain ⟨v, hv⟩ := GraphQL.typeValue_ok settings h.written
  refine ⟨v, hv, ?_⟩
  cases h with
  | primitive hname =>
      rcases GraphQL.typeValue_primitive hv with ⟨-, rfl⟩ | ⟨text, htext, rfl⟩
      · exact hany
      · have htable : ∀ e ∈ GraphQL.primitives, Word e.2 := by decide
        exact htable _ htext
  | reference name =>
      obtain rfl := Except.ok.inj hv
      exact hrefs name (List.mem_singleton_self _)

/-! ## Shapes -/

theorem TypeScript.typeText_shape (h : type.Shape) (hrefs : ∀ ref ∈ type.references, Word ref) :
    ∃ w, Word w ∧ TypeScript.typeText type = .ok (if type.isArray then w ++ "[]" else w) := by
  cases h with
  | token htoken =>
      obtain ⟨w, hw, hword⟩ := TypeScript.typeText_token htoken hrefs
      exact ⟨w, hword, by rw [hw, htoken.isArray]; rfl⟩
  | array hitem =>
      obtain ⟨w, hw, hword⟩ := TypeScript.typeText_token hitem hrefs
      exact ⟨w, hword, by rw [TypeScript.typeText, hw]; rfl⟩

theorem Mongoose.typeText_shape (hsuffix : Word settings.ormSuffix.display) (h : type.Shape)
    (hrefs : ∀ ref ∈ type.references, Word ref) :
    ∃ w, (Word w ∨ w = "\x7b\x7d") ∧ Mongoose.typeText settings type
      = .ok (if type.isArray then "[" ++ w ++ "]" else w) := by
  cases h with
  | token htoken =>
      obtain ⟨w, hw, hword⟩ := Mongoose.typeText_token hsuffix htoken hrefs
      exact ⟨w, hword, by rw [hw, htoken.isArray]; rfl⟩
  | array hitem =>
      obtain ⟨w, hw, hword⟩ := Mongoose.typeText_token hsuffix hitem hrefs
      exact ⟨w, hword, by rw [Mongoose.typeText, hw]; rfl⟩

theorem GraphQL.typeText_shape (hany : Word settings.graphqlAnyScalar.display) (h : type.Shape)
    (hrefs : ∀ ref ∈ type.references, Word ref) :
    ∃ w, Word w ∧ GraphQL.typeText settings type
      = .ok (if type.isArray then "[" ++ w ++ "!]" else w) := by
  cases h with
  | token htoken =>
      obtain ⟨v, hv, hword⟩ := GraphQL.typeValue_token hany htoken hrefs
      exact ⟨v.display, hword, by rw [GraphQL.typeText, hv, htoken.isArray]; rfl⟩
  | array hitem =>
      obtain ⟨v, hv, hword⟩ := GraphQL.typeValue_token hany hitem hrefs
      exact ⟨v.display, hword, by rw [GraphQL.typeText, GraphQL.typeValue, hv]; rfl⟩

/-! ## Whole field types -/

/-- An interface marks a required field at its name and not at its type. -/
theorem TypeScript.typeText_unwrap (type : FieldType) :
    TypeScript.typeText type.unwrap = TypeScript.typeText type := by
  induction type with
  | required inner ih => exact ih
  | shapeless => rfl
  | primitive name => rfl
  | reference name => rfl
  | array item _ => rfl

theorem GraphQL.typeText_required (type : FieldType) :
    GraphQL.typeText settings (.required type)
      = (GraphQL.typeText settings type).map fun text => text ++ "!" := by
  rw [GraphQL.typeText, GraphQL.typeText, GraphQL.typeValue]
  cases GraphQL.typeValue settings type <;> rfl

/-- A GraphQL type marks a required field behind everything else. -/
theorem GraphQL.typeText_spelled (hany : Word settings.graphqlAnyScalar.display)
    (h : type.Spelled) (hrefs : ∀ ref ∈ type.references, Word ref) :
    ∃ w, Word w ∧ GraphQL.typeText settings type
      = .ok ((if type.unwrap.isArray then "[" ++ w ++ "!]" else w)
        ++ if type.isRequired then "!" else "") := by
  cases h with
  | optional hshape =>
      obtain ⟨w, hword, hw⟩ := GraphQL.typeText_shape hany hshape hrefs
      refine ⟨w, hword, ?_⟩
      rw [hw, hshape.unmarked.1, hshape.unmarked.2, if_neg Bool.false_ne_true, String.append_empty]
  | required hshape =>
      obtain ⟨w, hword, hw⟩ := GraphQL.typeText_shape hany hshape hrefs
      refine ⟨w, hword, ?_⟩
      rw [GraphQL.typeText_required, hw, FieldType.unwrap, hshape.unmarked.1]
      rfl

/-! ## Reading the signs -/

theorem TypeScript.typeText_brackets (h : type.Spelled)
    (hrefs : ∀ ref ∈ type.unwrap.references, Word ref) {text : String}
    (htext : TypeScript.typeText type = .ok text) :
    ['[', ']'] <:+ text.toList ↔ type.unwrap.isArray = true := by
  obtain ⟨w, hword, hw⟩ := TypeScript.typeText_shape h.unwrap_shape hrefs
  obtain rfl := Except.ok.inj (htext.symm.trans ((TypeScript.typeText_unwrap type).symm.trans hw))
  have hplain : ¬['[', ']'] <:+ w.toList :=
    hword.not_suffix (List.mem_cons_self ..) (by decide)
  cases type.unwrap.isArray <;> simp [hplain]

theorem Mongoose.typeText_brackets (hsuffix : Word settings.ormSuffix.display)
    (h : type.Spelled) (hrefs : ∀ ref ∈ type.unwrap.references, Word ref) {text : String}
    (htext : Mongoose.typeText settings type.unwrap = .ok text) :
    Text.Bracketed text.toList ↔ type.unwrap.isArray = true := by
  obtain ⟨w, hword, hw⟩ := Mongoose.typeText_shape hsuffix h.unwrap_shape hrefs
  obtain rfl := Except.ok.inj (htext.symm.trans hw)
  have hplain : ¬Text.Bracketed w.toList := by
    rcases hword with hword | rfl
    · exact fun hbrackets => hword.not_suffix (List.mem_singleton_self _) (by decide) hbrackets.2
    · decide
  cases type.unwrap.isArray with
  | true => simpa using Text.bracketed_around w.toList
  | false => simpa using hplain

theorem GraphQL.typeText_brackets (hany : Word settings.graphqlAnyScalar.display)
    (h : type.Shape) (hrefs : ∀ ref ∈ type.references, Word ref) {text : String}
    (htext : GraphQL.typeText settings type = .ok text) :
    ¬Text.Marked text ∧ (Text.Bracketed text.toList ↔ type.isArray = true) := by
  obtain ⟨w, hword, hw⟩ := GraphQL.typeText_shape hany h hrefs
  obtain rfl := Except.ok.inj (htext.symm.trans hw)
  have hplain : ∀ c, Text.isWordChar c = false → ¬[c] <:+ w.toList := fun c hc =>
    hword.not_suffix (List.mem_singleton_self _) hc
  cases type.isArray with
  | true =>
      refine ⟨?_, by simpa using Text.bracketed_around (w.toList ++ ['!'])⟩
      rintro ⟨front, hfront⟩
      have hends : front ++ ['!'] = ('[' :: (w.toList ++ ['!'])) ++ [']'] := by simpa using hfront
      exact absurd (List.append_inj_right' hends rfl) (by decide)
  | false =>
      refine ⟨hplain '!' (by decide), ?_⟩
      simp [Text.Bracketed, hplain ']' (by decide)]

/-- A GraphQL type carries the mark of a required field last, behind what stands in brackets. -/
theorem GraphQL.typeText_signs (hany : Word settings.graphqlAnyScalar.display)
    (h : type.Spelled) (hrefs : ∀ ref ∈ type.references, Word ref) {text : String}
    (htext : GraphQL.typeText settings type = .ok text) :
    (Text.Marked text ↔ type.isRequired = true)
      ∧ (Text.Bracketed (Text.unmarked text) ↔ type.unwrap.isArray = true) := by
  cases h with
  | optional hshape =>
      obtain ⟨hmark, hbrackets⟩ := GraphQL.typeText_brackets hany hshape hrefs htext
      rw [hshape.unmarked.1, hshape.unmarked.2, Text.unmarked, if_neg hmark]
      exact ⟨by simpa using hmark, hbrackets⟩
  | required hshape =>
      rw [GraphQL.typeText_required] at htext
      obtain ⟨body, hbody, rfl⟩ := map_eq_ok htext
      obtain ⟨-, hbrackets⟩ := GraphQL.typeText_brackets hany hshape hrefs hbody
      have hmark : Text.Marked (body ++ "!") := ⟨body.toList, by simp⟩
      rw [FieldType.unwrap, hshape.unmarked.1, Text.unmarked, if_pos hmark, ← hbrackets]
      refine ⟨iff_of_true hmark rfl, ?_⟩
      rw [String.toList_append, show "!".toList = ['!'] from rfl, List.dropLast_concat]

end SchemaGen
