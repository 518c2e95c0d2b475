import SchemaGen.Json.Reader

/-!
# Strings as JSON spells them

What a JSON string denotes, without a reader and without a writer. A string
denotes a text if its characters are spelled one after another between two
quotes, and a character has up to four kinds of spelling (`Spells`): itself, a
name behind a backslash, the code of its UTF-16 unit, or the codes of the two
units of its surrogate pair. A list denotes texts if its items are such
strings, with blank space anywhere between the signs.

The reader knows every spelling (`read_of_denotesText`, and
`read_of_denotesTexts` for lists). It gives one answer, so what is read denotes
one text at most (`DenotesText.unique`).

The units are where the reader has a memory. The first half of a pair is held
until the second has been read (`scanString_high`, `scanString_low`), and no
character of the basic plane can be taken for such a half (`not_surrogate`).
The other spellings leave nothing behind, so `scanString_spells` is stated with
any characters that follow, and the rest is an induction on the text.
-/

namespace SchemaGen.Json

variable {whole rest : List Char}

/-! ## The rules -/

/-- The characters that have a name, each behind its name. -/
def escapeNames : List (Char × Char) :=
  [('"', '"'), ('\\', '\\'), ('/', '/'), ('b', '\x08'), ('f', '\x0c'), ('n', '\n'), ('r', '\r'),
    ('t', '\t')]

/-- The escape of a UTF-16 unit, with four digits of either case. -/
def EscapesUnit (escape : List Char) (unit : Nat) : Prop :=
  ∃ a b c d, escape = ['\\', 'u', a, b, c, d] ∧ Text.Hex.value4? a b c d = some unit

/-- The two UTF-16 units of a character beyond the basic plane. -/
structure SurrogatePair (high low : Nat) (c : Char) : Prop where
  high_range : 0xd800 ≤ high ∧ high ≤ 0xdbff
  low_range : 0xdc00 ≤ low ∧ low ≤ 0xdfff
  code : c.toNat = 0x10000 + (high - 0xd800) * 0x400 + (low - 0xdc00)

/-- The spellings of a character inside a string. -/
inductive Spells : List Char → Char → Prop
  | plain {c : Char} : c ≠ '"' → c ≠ '\\' → ' ' ≤ c → Spells [c] c
  | named {name c : Char} : (name, c) ∈ escapeNames → Spells ['\\', name] c
  | unit {escape : List Char} {c : Char} : EscapesUnit escape c.toNat → Spells escape c
  | pair {first second : List Char} {high low : Nat} {c : Char} : EscapesUnit first high →
      EscapesUnit second low → SurrogatePair high low c → Spells (first ++ second) c

/-- The spellings of characters one after another. -/
inductive SpellsAll : List Char → List Char → Prop
  | nil : SpellsAll [] []
  | cons {spelling body s : List Char} {c : Char} : Spells spelling c → SpellsAll body s →
      SpellsAll (spelling ++ body) (c :: s)

/-- The string `text` denotes `s`. -/
def DenotesText (text : List Char) (s : String) : Prop :=
  ∃ body, SpellsAll body s.toList ∧ text = '"' :: (body ++ ['"'])

/-- Blank space of any length. -/
def Blank (s : List Char) : Prop := ∀ c ∈ s, c ∈ [' ', '\t', '\n', '\r']

/-- What follows an item up to the end of its list, and the texts of the items in it. -/
inductive DenotesMore : List Char → List String → Prop
  | close {blank : List Char} : Blank blank → DenotesMore (blank ++ [']']) []
  | item {before after text more : List Char} {s : String} {items : List String} :
      Blank before → Blank after → DenotesText text s → DenotesMore more items →
      DenotesMore (before ++ ',' :: (after ++ (text ++ more))) (s :: items)

/-- The list `text` denotes the texts `items`. -/
inductive DenotesTexts : List Char → List String → Prop
  | empty {blank : List Char} : Blank blank → DenotesTexts ('[' :: (blank ++ [']'])) []
  | items {blank text more : List Char} {first : String} {items : List String} : Blank blank →
      DenotesText text first → DenotesMore more items →
      DenotesTexts ('[' :: (blank ++ (text ++ more))) (first :: items)

/-! ## Lengths -/

theorem Spells.ne_nil {spelling : List Char} {c : Char} (h : Spells spelling c) :
    spelling ≠ [] := by
  cases h with
  | plain | named => exact List.cons_ne_nil _ _
  | unit hunit =>
      obtain ⟨_, _, _, _, rfl, -⟩ := hunit
      exact List.cons_ne_nil _ _
  | pair hfirst =>
      obtain ⟨_, _, _, _, rfl, -⟩ := hfirst
      exact List.cons_ne_nil _ _

theorem SpellsAll.length_le {body s : List Char} (h : SpellsAll body s) :
    s.length ≤ body.length := by
  induction h with
  | nil => exact Nat.le_refl _
  | cons hspells _ ih =>
      have hpos := List.length_pos_iff.mpr hspells.ne_nil
      rw [List.length_append, List.length_cons]
      omega

/-- No string denotes itself: its quotes make it longer than its text. -/
theorem DenotesText.ne {text : List Char} {s : String} (h : DenotesText text s) :
    text ≠ s.toList := by
  obtain ⟨body, hbody, rfl⟩ := h
  intro heq
  have hle := hbody.length_le
  rw [← heq, List.length_cons, List.length_append] at hle
  omega

theorem DenotesMore.length_lt {more : List Char} {items : List String}
    (h : DenotesMore more items) : items.length < more.length := by
  induction h with
  | close => simp
  | item _ _ _ _ ih =>
      simp only [List.length_append, List.length_cons]
      omega

/-! ## Escaped units -/

/-- What the reader does with a unit, by what it holds back and by what the unit is. -/
theorem scanString_escapesUnit (pending : Option Nat) {escape : List Char} {unit : Nat}
    (h : EscapesUnit escape unit) (hrest : rest ≠ []) :
    scanString whole pending (escape ++ rest) =
      match pending, isLowSurrogate unit with
      | some high, true => (scanString whole none rest).map (push (joinSurrogates high unit))
      | pending, _ =>
        if isHighSurrogate unit then (scanString whole (some unit) rest).map (flush pending)
        else (scanString whole none rest).map (flush pending ∘ push (characterOf unit)) := by
  obtain ⟨a, b, c, d, rfl, hvalue⟩ := h
  have hempty : rest.isEmpty = false := by simpa using hrest
  simp only [List.cons_append, List.nil_append]
  rw [scanString]
  cases pending <;> cases hlow : isLowSurrogate unit <;> simp only [hvalue, hempty, hlow]

/-- The first half of a pair is held back. -/
theorem scanString_high {escape : List Char} {high : Nat} (h : EscapesUnit escape high)
    (hhigh : isHighSurrogate high = true) (hrest : rest ≠ []) :
    scanString whole none (escape ++ rest) = scanString whole (some high) rest := by
  rw [scanString_escapesUnit none h hrest]
  simp only [hhigh, if_true]
  cases scanString whole (some high) rest <;> rfl

/-- The second half completes the character. -/
theorem scanString_low {escape : List Char} {high low : Nat} (h : EscapesUnit escape low)
    (hlow : isLowSurrogate low = true) (hrest : rest ≠ []) :
    scanString whole (some high) (escape ++ rest)
      = (scanString whole none rest).map (push (joinSurrogates high low)) := by
  rw [scanString_escapesUnit (some high) h hrest]
  simp only [hlow]

theorem not_surrogate (c : Char) :
    isHighSurrogate c.toNat = false ∧ isLowSurrogate c.toNat = false := by
  have hvalid : c.toNat.isValidChar := c.valid
  simp only [isHighSurrogate, isLowSurrogate, Bool.and_eq_false_iff, decide_eq_false_iff_not]
  rcases hvalid with h | ⟨h, _⟩ <;> omega

/-- The unit of a character of the basic plane is read as that character. -/
theorem scanString_unit {escape : List Char} {c : Char} (h : EscapesUnit escape c.toNat)
    (hrest : rest ≠ []) :
    scanString whole none (escape ++ rest) = (scanString whole none rest).map (push c) := by
  obtain ⟨hhigh, hlow⟩ := not_surrogate c
  rw [scanString_escapesUnit none h hrest]
  simp only [hhigh, hlow, Bool.false_eq_true, if_false, characterOf, Bool.or_self,
    Char.ofNat_toNat]
  rfl

theorem SurrogatePair.isHighSurrogate {high low : Nat} {c : Char} (h : SurrogatePair high low c) :
    isHighSurrogate high = true := by
  simpa only [Json.isHighSurrogate, Bool.and_eq_true, decide_eq_true_eq] using h.high_range

theorem SurrogatePair.isLowSurrogate {high low : Nat} {c : Char} (h : SurrogatePair high low c) :
    isLowSurrogate low = true := by
  simpa only [Json.isLowSurrogate, Bool.and_eq_true, decide_eq_true_eq] using h.low_range

theorem SurrogatePair.joinSurrogates {high low : Nat} {c : Char} (h : SurrogatePair high low c) :
    joinSurrogates high low = c := by
  rw [Json.joinSurrogates, ← h.code, Char.ofNat_toNat]

/-! ## Strings -/

theorem scanString_plain {c : Char} (hquote : c ≠ '"') (hbackslash : c ≠ '\\') (hc : ' ' ≤ c) :
    scanString whole none (c :: rest) = (scanString whole none rest).map (push c) := by
  have hcode : ¬c.toNat ≤ 0x1f := by
    have hle : ' '.toNat ≤ c.toNat := hc
    simp at hle
    omega
  rw [scanString]
  · rw [if_neg hcode]
    rfl
  all_goals simp [hquote, hbackslash]

theorem scanString_named {name c : Char} (h : (name, c) ∈ escapeNames) :
    scanString whole none ('\\' :: name :: rest)
      = (scanString whole none rest).map (push c) := by
  have hnames : ∀ entry ∈ escapeNames, entry.1 ≠ 'u' ∧ namedEscape? entry.1 = some entry.2 := by
    decide
  obtain ⟨hu, hnamed⟩ := hnames _ h
  rw [scanString]
  · simp only [hnamed]
    rfl
  all_goals simp [hu]

/-- A character is read from any of its spellings. -/
theorem scanString_spells {spelling : List Char} {c : Char} (h : Spells spelling c)
    (hrest : rest ≠ []) :
    scanString whole none (spelling ++ rest) = (scanString whole none rest).map (push c) := by
  cases h with
  | plain hquote hbackslash hc => exact scanString_plain hquote hbackslash hc
  | named hname => exact scanString_named hname
  | unit hunit => exact scanString_unit hunit hrest
  | @pair first second _ _ _ hfirst hsecond hpair =>
      have hnext : second ++ rest ≠ [] := List.append_ne_nil_of_right_ne_nil _ hrest
      rw [List.append_assoc, scanString_high hfirst hpair.isHighSurrogate hnext,
        scanString_low hsecond hpair.isLowSurrogate hrest, hpair.joinSurrogates]

theorem scanString_spellsAll {body s : List Char} (h : SpellsAll body s) :
    scanString whole none (body ++ '"' :: rest) = .ok (s, rest) := by
  induction h with
  | nil =>
      rw [List.nil_append, scanString]
      rfl
  | cons hspells _ ih =>
      rw [List.append_assoc, scanString_spells hspells (by simp), ih]
      rfl

/-- A string is read as the text that it denotes, whatever follows it. -/
theorem scanValue_of_denotesText (fuel : Nat) {text : List Char} {s : String}
    (h : DenotesText text s) : scanValue (fuel + 1) (text ++ rest) = .ok (.text s, rest) := by
  obtain ⟨body, hbody, rfl⟩ := h
  have htext : '"' :: (body ++ ['"']) ++ rest = '"' :: (body ++ '"' :: rest) := by simp
  rw [htext, scanValue, scanString_spellsAll hbody]
  show Except.ok (Value.text (String.ofList s.toList), rest) = _
  rw [String.ofList_toList]

/-! ## Lists -/

theorem skipSpace_append {blank : List Char} (hblank : Blank blank) {c : Char}
    (hc : isSpace c = false) : skipSpace (blank ++ c :: rest) = c :: rest := by
  have hspace : ∀ d ∈ blank, isSpace d = true := fun d hd => by
    simpa [isSpace, or_assoc] using hblank d hd
  rw [skipSpace, List.dropWhile_append_of_pos hspace, List.dropWhile_cons_of_neg (by simp [hc])]

/-- A string begins with a quote, before which blank space ends. -/
theorem skipSpace_append_text {blank text : List Char} {s : String} (hblank : Blank blank)
    (htext : DenotesText text s) : skipSpace (blank ++ (text ++ rest)) = text ++ rest := by
  obtain ⟨body, -, rfl⟩ := htext
  exact skipSpace_append hblank (by decide)

-- Induction on the items that follow, with one step of fuel for each of them.
theorem scanItems_of_denotesMore {more : List Char} {items : List String}
    (hmore : DenotesMore more items) (done : List Value) {text : List Char} {first : String}
    (htext : DenotesText text first) {fuel : Nat} (hfuel : items.length < fuel) :
    scanItems (fuel + 1) done (text ++ (more ++ rest))
      = .ok (.list (done.reverse ++ (first :: items).map .text), rest) := by
  induction hmore generalizing fuel done text first with
  | close hblank =>
      obtain ⟨fuel, rfl⟩ := Nat.exists_eq_add_of_lt hfuel
      rw [scanItems, scanValue_of_denotesText _ htext]
      simp only [bind, Except.bind]
      rw [List.append_assoc, List.singleton_append, skipSpace_append hblank (by decide)]
      show Except.ok (Value.list (Value.text first :: done).reverse, rest) = _
      rw [List.reverse_cons]
      rfl
  | @item before after second more s items hbefore hafter hsecond _ ih =>
      obtain ⟨fuel, rfl⟩ : ∃ less, fuel = less + 1 :=
        Nat.exists_eq_succ_of_ne_zero (Nat.ne_zero_of_lt hfuel)
      have hnext := ih (.text first :: done) hsecond (Nat.lt_of_succ_lt_succ hfuel)
      rw [scanItems, scanValue_of_denotesText _ htext]
      simp only [bind, Except.bind]
      rw [List.append_assoc, List.cons_append, skipSpace_append hbefore (by decide)]
      simp only [List.append_assoc, skipSpace_append_text hafter hsecond, hnext]
      rw [List.reverse_cons, List.append_assoc]
      rfl

/-! ## Whole texts -/

theorem read_of_scanValue {text : List Char} {value : Value} (hstart : text.head? ≠ some '\ufeff')
    (hspace : skipSpace text = text)
    (h : scanValue (2 * text.length + 2) text = .ok (value, [])) : read text = .ok value := by
  rw [read, if_neg hstart, hspace, h]
  rfl

theorem read_of_denotesText {text : List Char} {s : String} (h : DenotesText text s) :
    read text = .ok (.text s) := by
  have hscan := @scanValue_of_denotesText [] (2 * text.length + 1) text s h
  rw [List.append_nil] at hscan
  obtain ⟨body, -, rfl⟩ := h
  exact read_of_scanValue (by simp) rfl hscan

theorem read_of_denotesTexts {text : List Char} {items : List String}
    (h : DenotesTexts text items) : read text = .ok (.list (items.map .text)) := by
  cases h with
  | empty hblank =>
      refine read_of_scanValue (by simp) rfl ?_
      rw [scanValue, skipSpace_append hblank (by decide)]
      rfl
  | @items blank text more first items hblank htext hmore =>
      refine read_of_scanValue (by simp) rfl ?_
      -- every item brings in more characters than it needs steps
      have hfuel : items.length < 2 * ('[' :: (blank ++ (text ++ more))).length := by
        have hlt := hmore.length_lt
        simp only [List.length_cons, List.length_append]
        omega
      have hitems := @scanItems_of_denotesMore [] _ _ hmore [] _ _ htext _ hfuel
      rw [List.append_nil] at hitems
      rw [scanValue, skipSpace_append_text hblank htext]
      obtain ⟨body, -, rfl⟩ := htext
      exact hitems

theorem DenotesText.unique {text : List Char} {s t : String} (hs : DenotesText text s)
    (ht : DenotesText text t) : s = t := by
  have hread := (read_of_denotesText hs).symm.trans (read_of_denotesText ht)
  exact Value.text.inj (Except.ok.inj hread)

theorem DenotesText.iff_eq {text : List Char} {s t : String} (hs : DenotesText text s) :
    DenotesText text t ↔ t = s := by
  refine ⟨fun ht => ht.unique hs, ?_⟩
  rintro rfl
  exact hs

theorem DenotesTexts.unique {text : List Char} {items others : List String}
    (hitems : DenotesTexts text items) (hothers : DenotesTexts text others) : items = others := by
  have hread := (read_of_denotesTexts hitems).symm.trans (read_of_denotesTexts hothers)
  exact (List.map_inj_right fun _ _ => Value.text.inj).mp (Value.list.inj (Except.ok.inj hread))

theorem DenotesTexts.iff_eq {text : List Char} {items others : List String}
    (hitems : DenotesTexts text items) : DenotesTexts text others ↔ others = items := by
  refine ⟨fun hothers => hothers.unique hitems, ?_⟩
  rintro rfl
  exact hitems

end SchemaGen.Json
