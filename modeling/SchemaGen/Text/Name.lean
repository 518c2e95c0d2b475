/-!
# Names

Two forms of name over ASCII: the GraphQL name (letters, digits and underscores, no digit first)
and the identifier, which may also hold dollar signs. Both are judged on the text less one final
line feed, so a name followed by a single line feed still counts.
-/

namespace SchemaGen.Text

/-- The characters less one line feed at the very end. -/
def dropFinalNewline : List Char → List Char
  | [] => []
  | [c] => if c = '\n' then [] else [c]
  | c :: d :: rest => c :: dropFinalNewline (d :: rest)

/-- One character of the first class, then any number of the second. -/
def isWord (first later : Char → Bool) : List Char → Bool
  | [] => false
  | c :: rest => first c && rest.all later

/-- An ASCII letter or an underscore. -/
def isNameStart (c : Char) : Bool := c.isAlpha || c == '_'

/-- An ASCII letter, a digit or an underscore. -/
def isNameChar (c : Char) : Bool := c.isAlphanum || c == '_'

/-- Whether a text is accepted as the name of a field or of an enum value. -/
def isGraphQLName (s : String) : Bool :=
  isWord isNameStart isNameChar (dropFinalNewline s.toList)

/-- Whether a text can stand as a property name without quotes. -/
def isIdentifier (s : String) : Bool :=
  isWord (fun c => isNameStart c || c == '$') (fun c => isNameChar c || c == '$')
    (dropFinalNewline s.toList)

@[simp] theorem dropFinalNewline_concat (l : List Char) : dropFinalNewline (l ++ ['\n']) = l := by
  induction l with
  | nil => rfl
  | cons c l ih =>
    cases l with
    | nil => rfl
    | cons d l => simpa [dropFinalNewline] using ih

theorem dropFinalNewline_eq_self {l : List Char} (h : l.getLast? ≠ some '\n') :
    dropFinalNewline l = l := by
  induction l with
  | nil => rfl
  | cons c l ih =>
    cases l with
    | nil => simpa [dropFinalNewline] using h
    | cons d l => simpa [dropFinalNewline] using ih (by simpa using h)

theorem dropFinalNewline_cases (l : List Char) :
    l = dropFinalNewline l ∨ l = dropFinalNewline l ++ ['\n'] := by
  by_cases hlast : l.getLast? = some '\n'
  · obtain ⟨front, rfl⟩ := List.getLast?_eq_some_iff.mp hlast
    rw [dropFinalNewline_concat]
    exact Or.inr rfl
  · exact Or.inl (dropFinalNewline_eq_self hlast).symm

theorem isWord_iff {first later : Char → Bool} {s : List Char} :
    isWord first later s = true
      ↔ ∃ c rest, s = c :: rest ∧ first c = true ∧ ∀ d ∈ rest, later d = true := by
  cases s with
  | nil => simp [isWord]
  | cons c rest =>
    constructor
    · intro h
      obtain ⟨hc, hrest⟩ := (Bool.and_eq_true _ _).mp h
      exact ⟨c, rest, rfl, hc, List.all_eq_true.mp hrest⟩
    · rintro ⟨_, _, hs, hc, hrest⟩
      obtain ⟨rfl, rfl⟩ := List.cons.inj hs
      exact (Bool.and_eq_true _ _).mpr ⟨hc, List.all_eq_true.mpr hrest⟩

theorem mem_of_isWord {first later : Char → Bool} {s : List Char} (h : isWord first later s = true)
    {c : Char} (hc : c ∈ s) : first c = true ∨ later c = true := by
  obtain ⟨d, rest, rfl, hd, hrest⟩ := isWord_iff.mp h
  rcases List.mem_cons.mp hc with rfl | hc
  · exact Or.inl hd
  · exact Or.inr (hrest c hc)

/-- Where no line feed may stand in a word, it is accepted with or without one behind it. -/
theorem isWord_dropFinalNewline_iff {first later : Char → Bool} (hfirst : first '\n' = false)
    (hlater : later '\n' = false) {s : List Char} :
    isWord first later (dropFinalNewline s) = true
      ↔ ∃ word, isWord first later word = true ∧ (s = word ∨ s = word ++ ['\n']) := by
  refine ⟨fun h => ⟨_, h, dropFinalNewline_cases s⟩, ?_⟩
  rintro ⟨word, hword, rfl | rfl⟩
  · have hlast : s.getLast? ≠ some '\n' := by
      intro hlast
      obtain ⟨c, rest, rfl, hc, hrest⟩ := isWord_iff.mp hword
      rcases List.mem_cons.mp (List.mem_of_getLast? hlast) with rfl | hmem
      · exact absurd hc (by simp [hfirst])
      · exact absurd (hrest _ hmem) (by simp [hlater])
    rw [dropFinalNewline_eq_self hlast]
    exact hword
  · rw [dropFinalNewline_concat]
    exact hword

theorem isNameChar_of_isNameStart {c : Char} (h : isNameStart c = true) : isNameChar c = true := by
  simp only [isNameStart, Bool.or_eq_true] at h
  simp only [isNameChar, Char.isAlphanum, Bool.or_eq_true]
  exact h.imp_left Or.inl

end SchemaGen.Text
