import SchemaGen.Json.Literal
import SchemaGen.Proofs.Reading
import SchemaGen.Text.Block

/-!
# Texts with balanced braces and backticks

A module is checked by counting: opening against closing braces, and backticks
for an even number. Counting does not see the order of characters, so balance
is kept by joining balanced texts, and by setting a balanced text between two
that only balance together (`Balanced.around`).

An unmarked text has none of the counted characters. Names as GraphQL has them
are unmarked, and so are the literals and property names made from them.
-/

namespace SchemaGen

namespace Text

/-- The characters that the check of a module counts. -/
def marks : List Char := ['\x7b', '\x7d', Char.ofNat 0x60]

/-- A text without any of the counted characters. -/
def Unmarked (s : String) : Prop := ∀ c ∈ marks, c ∉ s.toList

/-- As many opening braces as closing ones, and an even number of backticks. -/
structure Balanced (s : String) : Prop where
  braces : s.toList.count '\x7b' = s.toList.count '\x7d'
  ticks : s.toList.count (Char.ofNat 0x60) % 2 = 0

instance (s : String) : Decidable (Unmarked s) :=
  List.decidableBAll (fun c => c ∉ s.toList) marks

instance (s : String) : Decidable (Balanced s) :=
  decidable_of_iff (s.toList.count '\x7b' = s.toList.count '\x7d'
    ∧ s.toList.count (Char.ofNat 0x60) % 2 = 0) ⟨fun h => ⟨h.1, h.2⟩, fun h => ⟨h.1, h.2⟩⟩

/-! ## Joining -/

theorem Unmarked.balanced {s : String} (h : Unmarked s) : Balanced s := by
  have hcount : ∀ c ∈ marks, s.toList.count c = 0 := fun c hc => List.count_eq_zero.mpr (h c hc)
  refine ⟨?_, ?_⟩
  · rw [hcount '\x7b' (by decide), hcount '\x7d' (by decide)]
  · rw [hcount (Char.ofNat 0x60) (by decide)]

theorem Unmarked.append {s t : String} (hs : Unmarked s) (ht : Unmarked t) : Unmarked (s ++ t) := by
  intro c hc hmem
  rw [String.toList_append, List.mem_append] at hmem
  exact hmem.elim (hs c hc) (ht c hc)

namespace Balanced

variable {a b c : String}

theorem append (ha : Balanced a) (hb : Balanced b) : Balanced (a ++ b) := by
  have hbraces := ha.braces
  have hticks := ha.ticks
  have hbraces' := hb.braces
  have hticks' := hb.ticks
  refine ⟨?_, ?_⟩ <;> simp only [String.toList_append, List.count_append] <;> omega

/-- A balanced text between two texts that balance together. -/
theorem around (h : Balanced (a ++ c)) (hb : Balanced b) : Balanced (a ++ b ++ c) := by
  have hbraces := h.braces
  have hticks := h.ticks
  have hbraces' := hb.braces
  have hticks' := hb.ticks
  simp only [String.toList_append, List.count_append] at hbraces hticks
  refine ⟨?_, ?_⟩ <;> simp only [String.toList_append, List.count_append] <;> omega

/-- Two texts that balance together, behind a balanced one. -/
theorem behind (ha : Balanced a) (h : Balanced (b ++ c)) : Balanced (a ++ b ++ c) := by
  rw [String.append_assoc]
  exact ha.append h

theorem join {texts : List String} (h : ∀ s ∈ texts, Balanced s) :
    Balanced (String.join texts) := by
  induction texts with
  | nil => decide
  | cons s texts ih =>
      obtain ⟨hs, htexts⟩ := List.forall_mem_cons.mp h
      rw [String.join_cons]
      exact hs.append (ih htexts)

theorem intercalate {sep : String} (hsep : Balanced sep) {texts : List String}
    (h : ∀ s ∈ texts, Balanced s) : Balanced (sep.intercalate texts) := by
  induction texts with
  | nil =>
      rw [String.intercalate_nil]
      decide
  | cons s texts ih =>
      obtain ⟨hs, htexts⟩ := List.forall_mem_cons.mp h
      cases texts with
      | nil =>
          rw [String.intercalate_singleton]
          exact hs
      | cons t texts =>
          rw [String.intercalate_cons_cons]
          exact (hs.append hsep).append (ih htexts)

theorem block {head last : String} {body : List String} (h : Balanced (head ++ last))
    (hbody : ∀ line ∈ body, Balanced line) : Balanced (Text.block head body last) := by
  have hlines : ∀ line ∈ body.map bodyLine, Balanced line := by
    intro line hline
    obtain ⟨inner, hinner, rfl⟩ := List.mem_map.mp hline
    have hindent : Balanced "  " := by decide
    exact (hindent.append (hbody inner hinner)).append (by decide)
  have hfeed : Balanced (head ++ "\n" ++ last) := h.around (by decide)
  exact hfeed.around (join hlines)

end Balanced

/-! ## Names and literals -/

theorem not_mem_marks_of_isNameChar {c : Char} (h : isNameChar c = true ∨ c = '\n') :
    c ∉ marks := by
  intro hmark
  simp only [marks, List.mem_cons, List.not_mem_nil, or_false] at hmark
  rcases h with h | rfl
  · rcases hmark with rfl | rfl | rfl <;> exact absurd h (by decide)
  · exact absurd hmark (by decide)

theorem unmarked_of_isGraphQLName {s : String} (h : isGraphQLName s = true) : Unmarked s :=
  fun _ hc hmem => not_mem_marks_of_isNameChar (mem_of_isGraphQLName h hmem) hc

theorem printed_of_isNameChar {c : Char} (h : isNameChar c = true) : ' ' ≤ c ∧ c ≤ '~' := by
  delta isNameChar Char.isAlphanum Char.isAlpha Char.isUpper Char.isLower Char.isDigit at h
  simp only [Bool.or_eq_true, Bool.and_eq_true, decide_eq_true_eq, beq_iff_eq,
    UInt32.le_iff_toNat_le] at h
  rcases h with h | rfl
  · simp only [Char.le_def, UInt32.le_iff_toNat_le, Char.reduceVal, UInt32.reduceToNat] at h ⊢
    omega
  · decide

end Text

/-- In a literal, a name character stands for itself and a line feed is escaped. -/
theorem Json.literalChar_unmarked {c : Char} (h : Text.isNameChar c = true ∨ c = '\n') :
    ∀ d ∈ Json.literalChar c, d ∉ Text.marks := by
  rcases h with h | rfl
  · have hself : Json.literalChar c = [c] := by
      unfold Json.literalChar
      split
      · rename_i hc
        rcases hc with rfl | rfl <;> exact absurd h (by decide)
      iterate 5
        split
        · rename_i hc
          rw [hc] at h
          exact absurd h (by decide)
      rw [if_pos (Text.printed_of_isNameChar h)]
    intro d hd
    rw [hself, List.mem_singleton] at hd
    exact hd ▸ Text.not_mem_marks_of_isNameChar (Or.inl h)
  · have hfeed : Json.literalChar '\n' = ['\\', 'n'] := rfl
    rw [hfeed]
    exact List.forall_mem_cons.mpr ⟨by decide, List.forall_mem_singleton.mpr (by decide)⟩

theorem Json.stringLiteral_unmarked {s : String} (h : Text.isGraphQLName s = true) :
    Text.Unmarked (Json.stringLiteral s) := by
  intro c hc hmem
  simp only [Json.stringLiteral, Json.literalChars, String.toList_ofList, List.cons_append,
    List.mem_cons, List.mem_append, List.mem_flatMap, List.not_mem_nil, or_false] at hmem
  rcases hmem with rfl | ⟨d, hd, hlit⟩ | rfl
  · exact absurd hc (by decide)
  · exact Json.literalChar_unmarked (Text.mem_of_isGraphQLName h hd) c hlit hc
  · exact absurd hc (by decide)

theorem Json.propertyName_unmarked {s : String} (h : Text.isGraphQLName s = true) :
    Text.Unmarked (Json.propertyName s) := by
  rw [Json.propertyName, if_pos (Text.isIdentifier_of_isGraphQLName h)]
  exact Text.unmarked_of_isGraphQLName h

end SchemaGen
