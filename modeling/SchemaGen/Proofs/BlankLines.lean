import SchemaGen.Proofs.Literals
import SchemaGen.Text.Blank
import SchemaGen.Text.Block

/-!
# Texts of several lines

The parts of a module are joined by blank lines, and they can be told apart
again because none of them has a blank line inside. `Paragraph` is what a part
has to be for that: one or more lines, none of them empty. It is stronger than
the absence of blank lines. A paragraph does not begin or end with a line
feed, so a line feed put next to it never makes a blank line that is not
between two parts.

Paragraphs are put together line by line (`Paragraph.above`), and blocks with
an indented body are paragraphs whatever stands in their lines. Splitting at
blank lines takes paragraphs that were joined by them apart again
(`blocks_intercalate`).
-/

namespace SchemaGen.Text

/-! ## Single lines -/

def OneLine (s : String) : Prop := '\n' ∉ s.toList

instance (s : String) : Decidable (OneLine s) := inferInstanceAs (Decidable ('\n' ∉ s.toList))

theorem OneLine.append {s t : String} (hs : OneLine s) (ht : OneLine t) : OneLine (s ++ t) := by
  unfold OneLine
  rw [String.toList_append, List.mem_append]
  exact not_or.mpr ⟨hs, ht⟩

theorem OneLine.intercalate {sep : String} (hsep : OneLine sep) {texts : List String}
    (h : ∀ s ∈ texts, OneLine s) : OneLine (sep.intercalate texts) := by
  induction texts with
  | nil =>
      rw [String.intercalate_nil]
      decide
  | cons s texts ih =>
      obtain ⟨hs, htexts⟩ := List.forall_mem_cons.mp h
      cases texts with
      | nil =>
          rw [String.intercalate_singleton]
          exact hs
      | cons t texts =>
          rw [String.intercalate_cons_cons]
          exact (hs.append hsep).append (ih htexts)

theorem oneLine_stringLiteral (s : String) : OneLine (Json.stringLiteral s) := fun hmem =>
  absurd (Json.printed_of_mem_stringLiteral hmem).1 (by decide)

theorem oneLine_stringListLiteral (items : List String) :
    OneLine (Json.stringListLiteral items) := by
  refine (OneLine.append (by decide) (.intercalate (by decide) ?_)).append (by decide)
  intro literal hliteral
  obtain ⟨s, -, rfl⟩ := List.mem_map.mp hliteral
  exact oneLine_stringLiteral s

theorem oneLine_propertyName {s : String} (h : OneLine s) : OneLine (Json.propertyName s) := by
  unfold Json.propertyName
  split
  · exact h
  · exact oneLine_stringLiteral s

/-! ## Paragraphs -/

/-- One or more lines, none of them empty. -/
inductive Paragraph : String → Prop
  | line {s : String} : s ≠ "" → OneLine s → Paragraph s
  | cons {s rest : String} : s ≠ "" → OneLine s → Paragraph rest → Paragraph (s ++ "\n" ++ rest)

namespace Paragraph

variable {s t : String}

theorem above (hs : Paragraph s) (ht : Paragraph t) : Paragraph (s ++ "\n" ++ t) := by
  induction hs with
  | line hne hline => exact .cons hne hline ht
  | cons hne hline _ ih =>
      have hsplit := Paragraph.cons hne hline ih
      simpa only [String.append_assoc] using hsplit

theorem ofLines {lines : List String} (hne : lines ≠ [])
    (h : ∀ s ∈ lines, s ≠ "" ∧ OneLine s) : Paragraph ("\n".intercalate lines) := by
  induction lines with
  | nil => exact absurd rfl hne
  | cons s lines ih =>
      obtain ⟨⟨hempty, hline⟩, hlines⟩ := List.forall_mem_cons.mp h
      cases lines with
      | nil =>
          rw [String.intercalate_singleton]
          exact .line hempty hline
      | cons t lines =>
          rw [String.intercalate_cons_cons]
          exact .cons hempty hline (ih (by simp) hlines)

theorem block {head last : String} {body : List String} (hhead : head ≠ "" ∧ OneLine head)
    (hbody : ∀ line ∈ body, OneLine line) (hlast : last ≠ "" ∧ OneLine last) :
    Paragraph (Text.block head body last) := by
  rw [Text.block, String.append_assoc]
  refine .cons hhead.1 hhead.2 ?_
  induction body with
  | nil => simpa using Paragraph.line hlast.1 hlast.2
  | cons line body ih =>
      obtain ⟨hline, hbody⟩ := List.forall_mem_cons.mp hbody
      rw [List.map_cons, String.join_cons, bodyLine, String.append_assoc]
      refine .cons (by simp) (OneLine.append (by decide) hline) (ih hbody)

theorem exists_cons (h : Paragraph s) : ∃ c rest, s.toList = c :: rest ∧ c ≠ '\n' := by
  have hfirst : ∀ s : String, s ≠ "" → OneLine s → ∃ c rest, s.toList = c :: rest ∧ c ≠ '\n' := by
    intro s hne hline
    cases hs : s.toList with
    | nil => exact absurd (String.toList_eq_nil_iff.mp hs) hne
    | cons c rest =>
        refine ⟨c, rest, rfl, ?_⟩
        rintro rfl
        exact hline (hs ▸ List.mem_cons_self ..)
  cases h with
  | line hne hline => exact hfirst _ hne hline
  | cons hne hline _ =>
      obtain ⟨c, rest, hs, hc⟩ := hfirst _ hne hline
      exact ⟨c, _, by rw [String.toList_append, String.toList_append, hs]; rfl, hc⟩

theorem exists_concat (h : Paragraph s) : ∃ front c, s.toList = front ++ [c] ∧ c ≠ '\n' := by
  induction h with
  | line hne hline =>
      rename_i s
      rcases List.eq_nil_or_concat s.toList with hs | ⟨front, c, hs⟩
      · exact absurd (String.toList_eq_nil_iff.mp hs) hne
      · refine ⟨front, c, by simpa using hs, ?_⟩
        rintro rfl
        exact hline (by simp [hs])
  | cons _ _ _ ih =>
      obtain ⟨front, c, hs, hc⟩ := ih
      exact ⟨_, c, by rw [String.toList_append, hs, ← List.append_assoc], hc⟩

/-- A line feed behind a paragraph is all that is trimmed. -/
theorem trimFinalNewlines (h : Paragraph s) : Text.trimFinalNewlines (s ++ "\n") = s := by
  obtain ⟨front, c, hs, hc⟩ := h.exists_concat
  have hfeed : (c == '\n') = false := beq_eq_false_iff_ne.mpr hc
  rw [← String.toList_inj, Text.trimFinalNewlines, String.toList_ofList, String.toList_append, hs]
  simp [dropEndWhile, hfeed]

end Paragraph

/-! ## Splitting at blank lines -/

/-- The parts of a text between its blank lines. -/
def splitBlankLines : List Char → List (List Char)
  | [] => [[]]
  | '\n' :: '\n' :: rest => [] :: splitBlankLines rest
  | c :: rest =>
    match splitBlankLines rest with
    | [] => [[c]]
    | part :: parts => (c :: part) :: parts

def blocks (s : String) : List String := (splitBlankLines s.toList).map String.ofList

theorem splitBlankLines_cons {c : Char} {s part : List Char} {parts : List (List Char)}
    (hc : c ≠ '\n' ∨ s.head? ≠ some '\n') (hs : splitBlankLines s = part :: parts) :
    splitBlankLines (c :: s) = (c :: part) :: parts := by
  rw [splitBlankLines]
  · rw [hs]
  · rintro rest rfl rfl
    simp at hc

theorem splitBlankLines_line {line s part : List Char} {parts : List (List Char)}
    (hline : '\n' ∉ line) (hs : splitBlankLines s = part :: parts) :
    splitBlankLines (line ++ s) = (line ++ part) :: parts := by
  induction line with
  | nil => exact hs
  | cons c line ih =>
      obtain ⟨hc, hline⟩ : '\n' ≠ c ∧ '\n' ∉ line := by simpa using hline
      exact splitBlankLines_cons (Or.inl (Ne.symm hc)) (ih hline)

/-- A paragraph stays whole, up to where the next part begins. -/
theorem Paragraph.split {s : String} (h : Paragraph s) {rest : List Char}
    {parts : List (List Char)} (hrest : splitBlankLines rest = [] :: parts) :
    splitBlankLines (s.toList ++ rest) = s.toList :: parts := by
  induction h with
  | line _ hline =>
      have hsplit := splitBlankLines_line hline hrest
      rwa [List.append_nil] at hsplit
  | @cons s t _ hline ht ih =>
      obtain ⟨c, later, hfirst, hc⟩ := ht.exists_cons
      have hnext : (t.toList ++ rest).head? ≠ some '\n' := by
        rw [hfirst]
        simpa using hc
      have hfeed : splitBlankLines ('\n' :: (t.toList ++ rest)) = ('\n' :: t.toList) :: parts :=
        splitBlankLines_cons (Or.inr hnext) ih
      have hsplit := splitBlankLines_line hline hfeed
      simpa using hsplit

/-- Paragraphs that were joined by blank lines are the blocks of the whole. -/
theorem blocks_intercalate {texts : List String} (hne : texts ≠ [])
    (h : ∀ s ∈ texts, Paragraph s) : blocks ("\n\n".intercalate texts) = texts := by
  have hsplit : splitBlankLines ("\n\n".intercalate texts).toList = texts.map String.toList := by
    induction texts with
    | nil => exact absurd rfl hne
    | cons s texts ih =>
        obtain ⟨hs, htexts⟩ := List.forall_mem_cons.mp h
        cases texts with
        | nil =>
            have hsplit : splitBlankLines (s.toList ++ []) = [s.toList] := hs.split rfl
            rwa [String.intercalate_singleton, ← List.append_nil s.toList]
        | cons t texts =>
            have hrest := ih (by simp) htexts
            rw [String.intercalate_cons_cons, String.toList_append, String.toList_append,
              List.append_assoc]
            refine hs.split ?_
            show [] :: splitBlankLines ("\n\n".intercalate (t :: texts)).toList = _
            rw [hrest]
  rw [blocks, hsplit, List.map_map]
  simp

example : blocks "a\nb\n\nc\n\n\nd" = ["a\nb", "c", "\nd"] := by decide

/-! ## Joining -/

/-- The texts with one more text behind the last of them. -/
def endLast (back : String) : List String → List String
  | [] => []
  | [s] => [s ++ back]
  | s :: t :: texts => s :: endLast back (t :: texts)

theorem intercalate_endLast {sep back : String} (s : String) (texts : List String) :
    sep.intercalate (endLast back (s :: texts)) = sep.intercalate (s :: texts) ++ back := by
  induction texts generalizing s with
  | nil => rw [endLast, String.intercalate_singleton, String.intercalate_singleton]
  | cons t texts ih =>
      rw [endLast, String.intercalate_cons_of_ne_nil, ih, String.intercalate_cons_cons]
      · simp only [String.append_assoc]
      · cases texts <;> simp [endLast]

theorem forall_endLast {P : String → Prop} {back : String} (hback : ∀ s, P s → P (s ++ back))
    {texts : List String} (h : ∀ s ∈ texts, P s) : ∀ s ∈ endLast back texts, P s := by
  fun_induction endLast back texts with
  | case1 => exact h
  | case2 s => exact List.forall_mem_singleton.mpr (hback s (h s (List.mem_cons_self ..)))
  | case3 s t texts ih =>
      obtain ⟨hs, hrest⟩ := List.forall_mem_cons.mp h
      exact List.forall_mem_cons.mpr ⟨hs, ih hrest⟩

theorem length_endLast (back : String) (texts : List String) :
    (endLast back texts).length = texts.length := by
  fun_induction endLast back texts <;> simp_all

theorem intercalate_append {sep : String} {texts more : List String} (htexts : texts ≠ [])
    (hmore : more ≠ []) :
    sep.intercalate (texts ++ more) = sep.intercalate texts ++ sep ++ sep.intercalate more := by
  induction texts with
  | nil => exact absurd rfl htexts
  | cons s texts ih =>
      cases texts with
      | nil =>
          rw [List.singleton_append, String.intercalate_cons_of_ne_nil hmore,
            String.intercalate_singleton]
      | cons t texts =>
          rw [List.cons_append, String.intercalate_cons_of_ne_nil (by simp), ih (by simp),
            String.intercalate_cons_cons]
          simp only [String.append_assoc]

theorem intercalate_append_first {sep front : String} (s : String) (texts : List String) :
    sep.intercalate ((front ++ s) :: texts) = front ++ sep.intercalate (s :: texts) := by
  cases texts with
  | nil => rw [String.intercalate_singleton, String.intercalate_singleton]
  | cons t texts =>
      rw [String.intercalate_cons_cons, String.intercalate_cons_cons, String.append_assoc,
        String.append_assoc, String.append_assoc]

theorem join_ended {lines : List String} (hne : lines ≠ []) :
    String.join (lines.map (· ++ "\n")) = "\n".intercalate lines ++ "\n" := by
  induction lines with
  | nil => exact absurd rfl hne
  | cons s lines ih =>
      cases lines with
      | nil => simp
      | cons t lines =>
          rw [List.map_cons, String.join_cons, ih (by simp), String.intercalate_cons_cons]
          simp only [String.append_assoc]

/-- Texts that end in a line feed are joined to paragraphs by one more. -/
theorem intercalate_ended (s : String) (texts : List String) :
    "\n".intercalate ((s :: texts).map (· ++ "\n"))
      = "\n\n".intercalate (s :: texts) ++ "\n" := by
  induction texts generalizing s with
  | nil => simp
  | cons t texts ih =>
      have hrest := ih t
      rw [List.map_cons] at hrest
      rw [List.map_cons, List.map_cons, String.intercalate_cons_cons, hrest,
        String.intercalate_cons_cons, show "\n\n" = "\n" ++ "\n" from rfl]
      simp only [String.append_assoc]

end SchemaGen.Text
