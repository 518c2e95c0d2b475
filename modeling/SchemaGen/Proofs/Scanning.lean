import Mathlib.Data.List.Infix
import SchemaGen.Proofs.FieldTypes
import SchemaGen.Proofs.Literals
import SchemaGen.Text.Block

/-!
# Scanning generated code

The pieces from which the code of the three targets is read back: words,
headings, what stands between two signs, the entries of a block, and decoded
literals. Each scanner has one lemma about a text that was put together the
way the targets do it.

A block is read by its breaks. A break is a line end followed by the
indentation of the next entry, so an entry may hold a line end of its own.
Only the values of enumerations do, since a value is accepted with one at its
end. `splitEntries_append` needs no more than that no break lies inside of an
entry (`Unbroken`).
-/

namespace SchemaGen

open SchemaGen.Model

namespace Text

/-! ## Words and headings -/

/-- The characters of a kind at the start of a text, and what follows them. -/
def scan (kind : Char → Bool) (s : List Char) : String × List Char :=
  (String.ofList (s.takeWhile kind), s.dropWhile kind)

theorem scan_append {kind : Char → Bool} {name : String} (hname : ∀ c ∈ name.toList, kind c = true)
    {c : Char} (hc : kind c = false) (rest : List Char) :
    scan kind (name.toList ++ c :: rest) = (name, c :: rest) := by
  have hc' : ¬kind c = true := by simp [hc]
  rw [scan, List.takeWhile_append_of_pos hname, List.dropWhile_append_of_pos hname,
    List.takeWhile_cons_of_neg hc', List.dropWhile_cons_of_neg hc', List.append_nil,
    String.ofList_toList]

def word (s : List Char) : String × List Char := scan isWordChar s

theorem word_append {name : String} (hname : Word name) {c : Char} (hc : isWordChar c = false)
    (rest : List Char) : word (name.toList ++ c :: rest) = (name, c :: rest) :=
  scan_append hname hc rest

/-- The keyword and the name with which a declaration begins, and what follows them. -/
def heading? (s : List Char) : Option (String × String × List Char) :=
  match word s with
  | (keyword, ' ' :: rest) => some (keyword, word rest)
  | _ => none

theorem heading?_append {keyword name : String} (hkeyword : Word keyword) (hname : Word name)
    {c : Char} (hc : isWordChar c = false) (rest : List Char) :
    heading? (keyword.toList ++ ' ' :: (name.toList ++ c :: rest))
      = some (keyword, name, c :: rest) := by
  rw [heading?, word_append hkeyword (by decide)]
  simp only [word_append hname hc]

theorem dropPrefix?_append (front rest : List Char) :
    (front ++ rest).dropPrefix? front = some rest :=
  List.dropPrefix?_append_of_beq rest (beq_self_eq_true front)

theorem dropPrefix?_eq_none {front s : List Char} {c : Char} (hfront : c ∈ front) (hs : c ∉ s) :
    s.dropPrefix? front = none := by
  rw [Option.eq_none_iff_forall_ne_some]
  intro rest hrest
  obtain ⟨start, rfl, hstart⟩ := List.dropPrefix?_eq_some_iff.mp hrest
  obtain rfl := eq_of_beq hstart
  exact hs (List.mem_append_left _ hfront)

theorem dropSuffix?_append (front back : List Char) :
    (front ++ back).dropSuffix? back = some front :=
  List.dropSuffix?_eq_some_iff.mpr ⟨back, rfl, beq_self_eq_true back⟩

def exported? (s : List Char) : Option (String × String × List Char) :=
  (s.dropPrefix? "export ".toList).bind heading?

theorem exported?_append {keyword name : String} (hkeyword : Word keyword) (hname : Word name)
    {c : Char} (hc : isWordChar c = false) (rest : List Char) :
    exported? ("export ".toList ++ (keyword.toList ++ ' ' :: (name.toList ++ c :: rest)))
      = some (keyword, name, c :: rest) := by
  rw [exported?, dropPrefix?_append, Option.bind_some, heading?_append hkeyword hname hc]

/-- What stands between a front and a back. -/
def between? (front back s : List Char) : Option (List Char) :=
  (s.dropPrefix? front).bind fun rest => rest.dropSuffix? back

theorem between?_append (front back s : List Char) :
    between? front back (front ++ (s ++ back)) = some s := by
  rw [between?, dropPrefix?_append, Option.bind_some, dropSuffix?_append]

/-! ## Entries -/

/-- The parts of a text between its breaks, where a break is a line end with the indentation of
the next entry. -/
def splitEntries : List Char → List (List Char)
  | [] => [[]]
  | '\n' :: ' ' :: ' ' :: rest => [] :: splitEntries rest
  | c :: rest =>
    match splitEntries rest with
    | [] => [[c]]
    | entry :: entries => (c :: entry) :: entries

/-- The entries of a block, from what stands after its head line and before `last`. -/
def entries? (last s : List Char) : Option (List (List Char)) :=
  (s.dropSuffix? ('\n' :: last)).bind fun body =>
    match splitEntries body with
    | [] :: entries => some entries
    | _ => none

def Unbroken (s : List Char) : Prop := ¬['\n', ' ', ' '] <:+: s

theorem unbroken_of_not_mem {s : List Char} (h : '\n' ∉ s) : Unbroken s := fun hin =>
  h (hin.subset (List.mem_cons_self ..))

theorem unbroken_around {front back : List Char} (hfront : '\n' ∉ front) (hback : '\n' ∉ back)
    (hnext : ¬[' ', ' '] <+: back) : Unbroken (front ++ '\n' :: back) := by
  induction front with
  | nil =>
      intro hin
      rcases List.infix_cons_iff.mp hin with hstart | hin
      · exact hnext (List.cons_prefix_cons.mp hstart).2
      · exact unbroken_of_not_mem hback hin
  | cons c front ih =>
      obtain ⟨hc, hfront⟩ := not_or.mp (List.mem_cons.not.mp hfront)
      intro hin
      rcases List.infix_cons_iff.mp hin with hstart | hin
      · exact hc (List.cons_prefix_cons.mp hstart).1
      · exact ih hfront hin

/-- Where no break begins, the character belongs to the first entry. -/
theorem splitEntries_cons {c : Char} {s entry : List Char} {entries : List (List Char)}
    (hc : ¬['\n', ' ', ' '] <+: c :: s) (hs : splitEntries s = entry :: entries) :
    splitEntries (c :: s) = (c :: entry) :: entries := by
  rw [splitEntries]
  · rw [hs]
  · rintro rest rfl rfl
    exact hc ⟨rest, rfl⟩

theorem splitEntries_append {s : List Char} (h : Unbroken s) (rest : List Char) :
    splitEntries (s ++ '\n' :: ' ' :: ' ' :: rest) = s :: splitEntries rest := by
  induction s with
  | nil => rfl
  | cons c s ih =>
      have hs : Unbroken s := fun hin => h (hin.trans (List.suffix_cons c s).isInfix)
      refine splitEntries_cons (fun hstart => h ?_) (ih hs)
      -- a break that began here would end before the next one
      match s with
      | [] => simp at hstart
      | [d] => simp at hstart
      | d :: e :: s =>
          obtain ⟨rest', heq⟩ := hstart
          simp only [List.cons_append, List.nil_append, List.cons.injEq] at heq
          obtain ⟨rfl, rfl, rfl, -⟩ := heq
          exact ⟨[], s, rfl⟩

theorem splitEntries_self {s : List Char} (h : Unbroken s) : splitEntries s = [s] := by
  induction s with
  | nil => rfl
  | cons c s ih =>
      have hs : Unbroken s := fun hin => h (hin.trans (List.suffix_cons c s).isInfix)
      exact splitEntries_cons (fun hstart => h hstart.isInfix) (ih hs)

def blockRest (body : List String) (last : List Char) : List Char :=
  body.flatMap (fun line => '\n' :: ' ' :: ' ' :: line.toList) ++ '\n' :: last

theorem toList_block (head : String) (body : List String) (last : String) :
    (block head body last).toList = head.toList ++ blockRest body last.toList := by
  have hbody : '\n' :: (String.join (body.map bodyLine)).toList
      = body.flatMap (fun line => '\n' :: ' ' :: ' ' :: line.toList) ++ ['\n'] := by
    induction body with
    | nil => rfl
    | cons line body ih =>
        have hline : (bodyLine line).toList = ' ' :: ' ' :: line.toList ++ ['\n'] := by
          simp [bodyLine]
        rw [List.map_cons, String.join_cons, String.toList_append, hline, List.flatMap_cons,
          List.append_assoc, List.append_assoc, ← ih]
        simp
  have hrest : '\n' :: (String.join (body.map bodyLine)).toList ++ last.toList
      = blockRest body last.toList := by
    rw [hbody, blockRest]
    simp
  rw [block, String.toList_append, String.toList_append, String.toList_append, ← hrest]
  simp

theorem entries?_blockRest {body : List String} (last : List Char)
    (h : ∀ line ∈ body, Unbroken line.toList) :
    entries? last (blockRest body last) = some (body.map String.toList) := by
  have hsplit : splitEntries (body.flatMap fun line => '\n' :: ' ' :: ' ' :: line.toList)
      = [] :: body.map String.toList := by
    cases body with
    | nil => rfl
    | cons line body =>
        rw [List.flatMap_cons, List.cons_append, List.cons_append, List.cons_append, splitEntries]
        refine congrArg _ ?_
        induction body generalizing line with
        | nil =>
            rw [List.flatMap_nil, List.append_nil]
            exact splitEntries_self (h line (List.mem_cons_self ..))
        | cons second body ih =>
            rw [List.flatMap_cons, List.cons_append, List.cons_append, List.cons_append,
              splitEntries_append (h line (List.mem_cons_self ..)), List.map_cons]
            exact congrArg _ (ih second fun other hother => h other (List.mem_cons_of_mem _ hother))
  rw [entries?, blockRest, dropSuffix?_append, Option.bind_some, hsplit]

/-- The entries of a block that opens with `opening`, each of them read. -/
def body? {α : Type} (opening last : List Char) (read : List Char → Option α) (s : List Char) :
    Option (List α) :=
  (s.dropPrefix? opening).bind fun rest =>
    (entries? last rest).bind fun entries => entries.mapM read

theorem body?_append {α : Type} (opening last : List Char) (read : List Char → Option α)
    {body : List String} (h : ∀ line ∈ body, Unbroken line.toList) :
    body? opening last read (opening ++ blockRest body last)
      = (body.map String.toList).mapM read := by
  rw [body?, dropPrefix?_append, Option.bind_some, entries?_blockRest last h, Option.bind_some]

end Text

theorem mapM_eq_some_map {α β : Type} {read : α → Option β} {f : α → β} {items : List α}
    (h : ∀ a ∈ items, read a = some (f a)) : items.mapM read = some (items.map f) := by
  induction items with
  | nil => rfl
  | cons a items ih =>
      obtain ⟨hfirst, hrest⟩ := List.forall_mem_cons.mp h
      rw [List.mapM_cons, hfirst, ih hrest]
      rfl

/-! ## Literals -/

namespace Json

/-- The text that a literal writes. -/
def decodedText? (literal : List Char) : Option String :=
  match read literal with
  | .ok value => value.text?
  | .error _ => none

def decodedTexts? (literal : List Char) : Option (List String) :=
  match read literal with
  | .ok value => textItems? value
  | .error _ => none

theorem decodedText?_stringLiteral (s : String) :
    decodedText? (stringLiteral s).toList = some s := by
  rw [decodedText?, read_stringLiteral]
  rfl

theorem decodedTexts?_stringListLiteral (items : List String) :
    decodedTexts? (stringListLiteral items).toList = some items := by
  rw [decodedTexts?, read_stringListLiteral]
  show (items.map Value.text).mapM Value.text? = some items
  rw [List.mapM_map]
  exact (mapM_eq_some_map fun _ _ => rfl).trans (congrArg some (List.map_id items))

end Json

end SchemaGen
