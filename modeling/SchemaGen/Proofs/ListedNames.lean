import SchemaGen.Proofs.BlankLines
import SchemaGen.Proofs.Grammar
import SchemaGen.Proofs.ModuleCheck

/-!
# Names as they are listed

The names of fields and the values of enumerations are written into the
GraphQL document as they are, without quotes. Reading a model therefore checks
them against the form of GraphQL names. The check judges a name less one line
feed at its end, so what has passed is a `PlainName`, or one with a line feed
behind it (`namePattern_iff`).

A definition lists its names in the block of its type, each behind the
indentation of a line and before a colon or the end of the line
(`Complete.listed`). A plain name stands on that line as a whole. A name with a
line feed passes the check as well, and its line ends in the middle.
-/

namespace SchemaGen

open SchemaGen.Model
open SchemaGen.Json (Value)

namespace Text

variable {s : String}

/-- A GraphQL name to the last character: a letter or an underscore, then letters, digits and
underscores. -/
def PlainName (s : String) : Prop :=
  ∃ first later, s.toList = first :: later ∧ isNameStart first = true
    ∧ ∀ c ∈ later, isNameChar c = true

theorem PlainName.oneLine (h : PlainName s) : OneLine s := by
  obtain ⟨first, later, hs, hfirst, hlater⟩ := h
  intro hfeed
  rw [hs] at hfeed
  rcases List.mem_cons.mp hfeed with rfl | hfeed
  · exact absurd hfirst (by decide)
  · exact absurd (hlater _ hfeed) (by decide)

/-- The names that pass the check are the plain ones, with or without a line feed at the end. -/
theorem namePattern_iff :
    NamePattern s ↔ PlainName s ∨ ∃ word, PlainName word ∧ s = word ++ "\n" := by
  constructor
  · rintro ⟨first, later, hfirst, hlater, hs | hs⟩
    · exact Or.inl ⟨first, later, hs, hfirst, hlater⟩
    · refine Or.inr ⟨String.ofList (first :: later), ⟨first, later, by simp, hfirst, hlater⟩, ?_⟩
      rw [← String.toList_inj, hs, String.toList_append, String.toList_ofList]
      rfl
  · rintro (⟨first, later, hs, hfirst, hlater⟩ | ⟨word, ⟨first, later, hs, hfirst, hlater⟩, rfl⟩)
    · exact ⟨first, later, hfirst, hlater, Or.inl hs⟩
    · exact ⟨first, later, hfirst, hlater, Or.inr (by rw [String.toList_append, hs]; rfl)⟩

/-- Of the names that pass, the plain ones are those that stay on one line. -/
theorem NamePattern.oneLine_iff (h : NamePattern s) : OneLine s ↔ PlainName s := by
  refine ⟨fun hline => ?_, PlainName.oneLine⟩
  rcases namePattern_iff.mp h with hplain | ⟨word, -, rfl⟩
  · exact hplain
  · exact absurd (by simp) hline

/-- Every line of a block follows a line end. -/
theorem infix_block {head last line : String} {body : List String} (h : line ∈ body) :
    ("\n" ++ bodyLine line).toList <:+: (block head body last).toList := by
  -- each line brings the line feed for the next, and the head brings the first
  have hlines : ∀ front : String, ("\n" ++ bodyLine line).toList
      <:+: (front ++ "\n" ++ String.join (body.map bodyLine)).toList := by
    induction body with
    | nil => cases h
    | cons first body ih =>
        intro front
        rw [List.map_cons, String.join_cons]
        rcases List.mem_cons.mp h with rfl | h
        · have hfirst : front ++ "\n" ++ (bodyLine line ++ String.join (body.map bodyLine))
              = front ++ ("\n" ++ bodyLine line ++ String.join (body.map bodyLine)) := by
            simp only [String.append_assoc]
          rw [hfirst]
          exact (infix_append_right _ _).trans (infix_append_left _ _)
        · have hlater : front ++ "\n" ++ (bodyLine first ++ String.join (body.map bodyLine))
              = front ++ "\n" ++ "  " ++ first ++ "\n" ++ String.join (body.map bodyLine) := by
            simp only [bodyLine, String.append_assoc]
          rw [hlater]
          exact ih h _
  exact (hlines head).trans (infix_append_right _ last)

end Text

/-- The names that a definition lists in its GraphQL type. -/
def Model.Definition.listed : Definition → List String
  | .record r => r.fields.map Field.name
  | .enumeration e => e.values
  | .bare _ => []

/-- What follows a name in its line. -/
def Model.Definition.afterName : Definition → String
  | .record _ => ":"
  | _ => "\n"

theorem Model.listed_pattern {m : Model} (hm : m.Shaped) {name : String} {d : Definition}
    (hd : m.get? name = some d) : ∀ s ∈ d.listed, Text.NamePattern s := by
  obtain ⟨-, hshape⟩ := hm name d hd
  intro s hs
  rw [← Text.isGraphQLName_iff]
  cases d with
  | record r =>
      obtain ⟨field, hfield, rfl⟩ := List.mem_map.mp hs
      exact (hshape.2 field hfield).1
  | enumeration e => exact hshape.2 s hs
  | bare _ => cases hs

namespace Artifacts

open SchemaGen.Text (PlainName OneLine namePattern_iff)

variable {settings : Settings} {m : Model} {a : Artifacts}

/-- The GraphQL code of a definition has a line for each of its names, and the name stands at its
start. -/
theorem Complete.listed (ha : Complete settings m a) (hm : m.WellFormed) {t : TypeCode}
    (ht : t ∈ a.types) {d : Definition} (hd : m.get? t.name = some d) :
    ∀ s ∈ d.listed, ("\n  " ++ s ++ d.afterName).toList <:+: t.sdl.toList := by
  intro s hs
  cases d with
  | record r =>
      obtain ⟨field, hfield, rfl⟩ := List.mem_map.mp hs
      obtain ⟨lines, ⟨above, place, -, -, rfl⟩, htext⟩ := ha.sdl_flat hm ht hd
      obtain ⟨line, hline, htyped⟩ := exists_of_forall₂ (GraphQL.ownLines_eq hm hd).2 _ hfield
      obtain ⟨text, -, rfl⟩ := map_eq_ok htyped
      have hown : field.name ++ ": " ++ text
          ∈ GraphQL.flatLines (GraphQL.ownLines settings m) t.name above place :=
        List.mem_append_right _ hline
      have hstart : "\n" ++ Text.bodyLine (field.name ++ ": " ++ text)
          = "\n  " ++ field.name ++ ":" ++ (" " ++ text ++ "\n") := by
        rw [← String.toList_inj]
        simp [Text.bodyLine]
      have hname : ("\n  " ++ field.name ++ ":").toList
          <:+: ("\n" ++ Text.bodyLine (field.name ++ ": " ++ text)).toList :=
        hstart ▸ Text.infix_append_right _ _
      rw [htext]
      exact hname.trans (Text.infix_block hown)
  | enumeration e =>
      obtain ⟨_, _, _, _, _, d, kept, after, hd', -, -, -, hsdl⟩ := ha.exists_split ht
      obtain rfl := Option.some.inj (hd.symm.trans hd')
      obtain ⟨htext, -⟩ := Prod.mk.inj (Except.ok.inj hsdl)
      have hvalue : "\n" ++ Text.bodyLine s = "\n  " ++ s ++ "\n" := by
        rw [← String.toList_inj]
        simp [Text.bodyLine]
      rw [← htext]
      exact hvalue ▸ Text.infix_block hs
  | bare _ => cases hs

theorem sdl_infix_document (ha : Complete settings m a) {t : TypeCode} (ht : t ∈ a.types) :
    t.sdl.toList <:+: a.sdlDocument.toList := by
  have hmem : t.sdl ++ "\n" ∈ (a.types.map TypeCode.sdl).map (· ++ "\n") :=
    List.mem_map_of_mem (List.mem_map_of_mem ht)
  have hended : t.sdl.toList
      <:+: ("\n".intercalate ((a.types.map TypeCode.sdl).map (· ++ "\n"))).toList :=
    (Text.infix_append_right _ _).trans (Text.infix_intercalate hmem)
  rw [ha.document]
  exact hended.trans ((Text.infix_append_left _ _).trans (Text.infix_append_right _ _))

/-- The names of an accepted model are plain, or plain with a line feed behind. The GraphQL
document has each of them at the start of a line, and the plain ones are those that end there. -/
theorem lists_accepted_names {value : Value} (hread : (Model.read value).result = .ok m) :
    (∀ name d, m.get? name = some d → ∀ s ∈ d.listed,
        PlainName s ∨ ∃ word, PlainName word ∧ s = word ++ "\n")
      ∧ ∀ settings a, (ofValue settings value).result = .ok a →
        ∀ name d, m.get? name = some d → ∀ s ∈ d.listed,
          ("\n  " ++ s ++ d.afterName).toList <:+: a.sdlDocument.toList
            ∧ (OneLine s ↔ PlainName s) := by
  obtain ⟨_, -, -, hm⟩ := read_eq_ok hread
  refine ⟨fun name d hd s hs => namePattern_iff.mp (listed_pattern hm.shaped hd s hs), ?_⟩
  intro settings a ha name d hd s hs
  refine ⟨?_, (listed_pattern hm.shaped hd s hs).oneLine_iff⟩
  obtain ⟨_, m', -, hread', -, -, hcomplete⟩ := ofValue_eq_ok ha
  obtain rfl := Except.ok.inj (hread'.symm.trans hread)
  have hin : name ∈ a.types.map TypeCode.name :=
    hcomplete.covers.mem_iff.mpr (mem_names_of_get? hd)
  obtain ⟨t, ht, rfl⟩ := List.mem_map.mp hin
  exact (hcomplete.listed hm ht hd s hs).trans (sdl_infix_document hcomplete ht)

theorem staff_lists_plain : ∃ a, (ofValue {} staff).result = .ok a
    ∧ PlainName "role" ∧ "\n  role:".toList <:+: a.sdlDocument.toList
    ∧ PlainName "OWNER" ∧ "\n  OWNER\n".toList <:+: a.sdlDocument.toList := by
  obtain ⟨a, ha⟩ : ∃ a, (ofValue {} staff).result = .ok a := ⟨_, rfl⟩
  obtain ⟨m, r, e, hread, hr, hrole, he, howner⟩ : ∃ m r e, (Model.read staff).result = .ok m
      ∧ m.get? "Admin" = some (.record r) ∧ "role" ∈ (Definition.record r).listed
      ∧ m.get? "Role" = some (.enumeration e) ∧ "OWNER" ∈ (Definition.enumeration e).listed :=
    ⟨_, _, _, rfl, rfl, List.mem_cons_self .., rfl, List.mem_cons_self ..⟩
  obtain ⟨-, hlists⟩ := lists_accepted_names hread
  obtain ⟨hinRole, hplainRole⟩ := hlists {} a ha _ _ hr _ hrole
  obtain ⟨hinOwner, hplainOwner⟩ := hlists {} a ha _ _ he _ howner
  exact ⟨a, ha, hplainRole.mp (by decide), hinRole, hplainOwner.mp (by decide), hinOwner⟩

/-- A shop with a line feed behind the name of its field. -/
def frayed : Value := .object [("Shop", .object [("fields", .object [("name\n", .text "string")])])]

theorem frayed_accepted : ∃ m d a, (Model.read frayed).result = .ok m
    ∧ m.get? "Shop" = some d ∧ "name\n" ∈ d.listed ∧ ¬PlainName "name\n"
    ∧ (ofValue {} frayed).result = .ok a
    ∧ a.types.map TypeCode.sdl = ["type Shop \x7b\n  name\n: String\n\x7d"] := by
  have hbroken : ¬PlainName "name\n" := fun hplain => absurd hplain.oneLine (by decide)
  exact ⟨_, _, _, rfl, rfl, List.mem_cons_self .., hbroken, rfl, rfl⟩

end Artifacts

end SchemaGen
