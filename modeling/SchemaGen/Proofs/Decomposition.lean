import SchemaGen.Proofs.BlankLines
import SchemaGen.Proofs.ModuleCheck

/-!
# A module comes apart at its blank lines

Generating joins a heading, the code of every type and a document into one
text. The text shows where each of them ends (`generate_blocks`): its blank
lines are exactly those that were put between the parts, and those between the
types of the document.

Each part is a paragraph. A fragment of one of the targets has no empty line
because its lines begin with a word or with the indentation, and no line feed
inside of a line unless a name brings one in. Names and the texts of the
settings must therefore be free of line feeds (`SingleLine`), and a header
line must not be empty (`SingleLineHeading`). The document is one part to the
generator and several to the reader. `documentBlocks` says how its opener and
its closer are shared out over the types.
-/

namespace SchemaGen

open SchemaGen.Model
open SchemaGen.Json (Value)
open SchemaGen.Text (OneLine Paragraph)

/-! ## The native code -/

namespace TypeScript

theorem typeText_oneLine {type : FieldType} (hrefs : ∀ ref ∈ type.references, OneLine ref)
    {text : String} (h : typeText type = .ok text) : OneLine text := by
  induction type generalizing text with
  | shapeless => cases h
  | primitive name => exact primitiveIn_mem (by decide) h
  | reference name =>
      obtain rfl := Except.ok.inj h
      exact hrefs name (List.mem_singleton_self name)
  | array item ih =>
      obtain ⟨inner, hinner, rfl⟩ := map_eq_ok h
      exact (ih hrefs hinner).append (by decide)
  | required inner ih => exact ih hrefs h

theorem fieldLine_oneLine {field : Field} (hname : OneLine field.name)
    (hrefs : ∀ ref ∈ field.type.references, OneLine ref) {line : String}
    (h : fieldLine field = .ok line) : OneLine line := by
  obtain ⟨text, htext, rfl⟩ := map_eq_ok h
  have hmark : OneLine (if field.type.isRequired then "" else "?") := by
    split <;> decide
  have hproperty := (Text.oneLine_propertyName hname).append hmark
  exact ((hproperty.append (by decide)).append (typeText_oneLine hrefs htext)).append (by decide)

theorem recordCode_paragraph {r : Record} (hfields : ∀ field ∈ r.fields, OneLine field.name)
    (hmentions : ∀ name ∈ (Definition.record r).mentions, OneLine name) {text : String}
    (h : recordCode r = .ok text) : Paragraph text := by
  have hname := hmentions r.name (Definition.name_mem_mentions (.record r))
  have hparent : ∀ parent, r.parent = some parent → OneLine parent :=
    fun parent hp => hmentions parent (Definition.parent_mem_mentions hp)
  unfold recordCode at h
  split at h
  · rename_i parent _ hp
    obtain rfl := Except.ok.inj h
    have hopening : OneLine ("export type " ++ r.name) := OneLine.append (by decide) hname
    refine .line (by simp) ?_
    exact ((hopening.append (by decide)).append (hparent parent hp)).append (by decide)
  · obtain ⟨lines, hlines, h⟩ := bind_eq_ok h
    obtain rfl := Except.ok.inj h
    have hopening : OneLine ("export interface " ++ r.name) := OneLine.append (by decide) hname
    refine .block ⟨by simp, ?_⟩ (fun line hline => ?_) (by decide)
    · split
      · rename_i parent hp
        have hextends : OneLine (" extends " ++ parent) :=
          OneLine.append (by decide) (hparent parent (Record.parent_of_namedParent? hp))
        exact (hopening.append hextends).append (by decide)
      · exact (hopening.append (by decide)).append (by decide)
    · obtain ⟨field, hfield, hline⟩ := exists_of_mem_mapM hlines line hline
      exact fieldLine_oneLine (hfields field hfield)
        (fun ref href => hmentions ref (Definition.reference_mem_mentions hfield href)) hline

theorem enumCode_paragraph {e : Enumeration} (hname : OneLine e.name)
    (hvalues : ∀ value ∈ e.values, OneLine value) : Paragraph (enumCode e) := by
  have hopening : OneLine ("export enum " ++ e.name) := OneLine.append (by decide) hname
  refine .block ⟨by simp, hopening.append (by decide)⟩ (fun line hline => ?_) (by decide)
  obtain ⟨value, hvalue, rfl⟩ := List.mem_map.mp hline
  have hproperty : OneLine (Json.propertyName value ++ " = ") :=
    (Text.oneLine_propertyName (hvalues value hvalue)).append (by decide)
  exact (hproperty.append (Text.oneLine_stringLiteral value)).append (by decide)

end TypeScript

/-! ## The ORM code -/

namespace Mongoose

variable {settings : Settings} (hsuffix : OneLine settings.ormSuffix.display)

include hsuffix

theorem typeText_oneLine {type : FieldType} (hrefs : ∀ ref ∈ type.references, OneLine ref)
    {text : String} (h : typeText settings type = .ok text) : OneLine text := by
  induction type generalizing text with
  | shapeless => cases h
  | primitive name => exact primitiveIn_mem (by decide) h
  | reference name =>
      obtain rfl := Except.ok.inj h
      exact (hrefs name (List.mem_singleton_self name)).append hsuffix
  | array item ih =>
      obtain ⟨inner, hinner, rfl⟩ := map_eq_ok h
      exact (OneLine.append (by decide) (ih hrefs hinner)).append (by decide)
  | required inner ih => exact ih hrefs h

theorem fieldLine_oneLine {field : Field} (hname : OneLine field.name)
    (hrefs : ∀ ref ∈ field.type.references, OneLine ref) {line : String}
    (h : fieldLine settings field = .ok line) : OneLine line := by
  obtain ⟨value, hvalue, rfl⟩ := map_eq_ok h
  obtain ⟨text, htext, rfl⟩ := map_eq_ok hvalue
  have hunwrapped : ∀ ref ∈ field.type.unwrap.references, OneLine ref := by
    rwa [FieldType.references_unwrap]
  have htype := typeText_oneLine hsuffix hunwrapped htext
  have hpath : OneLine (if enforced settings field.type then
        "\x7b type: " ++ text ++ ", required: true \x7d"
      else if field.type.unwrap.isArray then "\x7b type: " ++ text ++ " \x7d"
      else text) := by
    split
    · exact (OneLine.append (by decide) htype).append (by decide)
    split
    · exact (OneLine.append (by decide) htype).append (by decide)
    · exact htype
  have hproperty : OneLine (Json.propertyName field.name ++ ": ") :=
    (Text.oneLine_propertyName hname).append (by decide)
  exact (hproperty.append hpath).append (by decide)

theorem opening_oneLine {name : String} (hname : OneLine name) :
    OneLine (opening settings name) := by
  have hexport : OneLine ("export const " ++ constantName settings name) :=
    OneLine.append (by decide) (hname.append hsuffix)
  exact hexport.append (by decide)

theorem recordCode_paragraph {r : Record} (hfields : ∀ field ∈ r.fields, OneLine field.name)
    (hmentions : ∀ name ∈ (Definition.record r).mentions, OneLine name) {text : String}
    (h : recordCode settings r = .ok text) : Paragraph text := by
  have hopening := opening_oneLine hsuffix
    (hmentions r.name (Definition.name_mem_mentions (.record r)))
  have hparent : ∀ parent, r.parent = some parent → OneLine (constantName settings parent) :=
    fun parent hp => (hmentions parent (Definition.parent_mem_mentions hp)).append hsuffix
  unfold recordCode at h
  split at h
  · rename_i parent _ hp
    obtain rfl := Except.ok.inj h
    exact .line (by simp [opening]) ((hopening.append (hparent parent hp)).append (by decide))
  · obtain ⟨lines, hlines, h⟩ := bind_eq_ok h
    obtain rfl := Except.ok.inj h
    refine .block ⟨by simp [opening], hopening.append (by decide)⟩ (fun line hline => ?_)
      (by decide)
    rcases List.mem_append.mp hline with hline | hline
    · split at hline
      · rename_i parent hp
        rw [List.mem_singleton.mp hline]
        have hspread : OneLine ("..." ++ constantName settings parent) :=
          OneLine.append (by decide) (hparent parent (Record.parent_of_namedParent? hp))
        exact hspread.append (by decide)
      · cases hline
    · obtain ⟨field, hfield, hline⟩ := exists_of_mem_mapM hlines line hline
      exact fieldLine_oneLine hsuffix (hfields field hfield)
        (fun ref href => hmentions ref (Definition.reference_mem_mentions hfield href)) hline

theorem enumCode_paragraph {e : Enumeration} (hname : OneLine e.name) :
    Paragraph (enumCode settings e) := by
  have hopening : OneLine (opening settings e.name ++ "\x7b type: String, enum: ") :=
    (opening_oneLine hsuffix hname).append (by decide)
  refine .line (by simp [enumCode, opening]) ?_
  exact (hopening.append (Text.oneLine_stringListLiteral e.values)).append (by decide)

end Mongoose

/-! ## The GraphQL code -/

namespace GraphQL

variable {settings : Settings}

theorem typeValue_oneLine (hany : OneLine settings.graphqlAnyScalar.display) {type : FieldType}
    (hrefs : ∀ ref ∈ type.references, OneLine ref) {value : Value}
    (h : typeValue settings type = .ok value) : OneLine value.display := by
  induction type generalizing value with
  | shapeless => cases h
  | primitive name =>
      rcases typeValue_primitive h with ⟨-, rfl⟩ | ⟨text, htext, rfl⟩
      · exact hany
      · have htable : ∀ e ∈ primitives, OneLine e.2 := by decide
        exact htable _ htext
  | reference name =>
      obtain rfl := Except.ok.inj h
      exact hrefs name (List.mem_singleton_self name)
  | array item ih =>
      obtain ⟨inner, hinner, rfl⟩ := map_eq_ok h
      exact (OneLine.append (by decide) (ih hrefs hinner)).append (by decide)
  | required inner ih =>
      obtain ⟨inner, hinner, rfl⟩ := map_eq_ok h
      exact (ih hrefs hinner).append (by decide)

theorem enumCode_paragraph {e : Enumeration} (hname : OneLine e.name)
    (hvalues : ∀ value ∈ e.values, OneLine value) : Paragraph (enumCode e) := by
  have hopening : OneLine ("enum " ++ e.name) := OneLine.append (by decide) hname
  exact .block ⟨by simp, hopening.append (by decide)⟩ hvalues (by decide)

/-- What a document has before its first type. -/
def opener (settings : Settings) : String :=
  "export const " ++ settings.sdlExportName.display ++ " = gql`\n"

/-- What a document has behind its last type. -/
def closer : String := "\n`;"

/-- The blocks of a document: one for each type, the first of them behind the opener and the last
before the closer. A document without types is one block, in which opener and closer share their
line feed. -/
def documentBlocks (settings : Settings) : List String → List String
  | [] => [opener settings ++ "`;"]
  | sdl :: rest => Text.endLast closer ((opener settings ++ sdl) :: rest)

theorem length_documentBlocks (settings : Settings) (sdls : List String) :
    (documentBlocks settings sdls).length = max 1 sdls.length := by
  cases sdls with
  | nil => rfl
  | cons sdl rest =>
      rw [documentBlocks, Text.length_endLast, List.length_cons, List.length_cons]
      omega

theorem documentBlocks_ne_nil (settings : Settings) (sdls : List String) :
    documentBlocks settings sdls ≠ [] := by
  refine List.ne_nil_of_length_pos ?_
  rw [length_documentBlocks]
  omega

theorem document_eq (settings : Settings) (sdls : List String) :
    document settings sdls
      = opener settings ++ "\n".intercalate (sdls.map (· ++ "\n")) ++ "`;" :=
  rfl

/-- The blocks of a document are separated by blank lines. -/
theorem document_eq_intercalate (settings : Settings) (sdls : List String) :
    document settings sdls = "\n\n".intercalate (documentBlocks settings sdls) := by
  rw [document_eq]
  cases sdls with
  | nil =>
      rw [documentBlocks, String.intercalate_singleton, List.map_nil, String.intercalate_nil,
        String.append_empty]
  | cons sdl rest =>
      rw [documentBlocks, Text.intercalate_endLast, Text.intercalate_append_first,
        Text.intercalate_ended, closer, String.append_assoc, String.append_assoc,
        String.append_assoc]
      rfl

theorem documentBlocks_paragraph {sdls : List String}
    (hname : OneLine settings.sdlExportName.display) (h : ∀ sdl ∈ sdls, Paragraph sdl) :
    ∀ block ∈ documentBlocks settings sdls, Paragraph block := by
  have hopening : OneLine ("export const " ++ settings.sdlExportName.display ++ " = gql`") :=
    (OneLine.append (by decide) hname).append (by decide)
  have hopener : ∀ {s}, Paragraph s → Paragraph (opener settings ++ s) := by
    intro s hs
    have hcons : Paragraph (_ ++ "\n" ++ s) := .cons (by simp) hopening hs
    simpa [opener, String.append_assoc] using hcons
  cases sdls with
  | nil => exact List.forall_mem_singleton.mpr (hopener (.line (by decide) (by decide)))
  | cons sdl rest =>
      obtain ⟨hfirst, hrest⟩ := List.forall_mem_cons.mp h
      refine Text.forall_endLast (fun s hs => ?_) (List.forall_mem_cons.mpr ⟨hopener hfirst, hrest⟩)
      have hclosed := hs.above (.line (s := "`;") (by decide) (by decide))
      simpa [closer, String.append_assoc] using hclosed

end GraphQL

/-! ## The heading -/

namespace ModuleText

/-- The heading can be made, from header lines that are not empty and from texts without line
feeds. -/
def SingleLineHeading (settings : Settings) (commandLine : String) : Prop :=
  OneLine (generationComment settings commandLine)
    ∧ ∃ parts, settings.headerParts = .ok parts
      ∧ ∀ part ∈ parts, part.display ≠ "" ∧ OneLine part.display

/-- The lines of a heading, given the texts of the settings. -/
def headingLines (settings : Settings) (commandLine : String) (parts : List Value) : List String :=
  let comment := generationComment settings commandLine
  "// DO NOT EDIT. Generated file" ::
    (if comment = "" then [] else ["// " ++ comment]) ++ parts.map Value.display

theorem heading_eq {settings : Settings} {commandLine : String} {parts : List Value}
    (h : settings.headerParts = .ok parts) :
    heading settings commandLine
      = .ok (Text.trimFinalNewlines
          (String.join ((headingLines settings commandLine parts).map (· ++ "\n")))) := by
  unfold heading
  rw [h]
  rfl

theorem heading_paragraph {settings : Settings} {commandLine : String}
    (h : SingleLineHeading settings commandLine) :
    ∃ text, heading settings commandLine = .ok text ∧ Paragraph text := by
  obtain ⟨hcomment, parts, hparts, hall⟩ := h
  have hsingle : ∀ line ∈ headingLines settings commandLine parts, line ≠ "" ∧ OneLine line := by
    refine List.forall_mem_append.mpr ⟨List.forall_mem_cons.mpr ⟨by decide, ?_⟩, ?_⟩
    · intro line hline
      split at hline
      · cases hline
      · rw [List.mem_singleton.mp hline]
        exact ⟨by simp, OneLine.append (by decide) hcomment⟩
    · intro line hline
      obtain ⟨part, hpart, rfl⟩ := List.mem_map.mp hline
      exact hall part hpart
  have hne : headingLines settings commandLine parts ≠ [] := by simp [headingLines]
  have hparagraph := Paragraph.ofLines hne hsingle
  refine ⟨_, heading_eq hparts, ?_⟩
  rw [Text.join_ended hne, hparagraph.trimFinalNewlines]
  exact hparagraph

end ModuleText

/-! ## The whole module -/

namespace Artifacts

variable {settings : Settings} {m : Model} {a : Artifacts}

/-- The names of a model and the texts of the settings are free of line feeds. -/
structure SingleLine (settings : Settings) (m : Model) : Prop where
  names : ∀ name ∈ m.names, OneLine name
  fields : ∀ name r, m.get? name = some (.record r) → ∀ field ∈ r.fields, OneLine field.name
  references : ∀ name r, m.get? name = some (.record r) →
    ∀ field ∈ r.fields, ∀ ref ∈ field.type.references, OneLine ref
  values : ∀ name e, m.get? name = some (.enumeration e) → ∀ value ∈ e.values, OneLine value
  ormSuffix : OneLine settings.ormSuffix.display
  sdlExportName : OneLine settings.sdlExportName.display
  anyScalar : OneLine settings.graphqlAnyScalar.display

theorem DeclaredLines.oneLine (h : SingleLine settings m) {name : String} {lines : List String}
    (hlines : DeclaredLines settings m name lines) : ∀ line ∈ lines, OneLine line := by
  intro line hline
  obtain ⟨r, hr, field, hfield, text, htext, rfl⟩ := hlines.exists_field hline
  obtain ⟨value, hvalue, rfl⟩ := map_eq_ok htext
  have htype := GraphQL.typeValue_oneLine h.anyScalar (h.references name r hr field hfield) hvalue
  exact ((h.fields name r hr field hfield).append (by decide)).append htype

theorem native_orm_paragraph (h : SingleLine settings m) (hm : m.WellFormed)
    (ha : Complete settings m a) {t : TypeCode} (ht : t ∈ a.types) :
    Paragraph t.native ∧ Paragraph t.orm := by
  obtain ⟨_, _, _, _, _, d, _, _, hd, hnative, horm, -, -⟩ := ha.exists_split ht
  have hmentions := ha.forall_mentions hm h.names h.references hd
  cases d with
  | record r =>
      have hfields := h.fields t.name r hd
      exact ⟨TypeScript.recordCode_paragraph hfields hmentions hnative,
        Mongoose.recordCode_paragraph h.ormSuffix hfields hmentions horm⟩
  | enumeration e =>
      have hname := hmentions e.name (Definition.name_mem_mentions (.enumeration e))
      rw [← Except.ok.inj hnative, ← Except.ok.inj horm]
      exact ⟨TypeScript.enumCode_paragraph hname (h.values t.name e hd),
        Mongoose.enumCode_paragraph h.ormSuffix hname⟩
  | bare _ => exact (hm.shaped t.name _ hd).2.elim

theorem sdl_paragraph (h : SingleLine settings m) (hm : m.WellFormed)
    (ha : Complete settings m a) {t : TypeCode} (ht : t ∈ a.types) : Paragraph t.sdl := by
  obtain ⟨_, _, _, _, _, d, kept, after, hd, -, -, -, hsdl⟩ := ha.exists_split ht
  have hname : OneLine t.name := h.names t.name (mem_names_of_get? hd)
  cases d with
  | record r =>
      obtain ⟨above, place, own, hchain, -, hown, -, htext⟩ := ha.flattened hm t.name r hd
      have hopening : OneLine ("type " ++ t.name ++ " \x7b") :=
        (OneLine.append (by decide) hname).append (by decide)
      rw [htext t ht rfl]
      refine .block ⟨by simp, hopening⟩ (GraphQL.forall_flatLines (by decide) ?_ ?_) (by decide)
      · intro y hy
        have hmark := h.names y (hchain.mem_names_of_mem hy)
        exact ⟨OneLine.append (by decide) hmark, OneLine.append (by decide) hmark⟩
      · intro y hy
        exact DeclaredLines.oneLine h (hown y hy)
  | enumeration e =>
      obtain ⟨htext, -⟩ := Prod.mk.inj (Except.ok.inj hsdl)
      have hown : OneLine e.name := by
        rw [show e.name = t.name from (hm.shaped t.name _ hd).1]
        exact hname
      rw [← htext]
      exact GraphQL.enumCode_paragraph hown (h.values t.name e hd)
  | bare _ => exact (hm.shaped t.name _ hd).2.elim

theorem staff_singleLine {m : Model} (h : (Model.read staff).result = .ok m) :
    SingleLine {} m := by
  obtain ⟨entries, hvalue, hdefs, -⟩ := read_eq_ok h
  obtain rfl := Value.object.inj hvalue
  have hrecord : ∀ name r, m.get? name = some (.record r) → ∀ field ∈ r.fields,
      OneLine field.name ∧ ∀ ref ∈ field.type.references, OneLine ref := by
    intro name r hr
    have hmem : Definition.record r ∈ m.definitions := mem_definitions.mpr ⟨name, hr⟩
    rw [staff_definitions h] at hmem
    simp only [List.mem_cons, Definition.record.injEq, reduceCtorEq, List.not_mem_nil,
      or_false] at hmem
    rcases hmem with rfl | rfl | rfl <;> decide
  refine ⟨fun name hname => ?_, fun name r hr field hf => (hrecord name r hr field hf).1,
    fun name r hr field hf => (hrecord name r hr field hf).2, fun name e he => ?_,
    by decide, by decide, by decide⟩
  · have hall : ∀ name ∈ ["Admin", "User", "Named", "Role"], OneLine name := by decide
    exact hall name ((mem_names_of_readDefinitions hdefs).mp hname)
  · have hmem : Definition.enumeration e ∈ m.definitions := mem_definitions.mpr ⟨name, he⟩
    rw [staff_definitions h] at hmem
    simp only [List.mem_cons, Definition.enumeration.injEq, reduceCtorEq, List.not_mem_nil,
      or_false, false_or] at hmem
    obtain rfl := hmem
    decide

end Artifacts

namespace ModuleText

/-- The blocks of a module, from its heading and its artifacts. -/
def moduleBlocks (settings : Settings) (heading : String) (a : Artifacts) : List String :=
  heading :: a.types.flatMap (fun t => [t.native, t.orm])
    ++ GraphQL.documentBlocks settings (a.types.map TypeCode.sdl)

theorem assemble_eq_intercalate {settings : Settings} {m : Model} {a : Artifacts}
    (ha : a.Complete settings m) (heading : String) :
    assemble heading a.fragments
      = "\n\n".intercalate (moduleBlocks settings heading a) ++ "\n" := by
  have hfragments : a.fragments ≠ [] := by simp [Artifacts.fragments]
  have hdocument : a.sdlDocument
      = "\n\n".intercalate (GraphQL.documentBlocks settings (a.types.map TypeCode.sdl)) := by
    rw [ha.document]
    exact GraphQL.document_eq_intercalate settings _
  have hwhole : heading ++ "\n\n" ++ "\n\n".intercalate a.fragments
      = "\n\n".intercalate (heading :: a.types.flatMap (fun t => [t.native, t.orm]))
        ++ "\n\n" ++ a.sdlDocument := by
    rw [← String.intercalate_cons_of_ne_nil hfragments, Artifacts.fragments, ← List.cons_append,
      Text.intercalate_append (by simp) (by simp), String.intercalate_singleton]
  rw [assemble, hwhole, hdocument, moduleBlocks,
    Text.intercalate_append (by simp) (GraphQL.documentBlocks_ne_nil settings _)]

theorem length_moduleBlocks (settings : Settings) (heading : String) (a : Artifacts) :
    (moduleBlocks settings heading a).length = 1 + 2 * a.types.length + max 1 a.types.length := by
  have hpairs : (a.types.flatMap fun t => [t.native, t.orm]).length = 2 * a.types.length := by
    induction a.types with
    | nil => rfl
    | cons t types ih =>
        rw [List.flatMap_cons, List.length_append, ih, List.length_cons]
        simp only [List.length_cons, List.length_nil]
        omega
  rw [moduleBlocks, List.length_append, List.length_cons, hpairs, GraphQL.length_documentBlocks,
    List.length_map]
  omega

/-- Splitting a generated module at its blank lines gives the heading, then the native and the ORM
code of every type, then the GraphQL types of its document, and nothing else. -/
theorem generate_blocks {settings : Settings} {commandLine : String} {machine : Machine}
    {value : Value} {a : Artifacts} {m : Model} {formatter : FormatterSettings}
    (haccepted : (Artifacts.ofValue settings value).result = .ok a)
    (hread : (Model.read value).result = .ok m)
    (hsingle : Artifacts.SingleLine settings m)
    (hheading : SingleLineHeading settings commandLine)
    (hformatter : settings.formatter.get "enabled" = .ok formatter)
    (hoff : formatter.enabled.truthy = false) :
    ∃ heading text, ModuleText.heading settings commandLine = .ok heading
      ∧ (generate settings commandLine machine value).result = .ok (text ++ "\n")
      ∧ Text.blocks text = moduleBlocks settings heading a
      ∧ (Text.blocks text).length = 1 + 2 * m.names.length + max 1 m.names.length := by
  obtain ⟨_, m', -, hread', -, hm, hcomplete⟩ := Artifacts.ofValue_eq_ok haccepted
  obtain rfl := Except.ok.inj (hread.symm.trans hread')
  obtain ⟨heading, hmade, hparagraph⟩ := heading_paragraph hheading
  have hcount : m.names.length = a.types.length := by
    rw [← hcomplete.covers.length_eq, List.length_map]
  have hblocks : ∀ block ∈ moduleBlocks settings heading a, Paragraph block := by
    refine List.forall_mem_append.mpr ⟨List.forall_mem_cons.mpr ⟨hparagraph, ?_⟩, ?_⟩
    · intro block hblock
      obtain ⟨t, ht, hblock⟩ := List.mem_flatMap.mp hblock
      obtain ⟨hnative, horm⟩ := Artifacts.native_orm_paragraph hsingle hm hcomplete ht
      rcases List.mem_pair.mp hblock with rfl | rfl
      · exact hnative
      · exact horm
    · refine GraphQL.documentBlocks_paragraph hsingle.sdlExportName fun sdl hsdl => ?_
      obtain ⟨t, ht, rfl⟩ := List.mem_map.mp hsdl
      exact Artifacts.sdl_paragraph hsingle hm hcomplete ht
  have hsplit := Text.blocks_intercalate (by simp [moduleBlocks]) hblocks
  refine ⟨heading, _, hmade, ?_, hsplit, ?_⟩
  · rw [generate_result haccepted hmade hformatter hoff, assemble_eq_intercalate hcomplete]
  · rw [hsplit, length_moduleBlocks, hcount]

theorem staff_blocks : ∃ a text, (Artifacts.ofValue {} Artifacts.staff).result = .ok a
    ∧ (generate {} "typedefs_to_code staff.json" Machine.bare Artifacts.staff).result
        = .ok (text ++ "\n")
    ∧ (Text.blocks text).length = 13 := by
  obtain ⟨a, haccepted⟩ : ∃ a, (Artifacts.ofValue {} Artifacts.staff).result = .ok a := ⟨_, rfl⟩
  obtain ⟨m, hread⟩ : ∃ m, (Model.read Artifacts.staff).result = .ok m := ⟨_, rfl⟩
  have hheading : SingleLineHeading {} "typedefs_to_code staff.json" :=
    ⟨by decide +kernel, _, rfl, by decide⟩
  obtain ⟨_, text, -, htext, -, hlength⟩ := generate_blocks haccepted hread
    (Artifacts.staff_singleLine hread) hheading rfl rfl
  have hcount : m.names.length = 4 := by
    have hall := congrArg List.length (Artifacts.staff_definitions hread)
    rw [definitions, List.length_map] at hall
    exact (List.length_map _).trans hall
  rw [hcount] at hlength
  exact ⟨a, text, haccepted, htext, hlength⟩

end ModuleText

end SchemaGen
