import SchemaGen.Proofs.Balance
import SchemaGen.Proofs.Generation

/-!
# The parts of a module balance

Every template of the three targets is balanced once its holes are filled with
balanced texts: either a literal holds both braces, or the two literals around
a hole balance together. What goes into the holes is unmarked. For field names
and enum values this follows from how they were read. The names that a
definition mentions are written as they are, and a type may be called by any
text, so for them it is a condition (`Artifacts.Plain`), as it is for the texts
from the settings.

For the GraphQL code of a record the closed form is used: its lines are marks,
the identity line and lines of declared fields, whatever level they come from.
-/

namespace SchemaGen

open SchemaGen.Model
open SchemaGen.Text (Balanced Unmarked)

/-! ## Types of fields -/

theorem TypeScript.typeText_balanced {type : FieldType}
    (hrefs : ∀ ref ∈ type.references, Unmarked ref) {text : String}
    (h : TypeScript.typeText type = .ok text) : Balanced text := by
  induction type generalizing text with
  | shapeless => cases h
  | primitive name => exact primitiveIn_mem (by decide) h
  | reference name =>
      obtain rfl := Except.ok.inj h
      exact (hrefs name (List.mem_singleton_self name)).balanced
  | array item ih =>
      obtain ⟨inner, hinner, rfl⟩ := map_eq_ok h
      exact (ih hrefs hinner).append (by decide)
  | required inner ih => exact ih hrefs h

theorem Mongoose.typeText_balanced {settings : Settings}
    (hsuffix : Unmarked settings.ormSuffix.display) {type : FieldType}
    (hrefs : ∀ ref ∈ type.references, Unmarked ref) {text : String}
    (h : Mongoose.typeText settings type = .ok text) : Balanced text := by
  induction type generalizing text with
  | shapeless => cases h
  | primitive name => exact primitiveIn_mem (by decide) h
  | reference name =>
      obtain rfl := Except.ok.inj h
      exact ((hrefs name (List.mem_singleton_self name)).append hsuffix).balanced
  | array item ih =>
      obtain ⟨inner, hinner, rfl⟩ := map_eq_ok h
      have hbrackets : Balanced ("[" ++ "]") := by decide
      exact hbrackets.around (ih hrefs hinner)
  | required inner ih => exact ih hrefs h

theorem GraphQL.typeValue_balanced {settings : Settings}
    (hany : Unmarked settings.graphqlAnyScalar.display) {type : FieldType}
    (hrefs : ∀ ref ∈ type.references, Unmarked ref) {value : Json.Value}
    (h : GraphQL.typeValue settings type = .ok value) : Balanced value.display := by
  induction type generalizing value with
  | shapeless => cases h
  | primitive name =>
      rcases GraphQL.typeValue_primitive h with ⟨-, rfl⟩ | ⟨text, htext, rfl⟩
      · exact hany.balanced
      · have htable : ∀ e ∈ GraphQL.primitives, Balanced e.2 := by decide
        exact htable _ htext
  | reference name =>
      obtain rfl := Except.ok.inj h
      exact (hrefs name (List.mem_singleton_self name)).balanced
  | array item ih =>
      obtain ⟨inner, hinner, rfl⟩ := map_eq_ok h
      have hbrackets : Balanced ("[" ++ "!]") := by decide
      exact hbrackets.around (ih hrefs hinner)
  | required inner ih =>
      obtain ⟨inner, hinner, rfl⟩ := map_eq_ok h
      exact (ih hrefs hinner).append (by decide)

/-! ## Code of definitions -/

/-- The names that a definition mentions: its own, that of its parent and those of its fields'
types. -/
def Model.Definition.mentions : Definition → List String
  | .record r => r.name :: r.parent.toList ++ r.fields.flatMap fun field => field.type.references
  | .enumeration e => [e.name]
  | .bare name => [name]

theorem TypeScript.fieldLine_balanced {field : Field}
    (hname : Text.isGraphQLName field.name = true)
    (hrefs : ∀ ref ∈ field.type.references, Unmarked ref) {line : String}
    (h : TypeScript.fieldLine field = .ok line) : Balanced line := by
  obtain ⟨text, htext, rfl⟩ := map_eq_ok h
  have hmark : Balanced (if field.type.isRequired then "" else "?") := by
    split <;> decide
  have hproperty := (Json.propertyName_unmarked hname).balanced
  exact (((hproperty.append hmark).append (by decide)).append
    (TypeScript.typeText_balanced hrefs htext)).append (by decide)

theorem Model.Record.parent_of_namedParent? {r : Record} {parent : String}
    (h : r.namedParent? = some parent) : r.parent = some parent :=
  (Option.filter_eq_some_iff.mp h).1

theorem Model.Definition.name_mem_mentions (d : Definition) : d.name ∈ d.mentions := by
  cases d with
  | record r => exact List.mem_cons_self ..
  | enumeration e => exact List.mem_singleton_self _
  | bare name => exact List.mem_singleton_self _

theorem Model.Definition.parent_mem_mentions {r : Record} {parent : String}
    (h : r.parent = some parent) : parent ∈ (Definition.record r).mentions :=
  List.mem_append_left _ (List.mem_cons_of_mem _ (Option.mem_toList.mpr h))

theorem Model.Definition.reference_mem_mentions {r : Record} {field : Field} {ref : String}
    (hfield : field ∈ r.fields) (href : ref ∈ field.type.references) :
    ref ∈ (Definition.record r).mentions :=
  List.mem_append_right _ (List.mem_flatMap.mpr ⟨field, hfield, href⟩)

theorem TypeScript.recordCode_balanced {r : Record} (hd : (Definition.record r).WellFormed)
    (hmentions : ∀ name ∈ (Definition.record r).mentions, Unmarked name) {text : String}
    (h : TypeScript.recordCode r = .ok text) : Balanced text := by
  have hname := (hmentions r.name (Definition.name_mem_mentions (.record r))).balanced
  have hparent : ∀ parent, r.parent = some parent → Balanced parent :=
    fun parent hp => (hmentions parent (Definition.parent_mem_mentions hp)).balanced
  unfold TypeScript.recordCode at h
  split at h
  · rename_i parent _ hp
    obtain rfl := Except.ok.inj h
    have hopening : Balanced ("export type " ++ r.name) := Balanced.append (by decide) hname
    exact ((hopening.append (by decide)).append (hparent parent hp)).append (by decide)
  · obtain ⟨lines, hlines, h⟩ := bind_eq_ok h
    obtain rfl := Except.ok.inj h
    have hopening : Balanced ("export interface " ++ r.name) := Balanced.append (by decide) hname
    refine .block ?_ fun line hline => ?_
    · split
      · rename_i parent hp
        have hextends : Balanced (" extends " ++ parent) :=
          Balanced.append (by decide) (hparent parent (Record.parent_of_namedParent? hp))
        exact (hopening.append hextends).behind (by decide)
      · exact (hopening.append (by decide)).behind (by decide)
    · obtain ⟨field, hfield, hline⟩ := exists_of_mem_mapM hlines line hline
      exact TypeScript.fieldLine_balanced (hd.2 field hfield).1
        (fun ref href => hmentions ref (Definition.reference_mem_mentions hfield href)) hline

theorem TypeScript.code_balanced {d : Definition} (hd : d.WellFormed)
    (hmentions : ∀ name ∈ d.mentions, Unmarked name) {text : String}
    (h : TypeScript.code d = .ok text) : Balanced text := by
  cases d with
  | record r => exact TypeScript.recordCode_balanced hd hmentions h
  | enumeration e =>
      obtain rfl := Except.ok.inj h
      have hname := (hmentions e.name (Definition.name_mem_mentions (.enumeration e))).balanced
      have hopening : Balanced ("export enum " ++ e.name) := Balanced.append (by decide) hname
      refine .block (hopening.behind (by decide)) fun line hline => ?_
      obtain ⟨value, hvalue, rfl⟩ := List.mem_map.mp hline
      have hproperty := (Json.propertyName_unmarked (hd.2 value hvalue)).balanced
      have hliteral := (Json.stringLiteral_unmarked (hd.2 value hvalue)).balanced
      exact ((hproperty.append (by decide)).append hliteral).append (by decide)
  | bare name => exact hd.elim

namespace Mongoose

variable {settings : Settings} (hsuffix : Unmarked settings.ormSuffix.display)

include hsuffix

theorem constantName_balanced {name : String} (hname : Unmarked name) :
    Balanced (constantName settings name) :=
  (hname.append hsuffix).balanced

theorem opening_balanced {name : String} (hname : Unmarked name) :
    Balanced (opening settings name) := by
  have hexport : Balanced ("export const " ++ constantName settings name) :=
    Balanced.append (by decide) (constantName_balanced hsuffix hname)
  exact hexport.append (by decide)

theorem fieldLine_balanced {field : Field} (hname : Text.isGraphQLName field.name = true)
    (hrefs : ∀ ref ∈ field.type.references, Unmarked ref) {line : String}
    (h : fieldLine settings field = .ok line) : Balanced line := by
  obtain ⟨value, hvalue, rfl⟩ := map_eq_ok h
  obtain ⟨text, htext, rfl⟩ := map_eq_ok hvalue
  have hunwrapped : ∀ ref ∈ field.type.unwrap.references, Unmarked ref := by
    rwa [FieldType.references_unwrap]
  have htype := typeText_balanced hsuffix hunwrapped htext
  have hproperty := (Json.propertyName_unmarked hname).balanced
  -- the options form is the only place where the braces are not in one literal
  have hpath : Balanced (if enforced settings field.type then
        "\x7b type: " ++ text ++ ", required: true \x7d"
      else if field.type.unwrap.isArray then "\x7b type: " ++ text ++ " \x7d"
      else text) := by
    split
    · exact .around (by decide) htype
    split
    · exact .around (by decide) htype
    · exact htype
  exact ((hproperty.append (by decide)).append hpath).append (by decide)

theorem recordCode_balanced {r : Record} (hd : (Definition.record r).WellFormed)
    (hmentions : ∀ name ∈ (Definition.record r).mentions, Unmarked name) {text : String}
    (h : recordCode settings r = .ok text) : Balanced text := by
  have hname := hmentions r.name (Definition.name_mem_mentions (.record r))
  have hopening := opening_balanced hsuffix hname
  have hparent : ∀ parent, r.parent = some parent → Balanced (constantName settings parent) :=
    fun parent hp =>
      constantName_balanced hsuffix (hmentions parent (Definition.parent_mem_mentions hp))
  unfold recordCode at h
  split at h
  · rename_i parent _ hp
    obtain rfl := Except.ok.inj h
    exact (hopening.append (hparent parent hp)).append (by decide)
  · obtain ⟨lines, hlines, h⟩ := bind_eq_ok h
    obtain rfl := Except.ok.inj h
    refine .block (hopening.behind (by decide)) fun line hline => ?_
    rcases List.mem_append.mp hline with hline | hline
    · split at hline
      · rename_i parent hp
        rw [List.mem_singleton.mp hline]
        have hspread : Balanced ("..." ++ constantName settings parent) :=
          Balanced.append (by decide) (hparent parent (Record.parent_of_namedParent? hp))
        exact hspread.append (by decide)
      · cases hline
    · obtain ⟨field, hfield, hline⟩ := exists_of_mem_mapM hlines line hline
      exact fieldLine_balanced hsuffix (hd.2 field hfield).1
        (fun ref href => hmentions ref (Definition.reference_mem_mentions hfield href)) hline

theorem code_balanced {d : Definition} (hd : d.WellFormed)
    (hmentions : ∀ name ∈ d.mentions, Unmarked name) {text : String}
    (h : code settings d = .ok text) : Balanced text := by
  cases d with
  | record r => exact recordCode_balanced hsuffix hd hmentions h
  | enumeration e =>
      obtain rfl := Except.ok.inj h
      have hname := hmentions e.name (Definition.name_mem_mentions (.enumeration e))
      have hopening := opening_balanced hsuffix hname
      have hvalues : Balanced (Json.stringListLiteral e.values) := by
        refine Balanced.around (by decide) (.intercalate (by decide) fun s hs => ?_)
        obtain ⟨value, hvalue, rfl⟩ := List.mem_map.mp hs
        exact (Json.stringLiteral_unmarked (hd.2 value hvalue)).balanced
      exact Balanced.around (hopening.behind (by decide)) hvalues
  | bare name => exact hd.elim

end Mongoose

/-! ## Code of whole models -/

namespace Artifacts

variable {settings : Settings} {m : Model} {a : Artifacts}

/-- What the names of a model and the texts of the settings must be free of. -/
structure Plain (settings : Settings) (m : Model) : Prop where
  names : ∀ name ∈ m.names, Unmarked name
  references : ∀ name r, m.get? name = some (.record r) →
    ∀ field ∈ r.fields, ∀ ref ∈ field.type.references, Unmarked ref
  ormSuffix : Unmarked settings.ormSuffix.display
  sdlExportName : Unmarked settings.sdlExportName.display
  anyScalar : Unmarked settings.graphqlAnyScalar.display

/-- What holds of all type names and of all references holds of what a definition mentions. -/
theorem Complete.forall_mentions {P : String → Prop} (ha : Complete settings m a)
    (hm : m.WellFormed) (hnames : ∀ name ∈ m.names, P name)
    (hreferences : ∀ name r, m.get? name = some (.record r) →
      ∀ field ∈ r.fields, ∀ ref ∈ field.type.references, P ref)
    {name : String} {d : Definition} (hd : m.get? name = some d) : ∀ text ∈ d.mentions, P text := by
  have hown : P d.name := by
    rw [(hm.shaped name d hd).1]
    exact hnames name (mem_names_of_get? hd)
  cases d with
  | record r =>
      refine List.forall_mem_cons.mpr ⟨hown, fun text htext => ?_⟩
      rcases List.mem_append.mp htext with hparent | hreference
      · have hext : m.Extends name text :=
          (modelParent_eq hd).trans (Option.mem_toList.mp hparent)
        obtain ⟨above, hchain⟩ := ha.lineages name (mem_names_of_get? hd)
        exact hnames text (hchain.mem_names_of_mem (hchain.mem_iff.mpr (.single hext)))
      · obtain ⟨field, hfield, href⟩ := List.mem_flatMap.mp hreference
        exact hreferences name r hd field hfield text href
  | enumeration e => exact List.forall_mem_singleton.mpr hown
  | bare _ => exact List.forall_mem_singleton.mpr hown

/-- A line of declared fields comes from one of the fields. -/
theorem DeclaredLines.exists_field {name : String} {lines : List String}
    (hlines : DeclaredLines settings m name lines) {line : String} (hline : line ∈ lines) :
    ∃ r, m.get? name = some (.record r) ∧ ∃ field ∈ r.fields, ∃ text,
      GraphQL.typeText settings field.type = .ok text ∧ line = field.name ++ ": " ++ text := by
  obtain ⟨r, hr, hall⟩ := hlines
  refine ⟨r, hr, ?_⟩
  generalize r.fields = fields at hall
  induction hall with
  | nil => cases hline
  | cons hfirst _ ih =>
      rcases List.mem_cons.mp hline with rfl | hline
      · exact ⟨_, List.mem_cons_self .., hfirst⟩
      · obtain ⟨field, hfield, htext⟩ := ih hline
        exact ⟨field, List.mem_cons_of_mem _ hfield, htext⟩

theorem DeclaredLines.balanced (h : Plain settings m) (hm : m.WellFormed) {name : String}
    {lines : List String} (hlines : DeclaredLines settings m name lines) :
    ∀ line ∈ lines, Balanced line := by
  intro line hline
  obtain ⟨r, hr, field, hfield, text, htext, rfl⟩ := hlines.exists_field hline
  obtain ⟨value, hvalue, rfl⟩ := map_eq_ok htext
  have hname := Text.unmarked_of_isGraphQLName ((hm.shaped name _ hr).2.2 field hfield).1
  have hrefs := h.references name r hr field hfield
  have htype := GraphQL.typeValue_balanced h.anyScalar hrefs hvalue
  exact (hname.balanced.append (by decide)).append htype

theorem sdl_balanced (h : Plain settings m) (hm : m.WellFormed) (ha : Complete settings m a)
    {t : TypeCode} (ht : t ∈ a.types) : Balanced t.sdl := by
  obtain ⟨_, _, _, _, _, d, kept, after, hd, -, -, -, hsdl⟩ := ha.exists_split ht
  have hname : Unmarked t.name := h.names t.name (mem_names_of_get? hd)
  cases d with
  | record r =>
      obtain ⟨above, place, own, hchain, -, hown, -, htext⟩ := ha.flattened hm t.name r hd
      have hopening : Balanced ("type " ++ t.name) := Balanced.append (by decide) hname.balanced
      rw [htext t ht rfl]
      refine .block (hopening.behind (by decide)) (GraphQL.forall_flatLines (by decide) ?_ ?_)
      · intro y hy
        have hmark := (h.names y (hchain.mem_names_of_mem hy)).balanced
        exact ⟨Balanced.append (by decide) hmark, Balanced.append (by decide) hmark⟩
      · intro y hy
        exact (hown y hy).balanced h hm
  | enumeration e =>
      obtain ⟨htext, -⟩ := Prod.mk.inj (Except.ok.inj hsdl)
      have hown : Unmarked e.name := by
        rw [show e.name = t.name from (hm.shaped t.name _ hd).1]
        exact hname
      have hopening : Balanced ("enum " ++ e.name) := Balanced.append (by decide) hown.balanced
      rw [← htext]
      refine .block (hopening.behind (by decide)) fun value hvalue => ?_
      exact (Text.unmarked_of_isGraphQLName ((hm.shaped t.name _ hd).2.2 value hvalue)).balanced
  | bare _ => exact (hm.shaped t.name _ hd).2.elim

/-- Every part of the generated module is balanced. -/
theorem fragments_balanced (h : Plain settings m) (hm : m.WellFormed) (ha : Complete settings m a) :
    ∀ text ∈ a.fragments, Balanced text := by
  intro text htext
  rcases List.mem_append.mp htext with htype | hdocument
  · obtain ⟨t, ht, htext⟩ := List.mem_flatMap.mp htype
    obtain ⟨_, _, _, _, _, d, _, _, hd, hnative, horm, -, -⟩ := ha.exists_split ht
    have hmentions := ha.forall_mentions hm h.names h.references hd
    have hshape := (hm.shaped t.name d hd).2
    rcases List.mem_pair.mp htext with rfl | rfl
    · exact TypeScript.code_balanced hshape hmentions hnative
    · exact Mongoose.code_balanced h.ormSuffix hshape hmentions horm
  · have hparts : ∀ part ∈ (a.types.map TypeCode.sdl).map (· ++ "\n"), Balanced part := by
      intro part hpart
      obtain ⟨sdl, hsdl, rfl⟩ := List.mem_map.mp hpart
      obtain ⟨t, ht, rfl⟩ := List.mem_map.mp hsdl
      exact (sdl_balanced h hm ha ht).append (by decide)
    have hopening : Balanced ("export const " ++ settings.sdlExportName.display) :=
      Balanced.append (by decide) h.sdlExportName.balanced
    rw [List.mem_singleton.mp hdocument, ha.document]
    exact Balanced.around (hopening.behind (by decide)) (.intercalate (by decide) hparts)

end Artifacts

end SchemaGen
