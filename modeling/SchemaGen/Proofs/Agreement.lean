import SchemaGen.Proofs.Generation
import SchemaGen.Proofs.Scope

/-!
# The three targets agree

Each target says in its own way what the fields of a record are. An
interface extends another one, a schema definition spreads another one or is
the same, and a GraphQL type repeats the lines of its ancestors between
comments. `targets_agree` reads all code back, resolves what is taken over,
and compares the results row by row (`Row.Agrees`): the same names in the
same order, the same fields required, the same fields arrays.

The proof goes through the model and never from one target to another. The
code of a type declares what its definition holds (`Readable.declares`), so
each scope describes the model, and what describes the same fields agrees
(`Row.Shows.agrees`). For the two targets that name the parent all of this is
a matter of single definitions. For GraphQL the closed form of the lines has
to be read back along the whole chain (`declaration?_flatLines`).

No record may declare a field for the identity, or its line could not be told
from the inserted one.
-/

namespace SchemaGen

open SchemaGen.Model
open SchemaGen.Json (Value)
open SchemaGen.Text (Word)

/-! ## The declared fields of a GraphQL type -/

namespace GraphQL

variable {settings : Settings} {m : Model} {name : String} {above : List String}

theorem isDeclared_startMark : isDeclared (startMark name).toList = false := by
  unfold isDeclared startMark
  rw [String.toList_append]
  simp only [String.reduceToList]
  rfl

theorem isDeclared_endMark : isDeclared (endMark name).toList = false := by
  unfold isDeclared endMark
  rw [String.toList_append]
  simp only [String.reduceToList]
  rfl

theorem isDeclared_fieldLine {field : Field} {line : String}
    (hname : Text.isGraphQLName field.name = true) (hidentity : field.name ≠ "_id")
    (h : fieldLine settings field = .ok line) : isDeclared line.toList = true := by
  have hnot : line ≠ identityLine := by
    rintro rfl
    exact hidentity ((declaresIdentity_fieldLine hname h).mp (by decide))
  have hhead : line.toList.head? ≠ some '#' := by
    obtain ⟨text, -, rfl⟩ := map_eq_ok h
    intro hhead
    have hmem : '#' ∈ field.name.toList := by
      cases hchars : field.name.toList with
      | nil => simp [hchars] at hhead
      | cons c rest =>
          obtain rfl : c = '#' := by simpa [hchars] using hhead
          exact List.mem_cons_self ..
    rcases Text.mem_of_isGraphQLName hname hmem with hchar | hfeed
    · exact absurd hchar (by decide)
    · exact absurd hfeed (by decide)
  simp [isDeclared, hhead, String.toList_inj, hnot]

/-- Without the comments and the identity line, the closed form is the fields from the topmost
ancestor downwards. -/
theorem filter_flatLines {own : String → List String}
    (hown : ∀ y ∈ name :: above, ∀ line ∈ own y, isDeclared line.toList = true)
    (place : Option Nat) :
    (flatLines own name above place).filter (isDeclared ·.toList)
      = (name :: above).reverse.flatMap own := by
  have hkept : ∀ y ∈ name :: above, (own y).filter (isDeclared ·.toList) = own y :=
    fun y hy => List.filter_eq_self.mpr (hown y hy)
  have hopening : (openingLines above place).filter (isDeclared ·.toList) = [] := by
    refine List.filter_eq_nil_iff.mpr fun line hline => ?_
    rcases mem_openingLines hline with rfl | ⟨y, -, rfl⟩
    · decide
    · simp [isDeclared_startMark]
  have hclosing : (above.reverse.flatMap fun y => own y ++ [endMark y]).filter
      (isDeclared ·.toList) = above.reverse.flatMap own := by
    rw [List.filter_flatMap]
    refine List.flatMap_congr fun y hy => ?_
    rw [List.filter_append, hkept y (List.mem_cons_of_mem _ (List.mem_reverse.mp hy))]
    simp [isDeclared_endMark]
  rw [flatLines, List.filter_append, List.filter_append, hopening, hclosing,
    hkept name (List.mem_cons_self ..), List.reverse_cons, List.flatMap_append]
  simp

theorem line?_fieldLine {field : Field} (hfield : field.Legible) {line : String}
    (h : fieldLine settings field = .ok line) :
    ∃ l, line? line.toList = some l ∧ l.Shows settings field := by
  obtain ⟨text, htext, rfl⟩ := map_eq_ok h
  exact ⟨_, line?_append hfield.name.word text, rfl, htext⟩

theorem fieldLine_not_mem (hany : Word settings.graphqlAnyScalar.display) {field : Field}
    (hfield : field.Legible) {line : String} (h : fieldLine settings field = .ok line) :
    '\n' ∉ line.toList := by
  obtain ⟨text, htext, rfl⟩ := map_eq_ok h
  obtain ⟨w, hword, hw⟩ := typeText_spelled hany hfield.type fun ref href =>
    (hfield.references ref href).word
  obtain rfl := Except.ok.inj (htext.symm.trans hw)
  split_ifs <;> simp [hfield.name.2, hword.feed_not_mem]

theorem forall₂_flatMap {α β : Type} {R : α → β → Prop} {f : String → List α}
    {g : String → List β} {names : List String} (h : ∀ y ∈ names, List.Forall₂ R (f y) (g y)) :
    List.Forall₂ R (names.flatMap f) (names.flatMap g) := by
  induction names with
  | nil => exact .nil
  | cons y names ih =>
      obtain ⟨hfirst, hrest⟩ := List.forall_mem_cons.mp h
      exact List.rel_append hfirst (ih hrest)

theorem ownLines_declared (hm : m.WellFormed) (hany : Word settings.graphqlAnyScalar.display)
    {r : Record} (hr : m.get? name = some (.record r)) (hlegible : r.Legible)
    (hidentity : ¬m.DeclaresIdentity name) :
    ∀ line ∈ ownLines settings m name, isDeclared line.toList = true ∧ '\n' ∉ line.toList := by
  intro line hline
  obtain ⟨field, hfield, hline⟩ := exists_of_mem_mapM (ownLines_eq hm hr).1 line hline
  have hname := ((hm.shaped name _ hr).2.2 field hfield).1
  have hnot : field.name ≠ "_id" := fun h => hidentity ⟨r, hr, field, hfield, h⟩
  exact ⟨isDeclared_fieldLine hname hnot hline,
    fieldLine_not_mem hany (hlegible.fields field hfield) hline⟩

theorem flatLines_not_mem {own : String → List String} {place : Option Nat}
    (habove : ∀ y ∈ above, '\n' ∉ y.toList)
    (hown : ∀ y ∈ name :: above, ∀ line ∈ own y, '\n' ∉ line.toList) :
    ∀ line ∈ flatLines own name above place, '\n' ∉ line.toList := by
  have hidentity : '\n' ∉ identityLine.toList := by decide
  refine forall_flatLines hidentity (fun y hy => ?_) hown
  unfold startMark endMark
  rw [String.toList_append, String.toList_append]
  simp only [String.reduceToList]
  simp [habove y hy]

theorem mapM_line?_ownLines (hm : m.WellFormed)
    (hlegible : ∀ y r, m.get? y = some (.record r) → r.Legible) {chain : List String}
    (hchain : ∀ y ∈ chain, ∃ r, m.get? y = some (.record r)) :
    ∃ fields, (chain.reverse.flatMap (ownLines settings m)).mapM (line? ·.toList) = some fields
      ∧ List.Forall₂ (Line.Shows settings) (m.fieldsAlong chain) fields := by
  have hall : List.Forall₂ (fun field line => fieldLine settings field = .ok line)
      (m.fieldsAlong chain) (chain.reverse.flatMap (ownLines settings m)) := by
    refine forall₂_flatMap fun y hy => ?_
    obtain ⟨r, hr⟩ := hchain y (List.mem_reverse.mp hy)
    rw [Model.ownFields_eq hr]
    exact (ownLines_eq hm hr).2
  refine exists_mapM_of_forall₂ hall fun field hfield line hline => ?_
  obtain ⟨y, r, hr, hfield⟩ := Model.exists_of_mem_fieldsAlong hfield
  exact line?_fieldLine ((hlegible y r hr).fields field hfield) hline

/-- The closed form reads back as the fields along the chain. -/
theorem declaration?_flatLines (hm : m.WellFormed) (hany : Word settings.graphqlAnyScalar.display)
    (hlegible : ∀ y r, m.get? y = some (.record r) → r.Legible)
    (hidentity : ∀ y, ¬m.DeclaresIdentity y) {r : Record} (hr : m.get? name = some (.record r))
    (hchain : m.Lineage name above) (place : Option Nat) :
    ∃ fields, declaration? (typeCode name (flatLines (ownLines settings m) name above place))
        = some (.record name none fields)
      ∧ List.Forall₂ (Line.Shows settings) (m.fieldsAlong (name :: above)) fields := by
  have hrecords : ∀ y ∈ name :: above, ∃ r, m.get? y = some (.record r) :=
    List.forall_mem_cons.mpr ⟨⟨r, hr⟩, hm.lineage_records hchain⟩
  have hplain : ∀ y ∈ name :: above, Text.PlainIdentifier y := by
    intro y hy
    obtain ⟨r', hr'⟩ := hrecords y hy
    exact (hm.shaped y _ hr').1 ▸ (hlegible y r' hr').name
  have hown : ∀ y ∈ name :: above, ∀ line ∈ ownLines settings m y,
      isDeclared line.toList = true ∧ '\n' ∉ line.toList := by
    intro y hy
    obtain ⟨r', hr'⟩ := hrecords y hy
    exact ownLines_declared hm hany hr' (hlegible y r' hr') (hidentity y)
  have hlines : ∀ line ∈ flatLines (ownLines settings m) name above place,
      '\n' ∉ line.toList :=
    flatLines_not_mem (fun y hy => (hplain y (List.mem_cons_of_mem _ hy)).2)
      fun y hy line hline => (hown y hy line hline).2
  have hfilter := filter_flatLines (fun y hy line hline => (hown y hy line hline).1) place
  obtain ⟨fields, hread, hshows⟩ := mapM_line?_ownLines hm hlegible hrecords
  have hname := (hplain name (List.mem_cons_self ..)).word
  refine ⟨fields, declaration?_typeCode hname hlines ?_, hshows⟩
  rw [List.filter_map, List.mapM_map]
  exact (congrArg _ hfilter).trans hread

end GraphQL
/-! ## What the code declares -/

/-- All names that go into the code are identifiers, and no record has a field of its own for the
identity. -/
structure Identifiers (settings : Settings) (m : Model) : Prop where
  types : ∀ name ∈ m.names, Text.PlainIdentifier name
  fields : ∀ name r, m.get? name = some (.record r) → ∀ field ∈ r.fields,
    Text.PlainIdentifier field.name ∧ ∀ ref ∈ field.type.references, Text.PlainIdentifier ref
  identity : ∀ name, ¬m.DeclaresIdentity name
  suffix : Text.PlainIdentifier settings.ormSuffix.display
  scalar : Text.PlainIdentifier settings.graphqlAnyScalar.display

theorem Mongoose.constantName_injective (settings : Settings) :
    Function.Injective (constantName settings) := by
  intro x y h
  have htext := congrArg String.toList h
  rw [constantName, constantName, String.toList_append, String.toList_append] at htext
  exact String.toList_injective (List.append_cancel_right htext)

namespace Artifacts

variable {settings : Settings} {m : Model} {a : Artifacts}

/-- Artifacts whose code can be read. -/
structure Readable (settings : Settings) (m : Model) (a : Artifacts) : Prop where
  wellFormed : m.WellFormed
  complete : Complete settings m a
  legible : ∀ name r, m.get? name = some (.record r) → r.Legible
  plain : Identifiers settings m

theorem readable_of_identifiers {value : Value} (h : (ofValue settings value).result = .ok a)
    (hread : (Model.read value).result = .ok m) (hplain : Identifiers settings m) :
    Readable settings m a := by
  obtain ⟨entries, m', -, hread', hdefs, hm, hcomplete⟩ := ofValue_eq_ok h
  obtain rfl := Except.ok.inj (hread.symm.trans hread')
  refine ⟨hm, hcomplete, fun name r hr => ?_, hplain⟩
  have hin := mem_names_of_get? hr
  obtain ⟨hname, -, hspelled⟩ := get?_of_readDefinitions hdefs hr
  refine ⟨?_, ?_, ?_⟩
  · rw [show r.name = name from hname]
    exact hplain.types name hin
  · intro parent hparent
    have hext : m.Extends name parent := (modelParent_eq hr).trans hparent
    obtain ⟨above, hchain⟩ := hcomplete.lineages name hin
    cases hchain with
    | top _ hnone => cases hnone.symm.trans hext
    | under hext' hrest =>
        obtain rfl := hext.unique hext'
        exact hplain.types _ hrest.mem_names
  · intro field hfield
    obtain ⟨hfieldName, hrefs⟩ := hplain.fields name r hr field hfield
    exact ⟨hfieldName, hspelled field hfield, hrefs⟩

/-- The code of a type declares what its definition holds, in every target. -/
theorem Readable.declares (h : Readable settings m a) {t : TypeCode} (ht : t ∈ a.types) :
    (∃ d, TypeScript.declaration? t.native = some d
      ∧ Declares m id TypeScript.Property.Shows (fun value => ⟨value, value⟩) t.name d)
    ∧ (∃ d, Mongoose.declaration? t.orm = some d
      ∧ Declares m (Mongoose.constantName settings) (Mongoose.Path.Shows settings) id t.name d)
    ∧ ∃ d, GraphQL.declaration? t.sdl = some d
      ∧ Declares m id (GraphQL.Line.Shows settings) id t.name d := by
  obtain ⟨_, _, -, -, -, d, _, _, hd, hnative, horm, -, hsdl⟩ := h.complete.exists_split ht
  obtain ⟨hname, hshape⟩ := h.wellFormed.shaped t.name d hd
  cases d with
  | record r =>
      have hlegible := h.legible t.name r hd
      obtain ⟨properties, hproperties, hnativeShows⟩ :=
        TypeScript.declaration?_recordCode hlegible hnative
      obtain ⟨paths, hpaths, hormShows⟩ :=
        Mongoose.declaration?_recordCode h.plain.suffix.word hlegible horm
      obtain ⟨_, ⟨above, place, hchain, -, rfl⟩, htext⟩ := h.complete.sdl_flat h.wellFormed ht hd
      obtain ⟨lines, hlines, hsdlShows⟩ := GraphQL.declaration?_flatLines h.wellFormed
        h.plain.scalar.word h.legible h.plain.identity hd hchain place
      rw [show r.name = t.name from hname] at hproperties hpaths
      rw [← Option.map_id_apply (x := r.parent)] at hproperties
      rw [← htext] at hlines
      exact ⟨⟨_, hproperties, .extending hd hnativeShows⟩, ⟨_, hpaths, .extending hd hormShows⟩,
        _, hlines, .repeating hd hchain hsdlShows⟩
  | enumeration e =>
      obtain ⟨htext, -⟩ := Prod.mk.inj (Except.ok.inj hsdl)
      have hname : e.name = t.name := hname
      have hword : Word e.name := hname ▸ (h.plain.types t.name (mem_names_of_get? hd)).word
      have hmembers := TypeScript.declaration?_enumCode hword hshape.2
      have hpaths := Mongoose.declaration?_enumCode
        (Mongoose.constantName_word h.plain.suffix.word hword)
      have hvalues := GraphQL.declaration?_enumCode hword hshape.2
      rw [Except.ok.inj hnative, hname] at hmembers
      rw [Except.ok.inj horm, hname, ← List.map_id e.values] at hpaths
      rw [htext, hname, ← List.map_id e.values] at hvalues
      exact ⟨⟨_, hmembers, .enumeration hd⟩, ⟨_, hpaths, .enumeration hd⟩,
        _, hvalues, .enumeration hd⟩
  | bare _ => exact hshape.elim

end Artifacts

/-! ## Agreement, field by field -/

/-- What the three targets say about one field. -/
structure Row where
  property : TypeScript.Property
  path : Mongoose.Path
  line : GraphQL.Line

/-- The targets say the same about a field: its name, whether it is required and whether it is an
array. A path says that a field is required where the presence of fields is enforced. -/
structure Row.Agrees (settings : Settings) (row : Row) : Prop where
  pathName : row.path.name = row.property.name
  lineName : row.line.name = row.property.name
  required : row.property.optional = false ↔ Text.Marked row.line.type
  enforced : settings.mongooseEnforceRequired.truthy = true →
    (row.path.required = true ↔ Text.Marked row.line.type)
  array : ['[', ']'] <:+ row.property.type.toList ↔ Text.Bracketed (Text.unmarked row.line.type)
  pathArray : Text.Bracketed row.path.type.toList ↔ Text.Bracketed (Text.unmarked row.line.type)

structure Row.Shows (settings : Settings) (field : Field) (row : Row) : Prop where
  property : row.property.Shows field
  path : row.path.Shows settings field
  line : row.line.Shows settings field

theorem Row.Shows.agrees {settings : Settings} (hsuffix : Word settings.ormSuffix.display)
    (hany : Word settings.graphqlAnyScalar.display) {field : Field} (hfield : field.Legible)
    {row : Row} (h : row.Shows settings field) : row.Agrees settings := by
  obtain ⟨⟨hname, hoptional, hnative⟩, ⟨hpathName, hrequired, horm⟩, hlineName, hsdl⟩ := h
  obtain ⟨hmark, hbrackets⟩ := GraphQL.typeText_signs hany hfield.type
    (fun ref href => (hfield.references ref href).word) hsdl
  have hnativeArray := TypeScript.typeText_brackets hfield.type hfield.words hnative
  have hormArray := Mongoose.typeText_brackets hsuffix hfield.type hfield.words horm
  refine ⟨hpathName.trans hname.symm, hlineName.trans hname.symm, ?_, fun henforce => ?_,
    hnativeArray.trans hbrackets.symm, hormArray.trans hbrackets.symm⟩
  · rw [hmark, hoptional]
    simp
  · rw [hmark, hrequired, Mongoose.enforced, henforce, Bool.true_and]

theorem exists_rows {settings : Settings} {fields : List Field}
    {properties : List TypeScript.Property} {paths : List Mongoose.Path}
    {lines : List GraphQL.Line}
    (hproperties : List.Forall₂ TypeScript.Property.Shows fields properties)
    (hpaths : List.Forall₂ (Mongoose.Path.Shows settings) fields paths)
    (hlines : List.Forall₂ (GraphQL.Line.Shows settings) fields lines) :
    ∃ rows, properties = rows.map Row.property ∧ paths = rows.map Row.path
      ∧ lines = rows.map Row.line
      ∧ List.Forall₂ (fun field row => row.Shows settings field) fields rows := by
  induction hproperties generalizing paths lines with
  | nil =>
      cases hpaths
      cases hlines
      exact ⟨[], rfl, rfl, rfl, .nil⟩
  | cons hproperty _ ih =>
      cases hpaths with
      | cons hpath hpaths =>
          cases hlines with
          | cons hline hlines =>
              obtain ⟨rows, rfl, rfl, rfl, hall⟩ := ih hpaths hlines
              exact ⟨⟨_, _, _⟩ :: rows, rfl, rfl, rfl, .cons ⟨hproperty, hpath, hline⟩ hall⟩

theorem rows_agree {settings : Settings} (hsuffix : Word settings.ormSuffix.display)
    (hany : Word settings.graphqlAnyScalar.display) {fields : List Field} {rows : List Row}
    (hfields : ∀ field ∈ fields, field.Legible)
    (h : List.Forall₂ (fun field row => row.Shows settings field) fields rows) :
    rows.map (·.property.name) = fields.map Field.name ∧ ∀ row ∈ rows, row.Agrees settings := by
  induction h with
  | nil => simp
  | cons hrow _ ih =>
      obtain ⟨hfield, hfields⟩ := List.forall_mem_cons.mp hfields
      obtain ⟨hnames, hagree⟩ := ih hfields
      refine ⟨?_, List.forall_mem_cons.mpr ⟨hrow.agrees hsuffix hany hfield, hagree⟩⟩
      rw [List.map_cons, List.map_cons, hnames, hrow.property.1]

/-- Three scopes say the same about the types of a model. For a record they hold its fields from
the topmost ancestor downwards, for an enumeration its values. -/
structure ScopesAgree (settings : Settings) (m : Model)
    (native : Scope TypeScript.Property TypeScript.Member) (orm : Scope Mongoose.Path String)
    (sdl : Scope GraphQL.Line String) : Prop where
  records : ∀ name r, m.get? name = some (.record r) →
    ∃ (above : List String) (rows : List Row), m.Lineage name above
    ∧ Table.get? native.fields name = some (rows.map Row.property)
    ∧ Table.get? orm.fields (Mongoose.constantName settings name) = some (rows.map Row.path)
    ∧ Table.get? sdl.fields name = some (rows.map Row.line)
    ∧ rows.map (·.property.name) = (m.fieldsAlong (name :: above)).map Field.name
    ∧ ∀ row ∈ rows, row.Agrees settings
  enumerations : ∀ name e, m.get? name = some (.enumeration e) →
    Table.get? native.values name = some (e.values.map fun value => ⟨value, value⟩)
    ∧ Table.get? orm.values (Mongoose.constantName settings name) = some e.values
    ∧ Table.get? sdl.values name = some e.values

namespace Artifacts

variable {settings : Settings} {m : Model} {a : Artifacts}

/-- Scopes that describe a record hold the same fields for it, root first. -/
theorem Readable.record_rows (h : Readable settings m a) {done : List String}
    {native : Scope TypeScript.Property TypeScript.Member} {orm : Scope Mongoose.Path String}
    {sdl : Scope GraphQL.Line String} {member : String → TypeScript.Member}
    (hnative : Describes m id TypeScript.Property.Shows member done native)
    (horm : Describes m (Mongoose.constantName settings) (Mongoose.Path.Shows settings) id done orm)
    (hsdl : Describes m id (GraphQL.Line.Shows settings) id done sdl)
    {name : String} (hname : name ∈ done) {r : Record} (hr : m.get? name = some (.record r))
    {above : List String} (hchain : m.Lineage name above) :
    ∃ rows : List Row, Table.get? native.fields name = some (rows.map Row.property)
      ∧ Table.get? orm.fields (Mongoose.constantName settings name) = some (rows.map Row.path)
      ∧ Table.get? sdl.fields name = some (rows.map Row.line)
      ∧ rows.map (·.property.name) = (m.fieldsAlong (name :: above)).map Field.name
      ∧ ∀ row ∈ rows, row.Agrees settings := by
  obtain ⟨properties, hproperties, hnativeShows⟩ := hnative.records name hname r hr above hchain
  obtain ⟨paths, hpaths, hormShows⟩ := horm.records name hname r hr above hchain
  obtain ⟨lines, hlines, hsdlShows⟩ := hsdl.records name hname r hr above hchain
  obtain ⟨rows, rfl, rfl, rfl, hrows⟩ := exists_rows hnativeShows hormShows hsdlShows
  have hlegible : ∀ field ∈ m.fieldsAlong (name :: above), field.Legible := by
    intro field hfield
    obtain ⟨y, r', hr', hfield⟩ := Model.exists_of_mem_fieldsAlong hfield
    exact (h.legible y r' hr').fields field hfield
  exact ⟨rows, hproperties, hpaths, hlines,
    rows_agree h.plain.suffix.word h.plain.scalar.word hlegible hrows⟩

theorem Readable.scopes_agree (h : Readable settings m a) {done : List String}
    (hdone : ∀ name ∈ m.names, name ∈ done)
    {native : Scope TypeScript.Property TypeScript.Member} {orm : Scope Mongoose.Path String}
    {sdl : Scope GraphQL.Line String}
    (hnative : Describes m id TypeScript.Property.Shows (fun value => ⟨value, value⟩) done native)
    (horm : Describes m (Mongoose.constantName settings) (Mongoose.Path.Shows settings) id done orm)
    (hsdl : Describes m id (GraphQL.Line.Shows settings) id done sdl) :
    ScopesAgree settings m native orm sdl := by
  refine ⟨fun name r hr => ?_, fun name e he => ?_⟩
  · have hin := mem_names_of_get? hr
    obtain ⟨above, hchain⟩ := h.complete.lineages name hin
    obtain ⟨rows, hrows⟩ := h.record_rows hnative horm hsdl (hdone name hin) hr hchain
    exact ⟨above, rows, hchain, hrows⟩
  · have hin := hdone name (mem_names_of_get? he)
    have hormValues := horm.enumerations name hin e he
    have hsdlValues := hsdl.enumerations name hin e he
    rw [List.map_id] at hormValues hsdlValues
    exact ⟨hnative.enumerations name hin e he, hormValues, hsdlValues⟩

/-- The code of every accepted model whose names are identifiers can be read back in all three
targets, and the three agree. -/
theorem targets_agree {value : Value} (haccepted : (ofValue settings value).result = .ok a)
    (hread : (Model.read value).result = .ok m) (hplain : Identifiers settings m) :
    ∃ native orm sdl,
      Scope.ofCode? TypeScript.declaration? id TypeCode.native a.types = some native
      ∧ Scope.ofCode? Mongoose.declaration? (Mongoose.constantName settings) TypeCode.orm a.types
        = some orm
      ∧ Scope.ofCode? GraphQL.declaration? id TypeCode.sdl a.types = some sdl
      ∧ ScopesAgree settings m native orm sdl := by
  have h := readable_of_identifiers haccepted hread hplain
  have hchains : ∀ t ∈ a.types, ∃ above, m.Lineage t.name above := by
    intro t ht
    exact h.complete.lineages t.name (h.complete.covers.mem_iff.mp (List.mem_map_of_mem ht))
  obtain ⟨native, hnative, hnativeDescribes⟩ := Describes.ofCode h.wellFormed
    Function.injective_id (fun t ht => (h.declares ht).1) hchains h.complete.parentsFirst
  obtain ⟨orm, horm, hormDescribes⟩ := Describes.ofCode h.wellFormed
    (Mongoose.constantName_injective settings) (fun t ht => (h.declares ht).2.1) hchains
    h.complete.parentsFirst
  obtain ⟨sdl, hsdl, hsdlDescribes⟩ := Describes.ofCode h.wellFormed
    Function.injective_id (fun t ht => (h.declares ht).2.2) hchains h.complete.parentsFirst
  exact ⟨native, orm, sdl, hnative, horm, hsdl,
    h.scopes_agree (fun name hname => h.complete.covers.mem_iff.mpr hname) hnativeDescribes
      hormDescribes hsdlDescribes⟩

/-- A model with an alias, arrays, required fields and an enumeration. -/
def catalog : Value := .object [
  ("Copy", .object [("extends", .text "Item")]),
  ("Item", .object [("extends", .text "Entry"), ("fields", .object [
    ("kind", .object [("type", .text "Kind"), ("required", .bool true)]),
    ("parts", .object [("type", .text "array"), ("arrayType", .text "Item"),
      ("required", .bool true)])])]),
  ("Entry", .object [("meta", .object [("dbBase", .bool true)]), ("fields", .object [
    ("title", .text "string"),
    ("tags", .object [("type", .text "array"), ("arrayType", .text "any")])])]),
  ("Kind", .object [("values", .list [.text "BOOK", .text "FILM"])])]

def enforcing : Settings := { mongooseEnforceRequired := .bool true }

theorem catalog_identifiers {m : Model} (h : (Model.read catalog).result = .ok m) :
    Identifiers enforcing m := by
  have hread : (Model.read catalog).result.map Model.definitions = .ok [
      .record ⟨"Copy", [], some "Item", false⟩,
      .record ⟨"Item", [⟨"kind", .required (.reference "Kind")⟩,
        ⟨"parts", .required (.array (.reference "Item"))⟩], some "Entry", false⟩,
      .record ⟨"Entry", [⟨"title", .primitive "string"⟩, ⟨"tags", .array (.primitive "any")⟩],
        none, true⟩,
      .enumeration ⟨"Kind", ["BOOK", "FILM"]⟩] := rfl
  rw [h] at hread
  have hdefinitions := Except.ok.inj hread
  obtain ⟨entries, hvalue, hdefs, hm⟩ := read_eq_ok h
  obtain rfl := Value.object.inj hvalue
  have hrecords : ∀ name r, m.get? name = some (.record r) → ∀ field ∈ r.fields,
      (Text.PlainIdentifier field.name ∧ ∀ ref ∈ field.type.references, Text.PlainIdentifier ref)
        ∧ field.name ≠ "_id" := by
    intro name r hr
    have hmem : Definition.record r ∈ m.definitions := mem_definitions.mpr ⟨name, hr⟩
    rw [hdefinitions] at hmem
    simp only [List.mem_cons, Definition.record.injEq, reduceCtorEq, List.not_mem_nil,
      or_false] at hmem
    rcases hmem with rfl | rfl | rfl <;> decide
  refine ⟨fun name hname => ?_, fun name r hr field hfield => (hrecords name r hr field hfield).1,
    ?_, by decide, by decide⟩
  · have hall : ∀ name ∈ ["Copy", "Item", "Entry", "Kind"], Text.PlainIdentifier name := by decide
    exact hall name ((mem_names_of_readDefinitions hdefs).mp hname)
  · rintro name ⟨r, hr, field, hfield, hidentity⟩
    exact (hrecords name r hr field hfield).2 hidentity

theorem catalog_agrees : ∃ a m, (ofValue enforcing catalog).result = .ok a
    ∧ (Model.read catalog).result = .ok m
    ∧ ∃ native orm sdl,
      Scope.ofCode? TypeScript.declaration? id TypeCode.native a.types = some native
      ∧ Scope.ofCode? Mongoose.declaration? (Mongoose.constantName enforcing) TypeCode.orm a.types
        = some orm
      ∧ Scope.ofCode? GraphQL.declaration? id TypeCode.sdl a.types = some sdl
      ∧ ScopesAgree enforcing m native orm sdl := by
  obtain ⟨a, haccepted⟩ : ∃ a, (ofValue enforcing catalog).result = .ok a := ⟨_, rfl⟩
  obtain ⟨m, hread⟩ : ∃ m, (Model.read catalog).result = .ok m := ⟨_, rfl⟩
  exact ⟨a, m, haccepted, hread, targets_agree haccepted hread (catalog_identifiers hread)⟩

end Artifacts

end SchemaGen
