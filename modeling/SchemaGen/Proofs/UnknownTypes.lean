import SchemaGen.Proofs.Grammar
import SchemaGen.Proofs.Tables

/-!
# Types that are mentioned and not defined

When all definitions of a model have been read, each field is looked at once
more: a type that it mentions and that the model does not have is reported.
`unknownTypes` says what is reported on a type from what its value writes,
without reading it. A field writes one token, under whichever of its forms,
and it is reported when the token is neither a primitive nor a key of the
model.

The reading proceeds by parsed definitions, in the order in which the model
lists them. `readDefinitions_entries` says that this is the order of the
entries, one definition for each key, so the reports follow entry by entry
(`unknownReferences_eq`). Since the check comes last, a type may be mentioned
before its own entry.
-/

namespace SchemaGen

open SchemaGen.Json (Value Entries)

/-- Checks that pass report one after the other. -/
theorem Traced.forM_events {α : Type} {check : α → Traced Unit} {items : List α}
    (h : (items.forM check).result = .ok ()) :
    (items.forM check).events = items.flatMap fun item => (check item).events := by
  induction items with
  | nil => rfl
  | cons item items ih =>
      have hrun : (item :: items).forM check = (check item >>= fun _ => items.forM check) := rfl
      rw [hrun] at h ⊢
      rw [bind_result] at h
      obtain ⟨_, hitem, hrest⟩ := bind_eq_ok_iff.mp h
      rw [bind_events_of_ok hitem, List.flatMap_cons, ih hrest]

namespace Model

variable {m : Model} {typeName : String} {entries : Entries}

/-! ## What a field mentions -/

/-- The field type mentions a type, at any depth. -/
inductive FieldType.Mentions (name : String) : FieldType → Prop
  | reference : Mentions name (.reference name)
  | array {item : FieldType} : Mentions name item → Mentions name (.array item)
  | required {inner : FieldType} : Mentions name inner → Mentions name (.required inner)

theorem FieldType.mem_references_iff {name : String} {type : FieldType} :
    name ∈ type.references ↔ type.Mentions name := by
  induction type with
  | reference other =>
      rw [references, List.mem_singleton]
      constructor
      · rintro rfl
        exact .reference
      · rintro ⟨⟩
        rfl
  | array item ih =>
      rw [references, ih]
      exact ⟨.array, fun h => by cases h; assumption⟩
  | required inner ih =>
      rw [references, ih]
      exact ⟨.required, fun h => by cases h; assumption⟩
  | shapeless => exact ⟨nofun, nofun⟩
  | primitive other => exact ⟨nofun, nofun⟩

/-- The token that a field writes for its type: its own text, or the text under `type`, which gives
way to the one under `arrayType` where it is the word for arrays. -/
def typeToken? : Value → Option String
  | .text token => some token
  | .object info =>
    match Table.get? info "type" with
    | some (.text token) =>
      if token = "array" then (Table.get? info "arrayType").bind Value.text? else some token
    | _ => none
  | _ => none

/-- The report on a field of a type, where its token is neither a primitive nor a known type. -/
def unknownType? (known : List String) (typeName : String) (entry : String × Value) :
    Option Event :=
  (typeToken? entry.2).bind fun token =>
    if token ∈ FieldType.primitiveNames ∨ token ∈ known then none
    else some (.unknownReference typeName entry.1 token)

/-- The fields that the value of a type writes. -/
def writtenFields : Value → Entries
  | .object raw =>
    match Table.get? raw "fields" with
    | some (.object fields) => fields
    | _ => []
  | _ => []

/-- The reports on a type, in the order of its fields. -/
def unknownTypes (known : List String) (typeName : String) (raw : Value) : List Event :=
  (writtenFields raw).filterMap (unknownType? known typeName)

example : unknownTypes ["Tag"] "Post" (.object [("fields", .object [
      ("tag", .text "Tag"), ("title", .text "string"),
      ("by", .object [("type", .text "array"), ("arrayType", .text "Person")])])])
    = [.unknownReference "Post" "by" "Person"] := by
  decide

/-! ## One definition -/

theorem FieldType.references_named (token : String) : (FieldType.named token).references
    = if token ∈ FieldType.primitiveNames then [] else [token] := by
  unfold FieldType.named
  split <;> rfl

theorem WritesShape.typeToken {info : Entries} {shape : FieldType} (h : WritesShape info shape) :
    ∃ token, typeToken? (.object info) = some token
      ∧ shape.references = (FieldType.named token).references := by
  cases h with
  | plain hget hvalid => exact ⟨_, by simp [typeToken?, hget, hvalid.2], rfl⟩
  | array hget hitem _ => exact ⟨_, by simp [typeToken?, hget, hitem, Value.text?], rfl⟩

/-- All that a field mentions is what its token names. -/
theorem WritesType.typeToken {value : Value} {type : FieldType} (h : WritesType value type) :
    ∃ token, typeToken? value = some token
      ∧ type.references = (FieldType.named token).references := by
  cases h with
  | token _ => exact ⟨_, rfl, rfl⟩
  | optional hshape _ => exact hshape.typeToken
  | required hshape _ => exact hshape.typeToken

theorem WritesType.reports {value : Value} {type : FieldType} (h : WritesType value type)
    (typeName field : String) :
    (type.references.filter (!m.contains ·)).map (.unknownReference typeName field)
      = (unknownType? m.names typeName (field, value)).toList := by
  obtain ⟨token, htoken, hreferences⟩ := h.typeToken
  have hcontains : m.contains token = true ↔ token ∈ m.names := contains_iff
  rw [hreferences, FieldType.references_named, unknownType?, htoken, Option.bind_some]
  by_cases hprimitive : token ∈ FieldType.primitiveNames
  · simp [hprimitive]
  · by_cases hknown : token ∈ m.names
    · simp [hprimitive, hknown, hcontains.mpr hknown]
    · simp [hprimitive, hknown, Bool.eq_false_iff.mpr (hcontains.not.mpr hknown)]

/-- The fields of a record stand under one key, or nowhere if the key writes no entries. -/
theorem WritesEntries.writtenFields {raw fields : Entries} (h : WritesEntries raw "fields" fields) :
    writtenFields (.object raw) = fields := by
  cases h with
  | absent hnone => simp [Model.writtenFields, hnone]
  | falseLike hget hfalse => cases hfalse <;> simp [Model.writtenFields, hget]
  | object hget => simp [Model.writtenFields, hget]

theorem WritesFields.reports {raw : Entries} {fields : List Field} (h : WritesFields raw fields)
    (typeName : String) :
    (fields.flatMap fun field =>
        (field.type.references.filter (!m.contains ·)).map (.unknownReference typeName field.name))
      = raw.filterMap (unknownType? m.names typeName) := by
  obtain ⟨-, hall⟩ := h
  rw [List.filterMap_eq_flatMap_toList]
  induction hall with
  | nil => rfl
  | @cons entry field raw fields hfirst _ ih =>
      obtain ⟨hname, htype⟩ := hfirst
      rw [List.flatMap_cons, List.flatMap_cons, ih, htype.reports, hname]

/-- A record that passes the check has its unknown types reported. -/
theorem checkDefinition_events {r : Record}
    (hok : (m.checkDefinition (.record r)).result = .ok ()) :
    (m.checkDefinition (.record r)).events = m.unknownReferences r := by
  simp only [checkDefinition] at hok ⊢
  split at hok
  · cases hok
  · rfl

/-- What is reported on a definition can be told from its value. -/
theorem Writes.reports {raw : Value} {d : Definition} (h : Writes typeName raw d)
    (hok : (m.checkDefinition d).result = .ok ()) :
    (m.checkDefinition d).events = unknownTypes m.names typeName raw := by
  have hrecord : ∀ {raw : Entries} {r : Record}, WritesRecord typeName raw r →
      (m.checkDefinition (.record r)).result = .ok () →
      (m.checkDefinition (.record r)).events = unknownTypes m.names typeName (.object raw) := by
    intro raw r hr hok
    obtain ⟨fields, hentries, hfields⟩ := hr.fields
    rw [checkDefinition_events hok, unknownReferences, hr.name, unknownTypes,
      hentries.writtenFields]
    exact hfields.reports typeName
  cases h with
  | record _ hr => exact hrecord hr hok
  | extension _ _ _ hr => exact hrecord hr hok
  | enumeration hfields _ _ _ _ =>
      rw [unknownTypes, writtenFields, Table.get?_eq_none.mpr hfields]
      rfl

/-! ## All definitions -/

theorem foldlM_read_entries {old : Entries}
    (hold : List.Forall₂ (fun e e' => e.1 = e'.1 ∧ Definition.read e.1 e.2 = .ok e'.2) old m.table)
    {m' : Model}
    (h : entries.foldlM (fun m e => return m.set e.1 (← Definition.read e.1 e.2)) m = .ok m') :
    List.Forall₂ (fun e e' => e.1 = e'.1 ∧ Definition.read e.1 e.2 = .ok e'.2)
      (Table.setAll old entries) m'.table := by
  induction entries generalizing old m with
  | nil =>
      obtain rfl := Except.ok.inj h
      exact hold
  | cons entry entries ih =>
      rw [List.foldlM_cons] at h
      obtain ⟨next, hnext, hrest⟩ := bind_eq_ok_iff.mp h
      obtain ⟨d, hd, hset⟩ := bind_eq_ok_iff.mp hnext
      obtain rfl := Except.ok.inj hset
      have hnext := @Table.forall₂_set _ _ (fun name raw d => Definition.read name raw = .ok d)
        old m.table hold entry.1 entry.2 d hd
      exact ih hnext hrest

/-- The definitions of a model stand in the order of its entries, one for each key. Where a key is
repeated, its last value counts, at the place of the first. -/
theorem readDefinitions_entries (h : readDefinitions entries = .ok m) :
    List.Forall₂ (fun e e' => e.1 = e'.1 ∧ Definition.read e.1 e.2 = .ok e'.2)
      (Table.setAll [] entries) m.table :=
  foldlM_read_entries .nil h

/-- A check that passes passes each definition and reports on one after the other. -/
theorem checkReferences_passes (hok : m.checkReferences.result = .ok ()) :
    (∀ d ∈ m.definitions, (m.checkDefinition d).result = .ok ())
      ∧ m.checkReferences.events = m.definitions.flatMap fun d => (m.checkDefinition d).events := by
  refine ⟨?_, Traced.forM_events hok⟩
  rcases Traced.forM_ends m.checkDefinition m.definitions with ⟨-, hall⟩ | ⟨_, _, _, _, herror⟩
  · exact hall
  · cases herror.symm.trans hok

theorem checkReferences_events (h : readDefinitions entries = .ok m)
    (hok : m.checkReferences.result = .ok ()) :
    m.checkReferences.events
      = (Table.setAll [] entries).flatMap fun e => unknownTypes m.names e.1 e.2 := by
  have hentries := readDefinitions_entries h
  obtain ⟨hall, hevents⟩ := checkReferences_passes hok
  have hpass : ∀ e ∈ m.table, (m.checkDefinition e.2).result = .ok () :=
    fun e he => hall e.2 (List.mem_map_of_mem he)
  rw [hevents, definitions, List.flatMap_map]
  generalize Table.setAll [] entries = written at hentries
  generalize m.table = table at hentries hpass
  induction hentries with
  | nil => rfl
  | cons hfirst _ ih =>
      obtain ⟨hname, hread⟩ := hfirst
      obtain ⟨hpass, hrest⟩ := List.forall_mem_cons.mp hpass
      rw [List.flatMap_cons, List.flatMap_cons, ih hrest,
        (Definition.read_eq_ok_iff.mp hread).reports hpass]

/-- Where nothing is reported, every type that is mentioned is there. -/
theorem contains_of_mentions (hok : m.checkReferences.result = .ok ())
    (hnone : m.checkReferences.events = []) {r : Record} (hr : m.get? typeName = some (.record r))
    {field : Field} (hfield : field ∈ r.fields) {mentioned : String}
    (h : field.type.Mentions mentioned) : m.contains mentioned = true := by
  obtain ⟨hall, hevents⟩ := checkReferences_passes hok
  have hd : .record r ∈ m.definitions := mem_definitions.mpr ⟨typeName, hr⟩
  have hsilent : m.unknownReferences r = [] := by
    rw [← checkDefinition_events (hall _ hd)]
    exact List.flatMap_eq_nil_iff.mp (hevents.symm.trans hnone) _ hd
  have hfiltered := List.map_eq_nil_iff.mp (List.flatMap_eq_nil_iff.mp hsilent field hfield)
  have hknown := List.filter_eq_nil_iff.mp hfiltered mentioned (FieldType.mem_references_iff.mpr h)
  simpa using hknown

theorem unknownTypes_congr {known known' : List String} (h : ∀ name, name ∈ known ↔ name ∈ known')
    (typeName : String) (raw : Value) :
    unknownTypes known typeName raw = unknownTypes known' typeName raw := by
  refine List.filterMap_congr fun entry _ => ?_
  simp only [unknownType?, h]

/-- Reading reports on the fields whose tokens are neither primitives nor keys of the model, once
for each of them, in the order of the types and of their fields, and on nothing else. If it reports
nothing, every type that a field mentions at any depth is defined, wherever in the model that is.
Entries with distinct keys are what `Table.setAll` makes of them. -/
theorem read_reports_unknown {value : Value} (h : (read value).result = .ok m) :
    ∃ entries, value = .object entries
      ∧ (read value).events
        = ((Table.setAll [] entries).flatMap fun e => unknownTypes (Table.keys entries) e.1 e.2)
      ∧ ((read value).events = [] →
        ∀ name r, m.get? name = some (.record r) → ∀ field ∈ r.fields,
          ∀ mentioned, field.type.Mentions mentioned → ∃ d, m.get? mentioned = some d) := by
  obtain ⟨entries, rfl, hdefs, hm⟩ := read_eq_ok h
  have hok : m.checkReferences.result = .ok () := by
    rcases checkReferences_ends hm.shaped with ⟨hok, -⟩ | ⟨henum, -⟩
    · exact hok
    · exact absurd henum hm.inherits
  have hread : (read (.object entries)).events = m.checkReferences.events := by
    have hlift : (readDefinitions entries).mapError Fault.schema = .ok m := by
      rw [hdefs]
      rfl
    show ((liftM ((readDefinitions entries).mapError Fault.schema) : Traced Model)
      >>= fun m => m.checkReferences >>= fun _ => pure m).events = _
    rw [Traced.liftM_bind_of_ok hlift, Traced.bind_events_of_ok hok]
    exact List.append_nil _
  refine ⟨entries, rfl, ?_, fun hnone name r hr field hfield mentioned hmentions => ?_⟩
  · rw [hread, checkReferences_events hdefs hok]
    refine List.flatMap_congr fun e _ => ?_
    exact unknownTypes_congr (fun _ => mem_names_of_readDefinitions hdefs) e.1 e.2
  · rw [hread] at hnone
    exact exists_get? (contains_iff.mp (contains_of_mentions hok hnone hr hfield hmentions))

/-- Loans, whose books are defined behind them and whose readers are not. -/
def lending : Value := .object [
  ("Loan", .object [("fields", .object [
    ("book", .text "Book"),
    ("by", .object [("type", .text "array"), ("arrayType", .text "Reader"),
      ("required", .bool true)]),
    ("due", .text "Date")])]),
  ("Book", .object [("fields", .object [
    ("title", .text "string"),
    ("copies", .object [("type", .text "array"), ("arrayType", .text "Copy")])])]),
  ("Shelf", .object [("values", .list [.text "LOWER", .text "UPPER"])])]

/-- Baskets of books, which are defined behind them. -/
def baskets : Value := .object [
  ("Basket", .object [("fields", .object [
    ("books", .object [("type", .text "array"), ("arrayType", .text "Book"),
      ("required", .bool true)])])]),
  ("Book", .object [("fields", .object [("title", .text "string")])])]

theorem lending_reported :
    (read lending).events = [.unknownReference "Loan" "by" "Reader",
        .unknownReference "Loan" "due" "Date", .unknownReference "Book" "copies" "Copy"]
      ∧ (read baskets).events = []
      ∧ ∃ m, (read baskets).result = .ok m
        ∧ (FieldType.required (.array (.reference "Book"))).Mentions "Book"
        ∧ ∃ d, m.get? "Book" = some d := by
  obtain ⟨m, hm⟩ : ∃ m, (read lending).result = .ok m := ⟨_, rfl⟩
  obtain ⟨entries, hvalue, hevents, -⟩ := read_reports_unknown hm
  obtain rfl := Value.object.inj hvalue
  obtain ⟨m', r, hm', hr⟩ : ∃ m r, (read baskets).result = .ok m
      ∧ m.get? "Basket" = some (.record r)
      ∧ r.fields = [⟨"books", .required (.array (.reference "Book"))⟩] := ⟨_, _, rfl, rfl, rfl⟩
  obtain ⟨hget, hfields⟩ := hr
  have hsilent : (read baskets).events = [] := rfl
  have hmentions : (FieldType.required (.array (.reference "Book"))).Mentions "Book" :=
    .required (.array .reference)
  obtain ⟨_, -, -, hknown⟩ := read_reports_unknown hm'
  refine ⟨hevents.trans (by decide), hsilent, m', hm', hmentions, ?_⟩
  exact hknown hsilent "Basket" r hget _ (hfields ▸ List.mem_cons_self ..) "Book" hmentions

end Model

end SchemaGen
