import SchemaGen.Proofs.Reading

/-!
# The grammar of definitions

Reading a definition is a sequence of checks that stops at the first broken
rule. `Writes` says the same without checks and without an order: which values
write a definition at all, and which one. Three keys decide between records
and enumerations by their presence alone. Everything else is about what stands
under a key, where a missing value, null and the values that count as no come
apart: all of them stand for the empty object, but only the first two for no
parent, and only the first for no parent in an enumeration.

Each reader has one lemma that equates its success with a relation of the
grammar, from tokens up to definitions. `read_grammar` puts them together with
the contract of the readers. A value writes one definition at most, and one
that writes none breaks a rule of the type that is being read.
-/

namespace SchemaGen

open SchemaGen.Json (Value Entries)

/-! ## Names and values -/

namespace Text

/-- A letter or an underscore, then letters, digits and underscores, and at most one line feed
behind them. -/
def NamePattern (s : String) : Prop :=
  ∃ first later, isNameStart first = true ∧ (∀ c ∈ later, isNameChar c = true)
    ∧ (s.toList = first :: later ∨ s.toList = first :: later ++ ['\n'])

theorem isGraphQLName_iff {s : String} : isGraphQLName s = true ↔ NamePattern s := by
  rw [isGraphQLName, isWord_dropFinalNewline_iff (by decide) (by decide)]
  constructor
  · rintro ⟨word, hword, hs⟩
    obtain ⟨first, later, rfl, hfirst, hlater⟩ := isWord_iff.mp hword
    exact ⟨first, later, hfirst, hlater, hs⟩
  · rintro ⟨first, later, hfirst, hlater, hs⟩
    exact ⟨_, isWord_iff.mpr ⟨first, later, rfl, hfirst, hlater⟩, hs⟩

theorem find?_isGraphQLName_eq_none {names : List String} :
    names.find? (!isGraphQLName ·) = none ↔ ∀ name ∈ names, NamePattern name := by
  simp only [List.find?_eq_none, ← isGraphQLName_iff, Bool.not_eq_true', Bool.not_eq_false]

end Text

namespace Json

/-- A value that counts as no. -/
inductive Value.FalseLike : Value → Prop
  | null : FalseLike .null
  | no : FalseLike (.bool false)
  | zero : FalseLike (.int 0)
  | realZero {x : Number.Binary64} : x.isZero = true → FalseLike (.real x)
  | emptyText : FalseLike (.text "")
  | emptyList : FalseLike (.list [])
  | emptyObject : FalseLike (.object [])

theorem Value.falseLike_iff {value : Value} : value.FalseLike ↔ value.truthy = false := by
  constructor
  · intro h
    cases h with
    | realZero hzero => simp [Value.truthy, hzero]
    | _ => rfl
  · intro h
    cases value with
    | null => exact .null
    | bool b =>
        obtain rfl : b = false := h
        exact .no
    | int n =>
        obtain rfl : n = 0 := by simpa [Value.truthy] using h
        exact .zero
    | real x => exact .realZero (by simpa [Value.truthy] using h)
    | text s =>
        obtain rfl : s = "" := by simpa [Value.truthy] using h
        exact .emptyText
    | list items =>
        obtain rfl : items = [] := by simpa [Value.truthy] using h
        exact .emptyList
    | object entries =>
        obtain rfl : entries = [] := by simpa [Value.truthy] using h
        exact .emptyObject

end Json

namespace Model

/-! ## The grammar -/

/-- Any text but the empty one and the word for arrays. -/
def IsToken (s : String) : Prop := s ≠ "" ∧ s ≠ "array"

/-- What a token names: one of the five primitives, or else a type of the model. -/
def FieldType.named (token : String) : FieldType :=
  if token ∈ FieldType.primitiveNames then .primitive token else .reference token

/-- There is a value under the key that does not count as no. -/
def Sets (entries : Entries) (key : String) : Prop :=
  ∃ value, Table.get? entries key = some value ∧ ¬value.FalseLike

/-- The shape that the object form of a field writes. -/
inductive WritesShape (info : Entries) : FieldType → Prop
  | plain {token : String} : Table.get? info "type" = some (.text token) → IsToken token →
      WritesShape info (.named token)
  | array {item : String} : Table.get? info "type" = some (.text "array") →
      Table.get? info "arrayType" = some (.text item) → IsToken item →
      WritesShape info (.array (.named item))

/-- The type that the value of a field writes. -/
inductive WritesType : Value → FieldType → Prop
  | token {token : String} : IsToken token → WritesType (.text token) (.named token)
  | optional {info : Entries} {shape : FieldType} : WritesShape info shape →
      ¬Sets info "required" → WritesType (.object info) shape
  | required {info : Entries} {shape : FieldType} : WritesShape info shape →
      Sets info "required" → WritesType (.object info) (.required shape)

/-- The entries that stand under a key. -/
inductive WritesEntries (raw : Entries) (key : String) : Entries → Prop
  | absent : Table.get? raw key = none → WritesEntries raw key []
  | falseLike {value : Value} : Table.get? raw key = some value → value.FalseLike →
      WritesEntries raw key []
  | object {entries : Entries} : Table.get? raw key = some (.object entries) →
      WritesEntries raw key entries

inductive WritesParent (raw : Entries) : Option String → Prop
  | absent : Table.get? raw "extends" = none → WritesParent raw none
  | null : Table.get? raw "extends" = some .null → WritesParent raw none
  | named {parent : String} : Table.get? raw "extends" = some (.text parent) → parent ≠ "" →
      WritesParent raw (some parent)

/-- The fields of a record, one for each entry and in their order. -/
def WritesFields (entries : Entries) (fields : List Field) : Prop :=
  (∀ key ∈ Table.keys entries, Text.NamePattern key)
    ∧ List.Forall₂ (fun entry field => field.name = entry.1 ∧ WritesType entry.2 field.type)
        entries fields

structure WritesRecord (typeName : String) (raw : Entries) (r : Record) : Prop where
  name : r.name = typeName
  fields : ∃ entries, WritesEntries raw "fields" entries ∧ WritesFields entries r.fields
  parent : WritesParent raw r.parent
  base : ∃ metadata, WritesEntries raw "meta" metadata ∧ (r.dbBase = true ↔ Sets metadata "dbBase")

/-- The definition that a value writes for a type. -/
inductive Writes (typeName : String) : Value → Definition → Prop
  | record {raw : Entries} {r : Record} : "fields" ∈ Table.keys raw →
      WritesRecord typeName raw r → Writes typeName (.object raw) (.record r)
  | extension {raw : Entries} {r : Record} : "fields" ∉ Table.keys raw →
      "values" ∉ Table.keys raw → "extends" ∈ Table.keys raw →
      WritesRecord typeName raw r → Writes typeName (.object raw) (.record r)
  | enumeration {raw : Entries} {values : List String} : "fields" ∉ Table.keys raw →
      Table.get? raw "values" = some (.list (values.map .text)) → values ≠ [] →
      (∀ value ∈ values, Text.NamePattern value) → "extends" ∉ Table.keys raw →
      Writes typeName (.object raw) (.enumeration ⟨typeName, values⟩)

/-! ## Field types -/

variable {typeName field : String} {raw info : Entries}

theorem readToken_eq_ok_iff {token : String} {type : FieldType} :
    readToken typeName field token = .ok type ↔ IsToken token ∧ type = .named token := by
  unfold readToken IsToken FieldType.named
  split
  · rename_i hempty
    simp [breaks, hempty]
  split
  · rename_i harray
    simp [breaks, harray]
  · rename_i hempty harray
    split <;> simp [hempty, harray, eq_comm]

theorem bind_text?_eq_some_iff {key text : String} :
    (Table.get? info key).bind Value.text? = some text
      ↔ Table.get? info key = some (.text text) := by
  rw [Option.bind_eq_some_iff]
  constructor
  · rintro ⟨value, hget, htext⟩
    cases value with
    | text s => rw [hget, Option.some.inj htext]
    | _ => cases htext
  · exact fun hget => ⟨_, hget, rfl⟩

theorem readShape_eq_ok_iff {shape : FieldType} :
    readShape typeName field info = .ok shape ↔ WritesShape info shape := by
  unfold readShape
  split
  · rename_i hnone
    have hno : ∀ text, Table.get? info "type" ≠ some (.text text) := by
      intro text hget
      cases hnone.symm.trans (bind_text?_eq_some_iff.mpr hget)
    refine ⟨nofun, fun h => ?_⟩
    cases h with
    | plain hget _ => exact absurd hget (hno _)
    | array hget _ _ => exact absurd hget (hno _)
  · rename_i token htoken
    rw [bind_text?_eq_some_iff] at htoken
    split
    · rename_i harray
      subst harray
      constructor
      · intro h
        split at h
        · cases h
        · rename_i item hitem
          obtain ⟨type, htype, rfl⟩ := map_eq_ok_iff.mp h
          obtain ⟨hvalid, rfl⟩ := readToken_eq_ok_iff.mp htype
          exact .array htoken (bind_text?_eq_some_iff.mp hitem) hvalid
      · intro h
        cases h with
        | plain hget hvalid =>
            obtain rfl := Value.text.inj (Option.some.inj (htoken.symm.trans hget))
            exact absurd rfl hvalid.2
        | array _ hitem hvalid =>
            rw [bind_text?_eq_some_iff.mpr hitem]
            exact map_eq_ok_iff.mpr ⟨_, readToken_eq_ok_iff.mpr ⟨hvalid, rfl⟩, rfl⟩
    · rename_i hplain
      rw [readToken_eq_ok_iff]
      constructor
      · rintro ⟨hvalid, rfl⟩
        exact .plain htoken hvalid
      · intro h
        cases h with
        | plain hget hvalid =>
            obtain rfl := Value.text.inj (Option.some.inj (htoken.symm.trans hget))
            exact ⟨hvalid, rfl⟩
        | array hget _ _ =>
            exact absurd (Value.text.inj (Option.some.inj (htoken.symm.trans hget))) hplain

theorem isSet_iff {key : String} : isSet info key = true ↔ Sets info key := by
  unfold isSet Sets
  cases Table.get? info key <;> simp [Value.falseLike_iff]

theorem FieldType.read_eq_ok_iff {value : Value} {type : FieldType} :
    FieldType.read typeName field value = .ok type ↔ WritesType value type := by
  unfold FieldType.read
  split
  · rename_i token
    rw [readToken_eq_ok_iff]
    constructor
    · rintro ⟨hvalid, rfl⟩
      exact .token hvalid
    · intro h
      cases h with
      | token hvalid => exact ⟨hvalid, rfl⟩
  · rename_i info
    simp only [map_eq_ok_iff, readShape_eq_ok_iff]
    constructor
    · rintro ⟨shape, hshape, rfl⟩
      split
      · rename_i hset
        exact .required hshape (isSet_iff.mp hset)
      · rename_i hset
        exact .optional hshape (isSet_iff.not.mp hset)
    · intro h
      cases h with
      | optional hshape hset => exact ⟨_, hshape, if_neg (isSet_iff.not.mpr hset)⟩
      | required hshape hset => exact ⟨_, hshape, if_pos (isSet_iff.mpr hset)⟩
  · rename_i htext hobject
    refine ⟨nofun, fun h => ?_⟩
    cases h with
    | token _ => exact absurd rfl (htext _)
    | optional _ _ => exact absurd rfl (hobject _)
    | required _ _ => exact absurd rfl (hobject _)

theorem readFields_eq_ok_iff {entries : Entries} {fields : List Field} :
    readFields typeName entries = .ok fields
      ↔ List.Forall₂ (fun entry field => field.name = entry.1 ∧ WritesType entry.2 field.type)
          entries fields := by
  induction entries generalizing fields with
  | nil =>
      rw [readFields, List.forall₂_nil_left_iff, Except.ok.injEq]
      exact eq_comm
  | cons entry entries ih =>
      obtain ⟨name, value⟩ := entry
      simp only [readFields, bind_eq_ok_iff, FieldType.read_eq_ok_iff, ih,
        List.forall₂_cons_left_iff]
      constructor
      · rintro ⟨type, htype, rest, hrest, hfields⟩
        exact ⟨⟨name, type⟩, rest, ⟨rfl, htype⟩, hrest, (Except.ok.inj hfields).symm⟩
      · rintro ⟨⟨_, type⟩, rest, ⟨rfl, htype⟩, hrest, rfl⟩
        exact ⟨type, htype, rest, hrest, rfl⟩

/-! ## Definitions -/

theorem objectAt?_eq_some_iff {key : String} {entries : Entries} :
    objectAt? raw key = some entries ↔ WritesEntries raw key entries := by
  unfold objectAt?
  constructor
  · intro h
    split at h
    · rename_i hnone
      obtain rfl := Option.some.inj h
      exact .absent hnone
    · rename_i value hget
      split at h
      · cases value with
        | object found =>
            obtain rfl := Option.some.inj h
            exact .object hget
        | _ => cases h
      · rename_i hfalse
        obtain rfl := Option.some.inj h
        exact .falseLike hget (Value.falseLike_iff.mpr (by simpa using hfalse))
  · intro h
    cases h with
    | absent hnone => rw [hnone]
    | falseLike hget hfalse =>
        have hno := Value.falseLike_iff.mp hfalse
        simp only [hget, hno, Bool.false_eq_true, if_false]
    | object hget => cases entries <;> simp [hget, Value.truthy, Value.entries?]

theorem readParent_eq_ok_iff {parent : Option String} :
    readParent typeName raw = .ok parent ↔ WritesParent raw parent := by
  unfold readParent
  constructor
  · intro h
    split at h
    · rename_i hnone
      obtain rfl := Except.ok.inj h
      exact .absent hnone
    · rename_i hnull
      obtain rfl := Except.ok.inj h
      exact .null hnull
    · rename_i hget
      split at h
      · cases h
      · rename_i hne
        obtain rfl := Except.ok.inj h
        exact .named hget hne
    · cases h
  · intro h
    cases h with
    | absent hnone => simp only [hnone]
    | null hnull => simp only [hnull]
    | named hget hne => simp only [hget, if_neg hne]

theorem Record.read_eq_ok_iff {r : Record} :
    Record.read typeName raw = .ok r ↔ WritesRecord typeName raw r := by
  constructor
  · intro h
    unfold Record.read at h
    split at h
    · rename_i entries hentries
      obtain ⟨parent, hparent, h⟩ := bind_eq_ok_iff.mp h
      split at h
      · rename_i metadata hmetadata
        split at h
        · cases h
        rename_i hnames
        obtain ⟨fields, hfields, h⟩ := bind_eq_ok_iff.mp h
        obtain rfl := Except.ok.inj h
        have hpattern := Text.find?_isGraphQLName_eq_none.mp
          (Option.eq_none_iff_forall_ne_some.mpr hnames)
        exact {
          name := rfl
          fields := ⟨entries, objectAt?_eq_some_iff.mp hentries, hpattern,
            readFields_eq_ok_iff.mp hfields⟩
          parent := readParent_eq_ok_iff.mp hparent
          base := ⟨metadata, objectAt?_eq_some_iff.mp hmetadata, isSet_iff⟩ }
      · cases h
    · cases h
  · intro h
    obtain ⟨entries, hentries, hpattern, hfields⟩ := h.fields
    obtain ⟨metadata, hmetadata, hbase⟩ := h.base
    have hset : isSet metadata "dbBase" = r.dbBase :=
      Bool.eq_iff_iff.mpr (isSet_iff.trans hbase.symm)
    unfold Record.read
    simp only [objectAt?_eq_some_iff.mpr hentries, readParent_eq_ok_iff.mpr h.parent,
      objectAt?_eq_some_iff.mpr hmetadata, Text.find?_isGraphQLName_eq_none.mpr hpattern,
      readFields_eq_ok_iff.mpr hfields, hset, ← h.name]
    rfl

theorem textItems?_eq_some_iff {value : Value} {texts : List String} :
    textItems? value = some texts ↔ value = .list (texts.map .text) := by
  constructor
  · intro h
    cases value with
    | list items =>
        refine congrArg Value.list ?_
        change items.mapM Value.text? = some texts at h
        induction items generalizing texts with
        | nil =>
            obtain rfl := Option.some.inj h
            rfl
        | cons item items ih =>
            rw [List.mapM_cons] at h
            obtain ⟨text, htext, h⟩ := Option.bind_eq_some_iff.mp h
            obtain ⟨rest, hrest, h⟩ := Option.bind_eq_some_iff.mp h
            obtain rfl := Option.some.inj h
            cases item with
            | text s => rw [List.map_cons, ← ih hrest, Option.some.inj htext]
            | _ => cases htext
    | _ => cases h
  · rintro rfl
    show (texts.map Value.text).mapM Value.text? = some texts
    induction texts with
    | nil => rfl
    | cons text texts ih =>
        rw [List.map_cons, List.mapM_cons, ih]
        rfl

theorem Enumeration.read_eq_ok_iff {value : Value} {e : Enumeration} :
    Enumeration.read typeName raw value = .ok e
      ↔ e.name = typeName ∧ value = .list (e.values.map .text) ∧ e.values ≠ []
        ∧ (∀ text ∈ e.values, Text.NamePattern text) ∧ "extends" ∉ Table.keys raw := by
  constructor
  · intro h
    unfold Enumeration.read at h
    split at h
    · rename_i values hvalues
      dsimp only at h
      split at h
      · cases h
      rename_i hnonempty
      split at h
      · cases h
      rename_i hnames
      split at h
      · cases h
      rename_i hextends
      obtain rfl := Except.ok.inj h
      refine ⟨rfl, textItems?_eq_some_iff.mp hvalues, by simpa using hnonempty, ?_, ?_⟩
      · exact Text.find?_isGraphQLName_eq_none.mp (Option.eq_none_iff_forall_ne_some.mpr hnames)
      · exact Table.contains_iff.not.mp hextends
    · cases h
  · rintro ⟨rfl, hvalue, hnonempty, hpattern, hextends⟩
    have hnoparent : Table.contains raw "extends" = false :=
      Bool.eq_false_iff.mpr (Table.contains_iff.not.mpr hextends)
    have hsome : e.values.isEmpty = false := by simpa using hnonempty
    unfold Enumeration.read
    simp only [textItems?_eq_some_iff.mpr hvalue, hsome,
      Text.find?_isGraphQLName_eq_none.mpr hpattern, hnoparent]
    rfl

theorem Definition.read_eq_ok_iff {value : Value} {d : Definition} :
    Definition.read typeName value = .ok d ↔ Writes typeName value d := by
  have hkey : ∀ {raw : Entries} {key : String},
      Table.contains raw key = false ↔ key ∉ Table.keys raw := by
    intro raw key
    rw [← Table.contains_iff, Bool.not_eq_true]
  constructor
  · intro h
    unfold Definition.read at h
    split at h
    · split at h
      · rename_i hfields
        obtain ⟨r, hr, rfl⟩ := map_eq_ok_iff.mp h
        exact .record (Table.contains_iff.mp hfields) (Record.read_eq_ok_iff.mp hr)
      · rename_i values hfields hvalues
        obtain ⟨⟨name, texts⟩, he, rfl⟩ := map_eq_ok_iff.mp h
        obtain ⟨rfl, rfl, hnonempty, hpattern, hextends⟩ := Enumeration.read_eq_ok_iff.mp he
        exact .enumeration (hkey.mp hfields) hvalues hnonempty hpattern hextends
      · rename_i hfields hvalues hextends
        obtain ⟨r, hr, rfl⟩ := map_eq_ok_iff.mp h
        exact .extension (hkey.mp hfields) (Table.get?_eq_none.mp hvalues)
          (Table.contains_iff.mp hextends) (Record.read_eq_ok_iff.mp hr)
      · cases h
    · cases h
  · intro h
    cases h with
    | record hfields hr =>
        simp only [Definition.read, Table.contains_iff.mpr hfields]
        exact map_eq_ok_iff.mpr ⟨_, Record.read_eq_ok_iff.mpr hr, rfl⟩
    | extension hfields hvalues hextends hr =>
        simp only [Definition.read, hkey.mpr hfields, Table.get?_eq_none.mpr hvalues,
          Table.contains_iff.mpr hextends]
        exact map_eq_ok_iff.mpr ⟨_, Record.read_eq_ok_iff.mpr hr, rfl⟩
    | enumeration hfields hvalues hnonempty hpattern hextends =>
        simp only [Definition.read, hkey.mpr hfields, hvalues]
        exact map_eq_ok_iff.mpr
          ⟨_, Enumeration.read_eq_ok_iff.mpr ⟨rfl, rfl, hnonempty, hpattern, hextends⟩, rfl⟩

-- null is no parent for a record, but not for an enumeration
example : Definition.read "Role" (.object [("values", .list [.text "OWNER"]), ("extends", .null)])
    = breaks "Role" .enumerationExtends := by
  decide

/-- Reading gives a definition or names a rule that the type breaks, and it gives exactly the
definitions that the grammar writes. -/
theorem read_grammar (typeName : String) (raw : Value) :
    ((∃ d, Definition.read typeName raw = .ok d)
        ∨ ∃ rule, Definition.read typeName raw = .error (.invalidDefinition typeName rule))
      ∧ ∀ d, Definition.read typeName raw = .ok d ↔ Writes typeName raw d := by
  refine ⟨?_, fun d => Definition.read_eq_ok_iff⟩
  have hreads := Definition.read_reads typeName raw
  generalize Definition.read typeName raw = result at hreads
  cases hreads with
  | value _ => exact Or.inl ⟨_, rfl⟩
  | broken rule => exact Or.inr ⟨rule, rfl⟩

end Model

end SchemaGen
