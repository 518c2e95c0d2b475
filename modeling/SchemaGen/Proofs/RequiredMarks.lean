import SchemaGen.Proofs.Generation
import SchemaGen.Proofs.Tables

/-!
# What the mark of a required field decides

The mark may stand at any depth of a field type, and in a raw model it is a
key of the object that describes a field. Each target drops it in its own
way: below arrays, in front of them, or not at all. `eraseMarks` takes the
marks out of a type and of everything that holds types, and
`withoutRequired` takes the key out of a raw model. Reading goes well with
both: the raw model without the keys is read as the model without the marks
(`read_withoutRequired`).

Two models that are equal without their marks are then built side by side.
Both builds stop with the same fault, or both succeed (`EndAlike`). The
trees are equal and so is the ORM code, as long as it does not enforce
anything. In the registry of GraphQL lines only the names agree, which is
enough for the next step. The native code shows the mark by a sign behind
the name of a property and nowhere else (`TypeScript.SameButSigns`).

Types and definitions that are put together by hand are not left out.
Nothing here asks a model to be well-formed.
-/

namespace SchemaGen

open SchemaGen.Json (Value Entries)

/-! ## Two runs that end alike -/

/-- The same fault, or values that are related. -/
inductive EndAlike {ε α β : Type} (R : α → β → Prop) : Except ε α → Except ε β → Prop
  | faults (fault : ε) : EndAlike R (.error fault) (.error fault)
  | values {a : α} {b : β} : R a b → EndAlike R (.ok a) (.ok b)

namespace EndAlike

variable {ε α β γ δ : Type} {R : α → β → Prop} {Q : γ → δ → Prop} {x : Except ε α}
  {y : Except ε β}

theorem bind {f : α → Except ε γ} {g : β → Except ε δ} (hx : EndAlike R x y)
    (h : ∀ a b, R a b → EndAlike Q (f a) (g b)) : EndAlike Q (x >>= f) (y >>= g) := by
  cases hx with
  | faults fault => exact .faults fault
  | values hab => exact h _ _ hab

theorem map {f : α → γ} {g : β → δ} (hx : EndAlike R x y) (h : ∀ a b, R a b → Q (f a) (g b)) :
    EndAlike Q (x.map f) (y.map g) := by
  cases hx with
  | faults fault => exact .faults fault
  | values hab => exact .values (h _ _ hab)

theorem imp {S : α → β → Prop} (hx : EndAlike R x y) (h : ∀ a b, R a b → S a b) :
    EndAlike S x y := by
  cases hx with
  | faults fault => exact .faults fault
  | values hab => exact .values (h _ _ hab)

/-- Results that become equal end alike. -/
theorem of_map_eq {f : α → γ} {g : β → γ} (h : x.map f = y.map g) :
    EndAlike (fun a b => f a = g b) x y := by
  cases x <;> cases y <;> simp only [Except.map, reduceCtorEq] at h
  · rw [Except.error.inj h]
    exact .faults _
  · exact .values (Except.ok.inj h)

theorem of_eq {x y : Except ε α} (h : x = y) : EndAlike (fun a b => a = b) x y :=
  of_map_eq (congrArg (Except.map id) h)

theorem eq {x y : Except ε α} (h : EndAlike (fun a b => a = b) x y) : x = y := by
  cases h with
  | faults fault => rfl
  | values hab => rw [hab]

/-- Lists of items that end alike one by one end alike. -/
theorem mapM {f : α → Except ε γ} {g : β → Except ε δ} {items : List α} {items' : List β}
    (hitems : List.Forall₂ R items items') (h : ∀ a b, R a b → EndAlike Q (f a) (g b)) :
    EndAlike (List.Forall₂ Q) (items.mapM f) (items'.mapM g) := by
  induction hitems with
  | nil => exact .values .nil
  | cons hfirst _ ih =>
      rw [List.mapM_cons, List.mapM_cons]
      refine (h _ _ hfirst).bind fun _ _ hfirst => ih.bind fun _ _ hrest => ?_
      exact .values (.cons hfirst hrest)

end EndAlike

namespace Model

/-! ## Types without marks -/

/-- A field type less all marks of a required field. -/
def FieldType.eraseMarks : FieldType → FieldType
  | .shapeless => .shapeless
  | .primitive name => .primitive name
  | .reference name => .reference name
  | .array item => .array item.eraseMarks
  | .required inner => inner.eraseMarks

/-- A field less the marks in its type. -/
def Field.eraseMarks (field : Field) : Field := { field with type := field.type.eraseMarks }

/-- A record less the marks in the types of its fields. -/
def Record.eraseMarks (r : Record) : Record := { r with fields := r.fields.map Field.eraseMarks }

/-- A definition less the marks in it. -/
def Definition.eraseMarks : Definition → Definition
  | .record r => .record r.eraseMarks
  | .enumeration e => .enumeration e
  | .bare name => .bare name

/-- A model less the marks in its definitions. -/
def eraseMarks (m : Model) : Model where
  table := Table.mapValues (fun _ => Definition.eraseMarks) m.table
  distinct := by
    rw [Table.keys_mapValues]
    exact m.distinct

variable {d d' : Definition}

@[simp] theorem FieldType.eraseMarks_unwrap (type : FieldType) :
    type.unwrap.eraseMarks = type.eraseMarks := by
  induction type with
  | required inner ih => exact ih
  | shapeless => rfl
  | primitive name => rfl
  | reference name => rfl
  | array item _ => rfl

/-- Below the outermost marks there is an array if there is one after erasing all of them. -/
theorem FieldType.isArray_unwrap (type : FieldType) :
    type.unwrap.isArray = type.eraseMarks.isArray := by
  induction type with
  | required inner ih => exact ih
  | shapeless => rfl
  | primitive name => rfl
  | reference name => rfl
  | array item _ => rfl

theorem FieldType.references_eraseMarks (type : FieldType) :
    type.eraseMarks.references = type.references := by
  induction type with
  | required inner ih => exact ih
  | array item ih => exact ih
  | shapeless => rfl
  | primitive name => rfl
  | reference name => rfl

/-- Fields that are equal without marks, one by one. -/
def FieldsSameButMarks (fields fields' : List Field) : Prop :=
  List.Forall₂ (fun field field' => Field.eraseMarks field = Field.eraseMarks field')
    fields fields'

/-- Two definitions that are equal without marks. Only records have any. -/
inductive Definition.SameButMarks : Definition → Definition → Prop
  | record {r : Record} {fields : List Field} : FieldsSameButMarks r.fields fields →
      SameButMarks (.record r) (.record { r with fields := fields })
  | enumeration (e : Enumeration) : SameButMarks (.enumeration e) (.enumeration e)
  | bare (name : String) : SameButMarks (.bare name) (.bare name)

theorem Definition.sameButMarks_of_eq (h : d.eraseMarks = d'.eraseMarks) : d.SameButMarks d' := by
  cases d with
  | record r =>
      cases d' with
      | record r' =>
          obtain ⟨name, own, parent, base⟩ := r
          obtain ⟨name', own', parent', base'⟩ := r'
          obtain ⟨rfl, hfields, rfl, rfl⟩ := Record.mk.inj (Definition.record.inj h)
          rw [← List.forall₂_eq_eq_eq, List.forall₂_map_left_iff, List.forall₂_map_right_iff]
            at hfields
          exact .record hfields
      | _ => cases h
  | enumeration e =>
      cases d' with
      | enumeration e' =>
          obtain rfl := Definition.enumeration.inj h
          exact .enumeration e
      | _ => cases h
  | bare name =>
      cases d' with
      | bare name' =>
          obtain rfl := Definition.bare.inj h
          exact .bare name
      | _ => cases h

theorem Definition.parent?_eraseMarks (d : Definition) : d.eraseMarks.parent? = d.parent? := by
  cases d <;> rfl

@[simp] theorem names_eraseMarks (m : Model) : m.eraseMarks.names = m.names :=
  Table.keys_mapValues (fun _ => Definition.eraseMarks) m.table

theorem get?_eraseMarks (m : Model) (name : String) :
    m.eraseMarks.get? name = (m.get? name).map Definition.eraseMarks :=
  Table.get?_mapValues (fun _ => Definition.eraseMarks) m.table name

theorem contains_eraseMarks (m : Model) (name : String) :
    m.eraseMarks.contains name = m.contains name :=
  Table.contains_mapValues (fun _ => Definition.eraseMarks) m.table name

theorem eraseMarks_set (m : Model) (name : String) (d : Definition) :
    (m.set name d).eraseMarks = m.eraseMarks.set name d.eraseMarks := by
  rw [eraseMarks, set, Model.mk.injEq]
  exact Table.mapValues_set _ _ _ _

end Model

/-! ## Reading a raw model without the keys -/

namespace Model

/-- The value of a field less its key `required`. -/
def fieldWithoutRequired : Value → Value
  | .object info => .object (info.filter fun e => e.1 ≠ "required")
  | value => value

/-- The fields of a record less the key `required` of each. -/
def fieldsWithoutRequired : Value → Value
  | .object fields => .object (Table.mapValues (fun _ => fieldWithoutRequired) fields)
  | value => value

/-- The entries of a definition less the keys `required` of its fields. -/
def entriesWithoutRequired (raw : Entries) : Entries :=
  Table.mapValues (fun key => if key = "fields" then fieldsWithoutRequired else id) raw

/-- A definition less the keys `required` of its fields. -/
def definitionWithoutRequired : Value → Value
  | .object raw => .object (entriesWithoutRequired raw)
  | value => value

/-- A raw model less the keys `required` of all fields in it. -/
def withoutRequired : Value → Value
  | .object entries => .object (Table.mapValues (fun _ => definitionWithoutRequired) entries)
  | value => value

theorem readToken_eraseMarks (typeName field token : String) :
    (readToken typeName field token).map FieldType.eraseMarks
      = readToken typeName field token := by
  unfold readToken
  split
  · rfl
  split
  · rfl
  split <;> rfl

theorem readShape_withoutRequired (typeName field : String) (info : Entries) :
    readShape typeName field (info.filter fun e => e.1 ≠ "required")
      = (readShape typeName field info).map FieldType.eraseMarks := by
  unfold readShape
  rw [Table.get?_filter (· ≠ "required") (by decide),
    Table.get?_filter (· ≠ "required") (by decide)]
  split
  · rfl
  split
  · split
    · rfl
    · rename_i item _
      conv_lhs => rw [← readToken_eraseMarks]
      cases readToken typeName field item <;> rfl
  · exact (readToken_eraseMarks ..).symm

theorem FieldType.read_withoutRequired (typeName field : String) (info : Value) :
    FieldType.read typeName field (fieldWithoutRequired info)
      = (FieldType.read typeName field info).map FieldType.eraseMarks := by
  cases info with
  | text token => exact (readToken_eraseMarks ..).symm
  | object info =>
      have hunset : isSet (info.filter fun e => e.1 ≠ "required") "required" = false := by
        rw [isSet, Table.get?_eq_none.mpr]
        · rfl
        · simp [Table.keys]
      simp only [fieldWithoutRequired, FieldType.read, hunset, readShape_withoutRequired]
      cases readShape typeName field info with
      | error fault => rfl
      | ok shape => cases isSet info "required" <;> rfl
  | _ => rfl

theorem readFields_withoutRequired (typeName : String) (fields : Entries) :
    readFields typeName (Table.mapValues (fun _ => fieldWithoutRequired) fields)
      = (readFields typeName fields).map (List.map Field.eraseMarks) := by
  induction fields with
  | nil => rfl
  | cons entry fields ih =>
      obtain ⟨name, info⟩ := entry
      rw [Table.mapValues_cons, readFields, readFields, FieldType.read_withoutRequired, ih]
      cases FieldType.read typeName name info with
      | error fault => rfl
      | ok type => cases readFields typeName fields <;> rfl

theorem get?_entriesWithoutRequired {key : String} (h : key ≠ "fields") (raw : Entries) :
    Table.get? (entriesWithoutRequired raw) key = Table.get? raw key := by
  rw [entriesWithoutRequired, Table.get?_mapValues, if_neg h, Option.map_id_fun, id]

theorem objectAt?_fields (raw : Entries) :
    objectAt? (entriesWithoutRequired raw) "fields"
      = (objectAt? raw "fields").map (Table.mapValues fun _ => fieldWithoutRequired) := by
  unfold objectAt? entriesWithoutRequired
  rw [Table.get?_mapValues, if_pos rfl]
  cases Table.get? raw "fields" with
  | none => rfl
  | some value =>
      cases value with
      | object fields => cases fields <;> rfl
      | _ =>
          simp only [Option.map_some, fieldsWithoutRequired]
          split <;> rfl

theorem Record.read_withoutRequired (typeName : String) (raw : Entries) :
    Record.read typeName (entriesWithoutRequired raw)
      = (Record.read typeName raw).map Record.eraseMarks := by
  have hparent : readParent typeName (entriesWithoutRequired raw) = readParent typeName raw := by
    rw [readParent, readParent, get?_entriesWithoutRequired (by decide)]
  have hmeta : objectAt? (entriesWithoutRequired raw) "meta" = objectAt? raw "meta" := by
    rw [objectAt?, objectAt?, get?_entriesWithoutRequired (by decide)]
  unfold Record.read
  rw [objectAt?_fields, hparent, hmeta]
  cases objectAt? raw "fields" with
  | none => rfl
  | some fields =>
      cases readParent typeName raw with
      | error fault => rfl
      | ok parent =>
          cases objectAt? raw "meta" with
          | none => rfl
          | some metadata =>
              simp only [Option.map_some, Table.keys_mapValues, readFields_withoutRequired]
              cases (Table.keys fields).find? (!Text.isGraphQLName ·) with
              | some bad => rfl
              | none => cases readFields typeName fields <;> rfl

theorem Definition.read_withoutRequired (typeName : String) (raw : Value) :
    Definition.read typeName (definitionWithoutRequired raw)
      = (Definition.read typeName raw).map Definition.eraseMarks := by
  cases raw with
  | object raw =>
      have hcontains : ∀ key, Table.contains (entriesWithoutRequired raw) key
          = Table.contains raw key := Table.contains_mapValues _ raw
      have henum : ∀ values, Enumeration.read typeName (entriesWithoutRequired raw) values
          = Enumeration.read typeName raw values := fun values => by
        rw [Enumeration.read, Enumeration.read, hcontains]
      simp only [definitionWithoutRequired, Definition.read, hcontains, henum,
        get?_entriesWithoutRequired (show "values" ≠ "fields" by decide),
        Record.read_withoutRequired]
      split
      · cases Record.read typeName raw <;> rfl
      · rename_i values _ _
        cases Enumeration.read typeName raw values <;> rfl
      · cases Record.read typeName raw <;> rfl
      · rfl
  | _ => rfl

theorem foldlM_read_withoutRequired (entries : Entries) (m : Model) :
    (Table.mapValues (fun _ => definitionWithoutRequired) entries).foldlM
        (fun (m : Model) (e : String × Value) => return m.set e.1 (← Definition.read e.1 e.2))
        m.eraseMarks
      = Except.map eraseMarks (entries.foldlM
          (fun (m : Model) (e : String × Value) => return m.set e.1 (← Definition.read e.1 e.2))
          m) := by
  induction entries generalizing m with
  | nil => rfl
  | cons entry entries ih =>
      rw [Table.mapValues_cons, List.foldlM_cons, List.foldlM_cons, Definition.read_withoutRequired]
      cases Definition.read entry.1 entry.2 with
      | error fault => rfl
      | ok d =>
          have hrest := ih (m.set entry.1 d)
          rw [eraseMarks_set] at hrest
          exact hrest

/-- The check of the references does not look at marks. -/
theorem checkDefinition_eraseMarks (m : Model) (d : Definition) :
    m.eraseMarks.checkDefinition d.eraseMarks = m.checkDefinition d := by
  cases d with
  | record r =>
      have henum : m.eraseMarks.extendedEnumeration? r.eraseMarks = m.extendedEnumeration? r := by
        unfold extendedEnumeration?
        rw [show r.eraseMarks.namedParent? = r.namedParent? from rfl]
        cases r.namedParent? with
        | none => rfl
        | some parent =>
            rw [Option.bind_some, Option.bind_some, get?_eraseMarks]
            rcases m.get? parent with _ | ⟨_ | _ | _⟩ <;> rfl
      have hunknown : m.eraseMarks.unknownReferences r.eraseMarks = m.unknownReferences r := by
        unfold unknownReferences
        rw [Record.eraseMarks, List.flatMap_map]
        refine List.flatMap_congr fun field _ => ?_
        simp only [Field.eraseMarks, FieldType.references_eraseMarks, contains_eraseMarks]
      rw [Definition.eraseMarks, checkDefinition, checkDefinition, henum, hunknown]
      rfl
  | enumeration e => rfl
  | bare name => rfl

theorem checkReferences_eraseMarks (m : Model) :
    m.eraseMarks.checkReferences = m.checkReferences := by
  have hdefinitions : m.eraseMarks.definitions = m.definitions.map Definition.eraseMarks := by
    simp [definitions, eraseMarks, Table.mapValues]
  unfold checkReferences
  rw [hdefinitions]
  induction m.definitions with
  | nil => rfl
  | cons d rest ih =>
      rw [List.map_cons]
      show m.eraseMarks.checkDefinition d.eraseMarks >>= _ = m.checkDefinition d >>= _
      rw [checkDefinition_eraseMarks]
      exact congrArg _ (funext fun _ => ih)

/-- Without the keys, a raw model is read as the model without the marks. -/
theorem read_withoutRequired (value : Value) :
    (read (withoutRequired value)).result = (read value).result.map eraseMarks := by
  cases value with
  | object entries =>
      have hdefs : readDefinitions (Table.mapValues (fun _ => definitionWithoutRequired) entries)
          = (readDefinitions entries).map eraseMarks := foldlM_read_withoutRequired entries empty
      simp only [withoutRequired, read, hdefs, Traced.bind_result]
      cases readDefinitions entries with
      | error fault => rfl
      | ok m =>
          show (m.eraseMarks.checkReferences.result >>= fun _ => .ok m.eraseMarks) = _
          rw [checkReferences_eraseMarks]
          show _ = Except.map eraseMarks (m.checkReferences.result >>= fun _ => .ok m)
          cases m.checkReferences.result <;> rfl
  | _ => rfl

end Model

open SchemaGen.Model

/-! ## Trees -/

namespace Hierarchy

/-- The tree of a model does not look at marks. -/
theorem ofModel_eraseMarks (m : Model) : ofModel m.eraseMarks = ofModel m := by
  have hparent : modelParent m.eraseMarks = modelParent m := by
    funext name
    rw [modelParent, modelParent, get?_eraseMarks]
    cases m.get? name with
    | none => rfl
    | some d => exact d.parent?_eraseMarks
  have hclimb : ∀ (t : Hierarchy) fuel climbed current,
      climb m.eraseMarks t.contains fuel climbed current
        = climb m t.contains fuel climbed current := by
    intro t fuel
    induction fuel with
    | zero => exact fun _ _ => rfl
    | succ fuel ih =>
        intro climbed current
        unfold climb
        rw [get?_eraseMarks]
        cases m.get? current with
        | none => rfl
        | some d => simp only [Option.map_some, d.parent?_eraseMarks, contains_eraseMarks, ih]
  have hinsert : insert m.eraseMarks = insert m := by
    funext t name
    unfold insert missing attach
    rw [hclimb, names_eraseMarks, hparent]
  rw [ofModel, ofModel, names_eraseMarks, hinsert]

end Hierarchy

/-! ## Code in the three targets -/

namespace TypeScript

theorem typeText_eraseMarks (type : FieldType) : typeText type.eraseMarks = typeText type := by
  induction type with
  | required inner ih => exact ih
  | array item ih => exact congrArg (Except.map (· ++ "[]")) ih
  | shapeless => rfl
  | primitive name => rfl
  | reference name => rfl

/-- The line of a property, with or without the sign of an optional one behind its name. -/
def signedLine (name text : String) (optional : Bool) : String :=
  Json.propertyName name ++ (if optional then "?" else "") ++ ": " ++ text ++ ";"

/-- Lines of the same property, each with or without the sign. -/
inductive SameButSign : String → String → Prop
  | property (name text : String) (optional optional' : Bool) :
      SameButSign (signedLine name text optional) (signedLine name text optional')

/-- Code that is the same but for signs behind the names of properties. -/
inductive SameButSigns : String → String → Prop
  | same (code : String) : SameButSigns code code
  | interface {head : String} {lines lines' : List String} :
      List.Forall₂ SameButSign lines lines' →
        SameButSigns (Text.block head lines "\x7d") (Text.block head lines' "\x7d")

theorem fieldLine_eq (field : Field) : fieldLine field
    = (typeText field.type).map fun text => signedLine field.name text !field.type.isRequired := by
  unfold fieldLine signedLine
  cases field.type.isRequired <;> rfl

theorem fieldLine_alike {field field' : Field} (h : field.eraseMarks = field'.eraseMarks) :
    EndAlike SameButSign (fieldLine field) (fieldLine field') := by
  obtain ⟨hname, htype⟩ := Field.mk.inj h
  have htext : typeText field.type = typeText field'.type := by
    rw [← typeText_eraseMarks, htype, typeText_eraseMarks]
  rw [fieldLine_eq, fieldLine_eq]
  refine (EndAlike.of_eq htext).map fun text text' heq => ?_
  rw [hname, heq]
  exact .property ..

theorem code_alike {d d' : Definition} (h : d.SameButMarks d') :
    EndAlike SameButSigns (code d) (code d') := by
  cases h with
  | @record r fields hfields =>
      obtain ⟨name, own, parent, base⟩ := r
      cases hfields with
      | nil => cases parent <;> exact .values (.same _)
      | cons hfirst hrest =>
          refine EndAlike.bind (EndAlike.mapM (.cons hfirst hrest) fun _ _ => fieldLine_alike) ?_
          exact fun _ _ hlines => .values (.interface hlines)
  | enumeration e => exact .values (.same _)
  | bare name => exact .faults _

end TypeScript

namespace Mongoose

variable {settings : Settings}

theorem typeText_eraseMarks (settings : Settings) (type : FieldType) :
    typeText settings type.eraseMarks = typeText settings type := by
  induction type with
  | required inner ih => exact ih
  | array item ih => exact congrArg (Except.map fun text => "[" ++ text ++ "]") ih
  | shapeless => rfl
  | primitive name => rfl
  | reference name => rfl

/-- Where presence is not enforced, the value of a path is settled by the type without marks. -/
theorem pathValue_eq_of_eraseMarks_eq (hoff : settings.mongooseEnforceRequired.truthy = false)
    {type type' : FieldType} (h : type.eraseMarks = type'.eraseMarks) :
    pathValue settings type = pathValue settings type' := by
  have henforced : ∀ type, enforced settings type = false := fun type => by
    rw [enforced, hoff, Bool.false_and]
  have htext : typeText settings type.unwrap = typeText settings type'.unwrap := by
    rw [← typeText_eraseMarks, ← typeText_eraseMarks settings type'.unwrap,
      FieldType.eraseMarks_unwrap, FieldType.eraseMarks_unwrap, h]
  simp only [pathValue, henforced, htext, FieldType.isArray_unwrap, h]

theorem code_eq_of_sameButMarks (hoff : settings.mongooseEnforceRequired.truthy = false)
    {d d' : Definition} (h : d.SameButMarks d') : code settings d = code settings d' := by
  cases h with
  | @record r fields hfields =>
      have hline : ∀ field field', Field.eraseMarks field = Field.eraseMarks field' →
          EndAlike (fun line line' => line = line') (fieldLine settings field)
            (fieldLine settings field') := fun field field' hfield => by
        obtain ⟨hname, htype⟩ := Field.mk.inj hfield
        rw [fieldLine, fieldLine, hname, pathValue_eq_of_eraseMarks_eq hoff htype]
        exact .of_eq rfl
      have hlines : r.fields.mapM (fieldLine settings) = fields.mapM (fieldLine settings) := by
        refine ((EndAlike.mapM hfields hline).imp fun _ _ hsame => ?_).eq
        rwa [List.forall₂_eq_eq_eq] at hsame
      obtain ⟨name, own, parent, base⟩ := r
      cases hfields with
      | nil => rfl
      | cons _ _ =>
          simp only [code, recordCode, hlines]
          rfl
  | enumeration e => rfl
  | bare name => rfl

end Mongoose

namespace GraphQL

variable {settings : Settings} {kept kept' : FieldLines}

/-- Whether a field type can be written, and with which fault it cannot, is not a matter of
marks. -/
theorem typeValue_eraseMarks (settings : Settings) (type : FieldType) :
    (typeValue settings type.eraseMarks).map (fun _ => ())
      = (typeValue settings type).map fun _ => () := by
  have hdropped : ∀ {α β : Type} (x : Except Fault α) (f : α → β),
      (x.map f).map (fun _ => ()) = x.map fun _ => () := by
    intro α β x f
    cases x <;> rfl
  induction type with
  | required inner ih =>
      rw [FieldType.eraseMarks, ih, typeValue, hdropped]
  | array item ih =>
      rw [FieldType.eraseMarks, typeValue, typeValue, hdropped, hdropped, ih]
  | shapeless => rfl
  | primitive name => rfl
  | reference name => rfl

theorem fieldLine_alike {field field' : Field} (h : field.eraseMarks = field'.eraseMarks) :
    EndAlike (fun _ _ => True) (fieldLine settings field) (fieldLine settings field') := by
  obtain ⟨-, htype⟩ := Field.mk.inj h
  have hvalue : (typeValue settings field.type).map (fun _ => ())
      = (typeValue settings field'.type).map fun _ => () := by
    rw [← typeValue_eraseMarks, htype, typeValue_eraseMarks]
  have htext : EndAlike (fun _ _ => True) (typeText settings field.type)
      (typeText settings field'.type) :=
    (EndAlike.of_map_eq hvalue).map fun _ _ _ => trivial
  exact htext.map fun _ _ _ => trivial

theorem linesOf_alike (hkept : Table.keys kept = Table.keys kept') (name : String) :
    EndAlike (fun _ _ => True) (FieldLines.linesOf kept name)
      (FieldLines.linesOf kept' name) := by
  have hsome : (Table.get? kept name).isSome = (Table.get? kept' name).isSome := by
    rw [Bool.eq_iff_iff, Table.get?_isSome, Table.get?_isSome, hkept]
  unfold FieldLines.linesOf
  cases hget : Table.get? kept name <;> cases hget' : Table.get? kept' name <;>
    simp only [hget, hget', Option.isSome_none, Option.isSome_some, reduceCtorEq] at hsome
  · exact .faults _
  · exact .values trivial

theorem keep_alike (hkept : Table.keys kept = Table.keys kept') (name : String)
    (lines lines' : List String) :
    EndAlike (fun after after' => Table.keys after = Table.keys after')
      (FieldLines.keep kept name lines) (FieldLines.keep kept' name lines') := by
  have hcontains : Table.contains kept name = Table.contains kept' name := by
    rw [Bool.eq_iff_iff, Table.contains_iff, Table.contains_iff, hkept]
  unfold FieldLines.keep
  rw [hcontains]
  split
  · exact .faults _
  · exact .values (by rw [Table.keys_append, Table.keys_append, hkept]; rfl)

theorem recordLines_alike (hkept : Table.keys kept = Table.keys kept') {r : Record}
    {fields : List Field}
    (hfields : FieldsSameButMarks r.fields fields) :
    EndAlike (fun _ _ => True) (recordLines settings kept r)
      (recordLines settings kept' { r with fields := fields }) := by
  have hinherited : EndAlike (fun _ _ => True) (inheritedLines kept r)
      (inheritedLines kept' { r with fields := fields }) := by
    unfold inheritedLines
    cases r.parent with
    | none => exact .values trivial
    | some parent => exact (linesOf_alike hkept parent).map fun _ _ _ => trivial
  refine hinherited.bind fun _ _ _ => ?_
  refine (EndAlike.mapM hfields fun _ _ => fieldLine_alike).bind fun _ _ _ => ?_
  exact .values trivial

/-- From registries with the same names, code that is equal without marks leads to registries with
the same names. -/
theorem code_alike (hkept : Table.keys kept = Table.keys kept') {d d' : Definition}
    (h : d.SameButMarks d') :
    EndAlike (fun written written' => Table.keys written.2 = Table.keys written'.2)
      (code settings kept d).result (code settings kept' d').result := by
  cases h with
  | @record r fields hfields =>
      rw [code_record_result, code_record_result]
      refine (recordLines_alike hkept hfields).bind fun lines lines' _ => ?_
      refine (keep_alike hkept r.name lines lines').bind fun _ _ hafter => ?_
      exact .values hafter
  | enumeration e => exact .values hkept
  | bare name => exact .faults _

end GraphQL

/-! ## Artifacts -/

/-- The code of a type that is the same but for signs in the native code. The GraphQL code is not
compared. -/
structure TypeCode.SameButSigns (t t' : TypeCode) : Prop where
  name : t.name = t'.name
  native : TypeScript.SameButSigns t.native t'.native
  orm : t.orm = t'.orm

namespace Artifacts

variable {settings : Settings} {m m' : Model}

theorem generateTypes_alike (hoff : settings.mongooseEnforceRequired.truthy = false)
    (hm : m.eraseMarks = m'.eraseMarks) {kept kept' : GraphQL.FieldLines}
    (hkept : Table.keys kept = Table.keys kept') (names : List String) :
    EndAlike (List.Forall₂ TypeCode.SameButSigns) (generateTypes settings m kept names).result
      (generateTypes settings m' kept' names).result := by
  induction names generalizing kept kept' with
  | nil => exact .values .nil
  | cons name names ih =>
      have hget := congrArg (Model.get? · name) hm
      simp only [get?_eraseMarks] at hget
      unfold generateTypes
      cases hd : m.get? name with
      | none =>
          have hd' : m'.get? name = none := by simpa [hd] using hget.symm
          rw [hd']
          exact .faults _
      | some d =>
          obtain ⟨d', hd', hsame⟩ : ∃ d', m'.get? name = some d' ∧ d.SameButMarks d' := by
            rw [hd, Option.map_some] at hget
            obtain ⟨d', hd', heq⟩ := Option.map_eq_some_iff.mp hget.symm
            exact ⟨d', hd', Definition.sameButMarks_of_eq heq.symm⟩
          rw [hd']
          simp only [Traced.bind_result]
          refine EndAlike.bind (.of_eq rfl) fun _ _ _ => ?_
          refine (TypeScript.code_alike hsame).bind fun native native' hnative => ?_
          refine EndAlike.bind (.of_eq (Mongoose.code_eq_of_sameButMarks hoff hsame)) ?_
          intro orm orm' horm
          refine (GraphQL.code_alike hkept hsame).bind fun written written' hwritten => ?_
          refine (ih hwritten).bind fun _ _ hrest => ?_
          exact .values (.cons ⟨rfl, hnative, horm⟩ hrest)

/-- Artifacts with the same types in the same order, where the ORM code is the same and the native
code is the same but for signs. -/
structure SameButSigns (a a' : Artifacts) : Prop where
  names : a.types.map TypeCode.name = a'.types.map TypeCode.name
  natives : List.Forall₂ TypeScript.SameButSigns (a.types.map TypeCode.native)
    (a'.types.map TypeCode.native)
  orms : a.types.map TypeCode.orm = a'.types.map TypeCode.orm

theorem sameButSigns_of_types {types types' : List TypeCode}
    (h : List.Forall₂ TypeCode.SameButSigns types types') :
    SameButSigns (ofTypes settings types) (ofTypes settings types') := by
  refine ⟨?_, ?_, ?_⟩
  · show types.map TypeCode.name = types'.map TypeCode.name
    rw [← List.forall₂_eq_eq_eq, List.forall₂_map_left_iff, List.forall₂_map_right_iff]
    exact h.imp fun _ _ => TypeCode.SameButSigns.name
  · show List.Forall₂ _ (types.map TypeCode.native) (types'.map TypeCode.native)
    rw [List.forall₂_map_left_iff, List.forall₂_map_right_iff]
    exact h.imp fun _ _ => TypeCode.SameButSigns.native
  · show types.map TypeCode.orm = types'.map TypeCode.orm
    rw [← List.forall₂_eq_eq_eq, List.forall₂_map_left_iff, List.forall₂_map_right_iff]
    exact h.imp fun _ _ => TypeCode.SameButSigns.orm

/-- Models that are equal without marks are built with the same fault or with artifacts that are
the same but for signs. -/
theorem ofModel_alike (hoff : settings.mongooseEnforceRequired.truthy = false)
    (hm : m.eraseMarks = m'.eraseMarks) :
    EndAlike SameButSigns (ofModel settings m).result (ofModel settings m').result := by
  have htree : Hierarchy.ofModel m = Hierarchy.ofModel m' := by
    rw [← Hierarchy.ofModel_eraseMarks, hm, Hierarchy.ofModel_eraseMarks]
  unfold ofModel
  simp only [Traced.bind_result, htree]
  refine EndAlike.bind (.of_eq rfl) fun tree _ hsame => ?_
  subst hsame
  refine (generateTypes_alike hoff hm rfl _).bind fun _ _ htypes => ?_
  exact .values (sameButSigns_of_types htypes)

/-- Whether a field is required shows in the sign behind its name in the native code, and not
anywhere else in the native or, unless it is enforced, the ORM code. Field types that are equal
without marks have the same translations or the same faults there. Raw models that are equal
without the key `required` of their fields have the same fault, or the same types with the same
ORM code and with native code that is the same but for those signs. -/
theorem marks_show_as_signs (settings : Settings) :
    (∀ type type' : FieldType, type.eraseMarks = type'.eraseMarks →
        TypeScript.typeText type = TypeScript.typeText type')
      ∧ (settings.mongooseEnforceRequired.truthy = false →
        (∀ type type' : FieldType, type.eraseMarks = type'.eraseMarks →
          Mongoose.pathValue settings type = Mongoose.pathValue settings type')
        ∧ ∀ value value' : Value, withoutRequired value = withoutRequired value' →
          EndAlike SameButSigns (ofValue settings value).result
            (ofValue settings value').result) := by
  refine ⟨fun type type' h => ?_, fun hoff => ⟨fun type type' => ?_, fun value value' h => ?_⟩⟩
  · rw [← TypeScript.typeText_eraseMarks, h, TypeScript.typeText_eraseMarks]
  · exact Mongoose.pathValue_eq_of_eraseMarks_eq hoff
  · have hread : (Model.read value).result.map eraseMarks
        = (Model.read value').result.map eraseMarks := by
      rw [← read_withoutRequired, h, read_withoutRequired]
    unfold ofValue
    simp only [Traced.bind_result]
    exact (EndAlike.of_map_eq hread).bind fun _ _ hm => ofModel_alike hoff hm

/-- An order with fields of all sorts, some of them required. -/
def order : Value := .object [
  ("Order", .object [("fields", .object [
    ("lines", .object [("type", .text "array"), ("arrayType", .text "Line"),
      ("required", .bool true)]),
    ("total", .object [("required", .text "yes"), ("type", .text "number")]),
    ("note", .text "string")])]),
  ("Refund", .object [("extends", .text "Order")])]

/-- The same order with other fields required. -/
def looseOrder : Value := .object [
  ("Order", .object [("fields", .object [
    ("lines", .object [("required", .int 0), ("type", .text "array"),
      ("arrayType", .text "Line")]),
    ("total", .object [("type", .text "number")]),
    ("note", .text "string")])]),
  ("Refund", .object [("extends", .text "Order")])]

theorem order_signs :
    (FieldType.array (.required .shapeless)).eraseMarks
        = (FieldType.required (.array .shapeless)).eraseMarks
      ∧ TypeScript.typeText (.array (.required .shapeless))
        = TypeScript.typeText (.required (.array .shapeless))
      ∧ ({} : Settings).mongooseEnforceRequired.truthy = false
      ∧ Mongoose.pathValue {} (.array (.required (.reference "Line")))
        = Mongoose.pathValue {} (.required (.array (.reference "Line")))
      ∧ withoutRequired order = withoutRequired looseOrder
      ∧ ∃ a a', (ofValue {} order).result = .ok a ∧ (ofValue {} looseOrder).result = .ok a'
        ∧ a.SameButSigns a' ∧ a ≠ a' := by
  obtain ⟨htypes, hrest⟩ := marks_show_as_signs {}
  obtain ⟨hpaths, hmodels⟩ := hrest rfl
  have halike := hmodels order looseOrder (by decide)
  obtain ⟨a, ha⟩ : ∃ a, (ofValue {} order).result = .ok a := ⟨_, rfl⟩
  obtain ⟨a', ha'⟩ : ∃ a', (ofValue {} looseOrder).result = .ok a' := ⟨_, rfl⟩
  have hne : (ofValue {} order).result ≠ (ofValue {} looseOrder).result := by
    decide +kernel
  rw [ha, ha'] at halike hne
  cases halike with
  | values hsame =>
      refine ⟨rfl, htypes _ _ rfl, rfl, hpaths _ _ rfl, by decide, a, a', ha, ha', hsame, ?_⟩
      rintro rfl
      exact hne rfl

end Artifacts

end SchemaGen
