import SchemaGen.Model.References
import SchemaGen.Proofs.Lineage

/-!
# What reading a model ensures

A model can be put together by hand in shapes that have no written form.
`WellFormed` is what reading rules out: a definition bears the name under
which it stands, field types are built from known primitives, names of
fields and enum values are GraphQL names, and no record extends an
enumeration. The three targets are total on such models.

`Reads` is the contract of every function that reads a part of a
definition: it gives a value with a property, or names a broken rule of the
type that is being read, and fails in no other way. What is said of field
types on this way is `Spelled`, which is narrower than what the targets
need: an entry writes at most one array and one mark of a required field.
`read_ends` describes the outcomes of reading a whole object. The only failure that no single
definition accounts for is a record that extends an enumeration
(`ExtendsEnumeration`); unknown field types never end the reading.
-/

namespace SchemaGen

open SchemaGen.Json (Value Entries)

/-! ## Characters of names -/

theorem Text.mem_dropFinalNewline {l : List Char} {c : Char} (h : c ∈ l) :
    c ∈ Text.dropFinalNewline l ∨ c = '\n' := by
  rcases Text.dropFinalNewline_cases l with hl | hl
  · exact Or.inl (hl ▸ h)
  · rw [hl] at h
    exact (List.mem_append.mp h).imp_right List.mem_singleton.mp

/-- Apart from a line feed at its end, a GraphQL name has name characters only. -/
theorem Text.mem_of_isGraphQLName {s : String} (h : Text.isGraphQLName s = true) {c : Char}
    (hc : c ∈ s.toList) : Text.isNameChar c = true ∨ c = '\n' := by
  refine (Text.mem_dropFinalNewline hc).imp_left fun hmem => ?_
  rcases Text.mem_of_isWord h hmem with hfirst | hlater
  · exact Text.isNameChar_of_isNameStart hfirst
  · exact hlater

theorem Text.isIdentifier_of_isGraphQLName {s : String} (h : Text.isGraphQLName s = true) :
    Text.isIdentifier s = true := by
  obtain ⟨first, later, hs, hfirst, hlater⟩ := Text.isWord_iff.mp h
  refine Text.isWord_iff.mpr ⟨first, later, hs, by simp [hfirst], fun c hc => ?_⟩
  simp [hlater c hc]

/-- A GraphQL name holds no line feed, or one at its very end. -/
theorem Text.isGraphQLName_cases {s : String} (h : Text.isGraphQLName s = true) :
    '\n' ∉ s.toList ∨ ∃ word, s.toList = word ++ ['\n'] ∧ '\n' ∉ word := by
  obtain ⟨word, hword, hs⟩ := (Text.isWord_dropFinalNewline_iff (by decide) (by decide)).mp h
  have hfree : '\n' ∉ word := fun hmem =>
    (Text.mem_of_isWord hword hmem).elim (by decide) (by decide)
  rcases hs with hs | hs
  · exact Or.inl (by rwa [hs])
  · exact Or.inr ⟨word, hs, hfree⟩

namespace Model

/-- A field type that a token or an object can write. -/
def FieldType.Written : FieldType → Prop
  | .shapeless => False
  | .primitive name => name ∈ FieldType.primitiveNames
  | .reference _ => True
  | .array item => item.Written
  | .required inner => inner.Written

/-- What a token names: a primitive or a type of the model. -/
inductive FieldType.Token : FieldType → Prop
  | primitive {name : String} : name ∈ FieldType.primitiveNames → Token (.primitive name)
  | reference (name : String) : Token (.reference name)

/-- What a token names, or an array of it. -/
inductive FieldType.Shape : FieldType → Prop
  | token {type : FieldType} : type.Token → Shape type
  | array {item : FieldType} : item.Token → Shape (.array item)

/-- What one entry writes: a shape, and perhaps the mark of a required field around it. Arrays of
arrays and marks within have no spelling. -/
inductive FieldType.Spelled : FieldType → Prop
  | optional {shape : FieldType} : shape.Shape → Spelled shape
  | required {shape : FieldType} : shape.Shape → Spelled (.required shape)

/-- A definition whose field types are each written by one entry. -/
def Definition.Spelled : Definition → Prop
  | .record r => ∀ field ∈ r.fields, field.type.Spelled
  | _ => True

/-- A definition in a shape that can be written. -/
def Definition.WellFormed : Definition → Prop
  | .record r => r.parent ≠ some ""
      ∧ ∀ field ∈ r.fields, Text.isGraphQLName field.name = true ∧ field.type.Written
  | .enumeration e => e.values ≠ [] ∧ ∀ value ∈ e.values, Text.isGraphQLName value = true
  | .bare _ => False

/-- Some record of the model extends an enumeration of the model. -/
def ExtendsEnumeration (m : Model) : Prop :=
  ∃ child parent e, m.Extends child parent ∧ m.get? parent = some (.enumeration e)

/-- Every definition stands under its own name, in a shape that can be written. -/
def Shaped (m : Model) : Prop :=
  ∀ name d, m.get? name = some d → d.name = name ∧ d.WellFormed

structure WellFormed (m : Model) : Prop where
  shaped : m.Shaped
  inherits : ¬m.ExtendsEnumeration

/-! ## The contract of the readers -/

/-- A value with a property, or a broken rule of the type. -/
inductive Reads {α : Type} (typeName : String) (P : α → Prop) : Except SchemaFault α → Prop
  | value {a : α} : P a → Reads typeName P (.ok a)
  | broken (rule : ShapeRule) : Reads typeName P (breaks typeName rule)

namespace Reads

variable {α β : Type} {typeName : String} {P : α → Prop} {Q : β → Prop}

theorem bind {x : Except SchemaFault α} {f : α → Except SchemaFault β}
    (hx : Reads typeName P x) (hf : ∀ a, P a → Reads typeName Q (f a)) :
    Reads typeName Q (x >>= f) := by
  cases hx with
  | value hp => exact hf _ hp
  | broken rule => exact .broken rule

theorem imp {P' : α → Prop} {x : Except SchemaFault α} (hx : Reads typeName P x)
    (h : ∀ a, P a → P' a) : Reads typeName P' x := by
  cases hx with
  | value hp => exact .value (h _ hp)
  | broken rule => exact .broken rule

theorem map {x : Except SchemaFault α} {f : α → β} (hx : Reads typeName P x)
    (hf : ∀ a, P a → Q (f a)) : Reads typeName Q (x.map f) := by
  cases hx with
  | value hp => exact .value (hf _ hp)
  | broken rule => exact .broken rule

end Reads

/-! ## One definition -/

namespace FieldType

variable {type : FieldType}

theorem Token.written (h : type.Token) : type.Written := by
  cases h with
  | primitive hname => exact hname
  | reference _ => exact trivial

theorem Shape.written (h : type.Shape) : type.Written := by
  cases h with
  | token htoken => exact htoken.written
  | array hitem => exact hitem.written

theorem Spelled.written (h : type.Spelled) : type.Written := by
  cases h with
  | optional hshape => exact hshape.written
  | required hshape => exact hshape.written

end FieldType

theorem readToken_reads (typeName field token : String) :
    Reads typeName FieldType.Token (readToken typeName field token) := by
  unfold readToken
  split
  · exact .broken _
  split
  · exact .broken _
  split
  · rename_i hprim
    exact .value (.primitive hprim)
  · exact .value (.reference token)

theorem readShape_reads (typeName field : String) (info : Entries) :
    Reads typeName FieldType.Shape (readShape typeName field info) := by
  unfold readShape
  split
  · exact .broken _
  split
  · split
    · exact .broken _
    · exact (readToken_reads ..).map fun _ hitem => .array hitem
  · exact (readToken_reads ..).imp fun _ htoken => .token htoken

theorem FieldType.read_reads (typeName field : String) (info : Value) :
    Reads typeName FieldType.Spelled (FieldType.read typeName field info) := by
  unfold FieldType.read
  split
  · exact (readToken_reads ..).imp fun _ htoken => .optional (.token htoken)
  · refine (readShape_reads ..).map fun shape hshape => ?_
    split
    · exact .required hshape
    · exact .optional hshape
  · exact .broken _

theorem readFields_reads (typeName : String) (entries : Entries) :
    Reads typeName
      (fun fields => fields.map Field.name = Table.keys entries
        ∧ ∀ field ∈ fields, field.type.Spelled)
      (readFields typeName entries) := by
  induction entries with
  | nil => exact .value ⟨rfl, by simp⟩
  | cons entry entries ih =>
      obtain ⟨name, info⟩ := entry
      refine (FieldType.read_reads typeName name info).bind fun type htype => ?_
      refine ih.bind fun fields hfields => .value ⟨?_, fun field hfield => ?_⟩
      · rw [List.map_cons, hfields.1, Table.keys_cons]
      · rcases List.mem_cons.mp hfield with rfl | hfield
        · exact htype
        · exact hfields.2 field hfield

theorem readParent_reads (typeName : String) (raw : Entries) :
    Reads typeName (fun parent => parent ≠ some "") (readParent typeName raw) := by
  unfold readParent
  split
  · exact .value (by simp)
  · exact .value (by simp)
  · split
    · exact .broken _
    · rename_i hne
      exact .value (by simpa using hne)
  · exact .broken _

theorem isGraphQLName_of_find? {names : List String}
    (h : ∀ bad, names.find? (!Text.isGraphQLName ·) = some bad → False) :
    ∀ name ∈ names, Text.isGraphQLName name = true := by
  have hnone : names.find? (!Text.isGraphQLName ·) = none :=
    Option.eq_none_iff_forall_ne_some.mpr h
  intro name hname
  simpa using List.find?_eq_none.mp hnone name hname

theorem Record.read_reads (typeName : String) (raw : Entries) :
    Reads typeName
      (fun r => r.name = typeName ∧ (Definition.record r).WellFormed
        ∧ (Definition.record r).Spelled)
      (Record.read typeName raw) := by
  unfold Record.read
  split
  · rename_i entries _
    refine (readParent_reads typeName raw).bind fun parent hparent => ?_
    split
    · split
      · exact .broken _
      rename_i hnames
      refine (readFields_reads typeName entries).bind ?_
      intro fields hfields
      refine .value ⟨rfl, ⟨hparent, ?_⟩, hfields.2⟩
      intro field hfield
      have hmem : field.name ∈ Table.keys entries := hfields.1 ▸ List.mem_map_of_mem hfield
      exact ⟨isGraphQLName_of_find? hnames field.name hmem, (hfields.2 field hfield).written⟩
    · exact .broken _
  · exact .broken _

theorem Enumeration.read_reads (typeName : String) (raw : Entries) (values : Value) :
    Reads typeName (fun e => e.name = typeName ∧ (Definition.enumeration e).WellFormed)
      (Enumeration.read typeName raw values) := by
  unfold Enumeration.read
  split
  · dsimp only
    split
    · exact .broken _
    rename_i hnonempty
    split
    · exact .broken _
    rename_i hnames
    split
    · exact .broken _
    · refine .value ⟨rfl, ?_, isGraphQLName_of_find? hnames⟩
      simpa using hnonempty
  · exact .broken _

/-- A definition is read under its name and in a shape that can be written, or breaks a rule. -/
theorem Definition.read_reads (typeName : String) (raw : Value) :
    Reads typeName (fun d => d.name = typeName ∧ d.WellFormed ∧ d.Spelled)
      (Definition.read typeName raw) := by
  unfold Definition.read
  split
  · split
    · exact (Record.read_reads ..).map fun _ h => h
    · exact (Enumeration.read_reads ..).map fun _ h => ⟨h.1, h.2, trivial⟩
    · exact (Record.read_reads ..).map fun _ h => h
    · exact .broken _
  · exact .broken _

/-! ## All definitions -/

/-- What reading the entries onto the definitions `old` leads to. -/
inductive DefinitionsEnd (old : Model) (entries : Entries) : Except SchemaFault Model → Prop
  | all {m : Model} :
      (∀ entry ∈ entries, ∃ d, Definition.read entry.1 entry.2 = .ok d) →
      (∀ name, name ∈ m.names ↔ name ∈ old.names ∨ name ∈ Table.keys entries) →
      (∀ name d, m.get? name = some d → old.get? name = some d
        ∨ ∃ raw, (name, raw) ∈ entries ∧ Definition.read name raw = .ok d) →
      DefinitionsEnd old entries (.ok m)
  | rejected {name : String} {raw : Value} {rule : ShapeRule} :
      (name, raw) ∈ entries → Definition.read name raw = breaks name rule →
      DefinitionsEnd old entries (breaks name rule)

theorem DefinitionsEnd.cons {old : Model} {name : String} {raw : Value} {d : Definition}
    {entries : Entries} {result : Except SchemaFault Model}
    (hread : Definition.read name raw = .ok d)
    (h : DefinitionsEnd (old.set name d) entries result) :
    DefinitionsEnd old ((name, raw) :: entries) result := by
  cases h with
  | all hall hnames hdefs =>
      refine .all ?_ (fun other => ?_) fun other d' hget => ?_
      · intro entry hentry
        rcases List.mem_cons.mp hentry with rfl | hentry
        · exact ⟨d, hread⟩
        · exact hall entry hentry
      · have hset : other ∈ (old.set name d).names ↔ other ∈ old.names ∨ other = name := by
          rw [names, set, Table.keys_set]
          split
          · rename_i hmem
            exact ⟨Or.inl, fun h => h.elim id fun heq => heq ▸ hmem⟩
          · rw [List.mem_append, List.mem_singleton]
            exact Iff.rfl
        rw [hnames, hset, Table.keys_cons, List.mem_cons, or_assoc]
      · rcases hdefs other d' hget with hold | ⟨raw', hmem, hread'⟩
        · rw [get?, set, Table.get?_set] at hold
          split at hold
          · rename_i heq
            subst heq
            obtain rfl := Option.some.inj hold
            exact Or.inr ⟨raw, List.mem_cons_self .., hread⟩
          · exact Or.inl hold
        · exact Or.inr ⟨raw', List.mem_cons_of_mem _ hmem, hread'⟩
  | rejected hmem hbroken => exact .rejected (List.mem_cons_of_mem _ hmem) hbroken

theorem foldlM_read_ends (entries : Entries) (old : Model) :
    DefinitionsEnd old entries
      (entries.foldlM (fun m e => return m.set e.1 (← Definition.read e.1 e.2)) old) := by
  induction entries generalizing old with
  | nil => exact .all (by simp) (by simp) fun _ _ hget => Or.inl hget
  | cons entry entries ih =>
      obtain ⟨name, raw⟩ := entry
      rw [List.foldlM_cons]
      have hread := Definition.read_reads name raw
      generalize hresult : Definition.read name raw = result at hread
      cases hread with
      | value _ =>
          exact (ih _).cons hresult
      | broken rule =>
          exact .rejected (List.mem_cons_self ..) hresult

theorem readDefinitions_ends (entries : Entries) :
    DefinitionsEnd empty entries (readDefinitions entries) :=
  foldlM_read_ends entries empty

theorem mem_names_of_readDefinitions {entries : Entries} {m : Model}
    (h : readDefinitions entries = .ok m) {name : String} :
    name ∈ m.names ↔ name ∈ Table.keys entries := by
  have hends := readDefinitions_ends entries
  rw [h] at hends
  cases hends with
  | all _ hnames _ => simpa [empty, names] using hnames name

/-- Every definition of a model that was read is what reading gives. -/
theorem get?_of_readDefinitions {entries : Entries} {m : Model}
    (h : readDefinitions entries = .ok m) {name : String} {d : Definition}
    (hget : m.get? name = some d) : d.name = name ∧ d.WellFormed ∧ d.Spelled := by
  have hends := readDefinitions_ends entries
  rw [h] at hends
  cases hends with
  | all _ _ hdefs =>
      rcases hdefs name d hget with hempty | ⟨raw, _, hread⟩
      · simp [get?, empty, Table.get?] at hempty
      · have hreads := Definition.read_reads name raw
        rw [hread] at hreads
        cases hreads with
        | value hd => exact hd

theorem shaped_of_readDefinitions {entries : Entries} {m : Model}
    (h : readDefinitions entries = .ok m) : m.Shaped := fun _ _ hget =>
  ⟨(get?_of_readDefinitions h hget).1, (get?_of_readDefinitions h hget).2.1⟩

/-! ## References -/

theorem mem_definitions {m : Model} {d : Definition} :
    d ∈ m.definitions ↔ ∃ name, m.get? name = some d := by
  constructor
  · intro hmem
    obtain ⟨⟨name, d'⟩, hentry, rfl⟩ := List.mem_map.mp hmem
    exact ⟨name, Table.get?_of_mem m.distinct hentry⟩
  · rintro ⟨name, hget⟩
    exact List.mem_map_of_mem (Table.mem_of_get? hget)

theorem Shaped.namedParent? {m : Model} (hm : m.Shaped) {name : String} {r : Record}
    (h : m.get? name = some (.record r)) : r.namedParent? = r.parent := by
  have hne : r.parent ≠ some "" := (hm name _ h).2.1
  rw [Record.namedParent?]
  cases hp : r.parent with
  | none => rfl
  | some parent =>
      rw [hp] at hne
      simpa using hne

/-- A record passes the check unless it extends an enumeration. -/
theorem checkDefinition_record {m : Model} (hm : m.Shaped) {name : String} {r : Record}
    (h : m.get? name = some (.record r)) :
    (∃ parent e, m.Extends name parent ∧ m.get? parent = some (.enumeration e)
        ∧ (m.checkDefinition (.record r)).result
          = .error (.schema (.invalidDefinition name (.extendsEnumeration e.name))))
      ∨ (∀ parent e, m.Extends name parent → m.get? parent ≠ some (.enumeration e))
        ∧ (m.checkDefinition (.record r)).result = .ok () := by
  have hparent : Hierarchy.modelParent m name = r.parent := modelParent_eq h
  have hname : r.name = name := (hm name _ h).1
  unfold checkDefinition
  simp only [extendedEnumeration?, hm.namedParent? h]
  cases hp : r.parent with
  | none =>
      refine Or.inr ⟨fun parent e hext _ => ?_, rfl⟩
      exact absurd (hext.symm.trans (hparent.trans hp)) (by simp)
  | some parent =>
      have hext : m.Extends name parent := hparent.trans hp
      have hpass : (∀ e, m.get? parent ≠ some (.enumeration e)) →
          ∀ parent' e, m.Extends name parent' → m.get? parent' ≠ some (.enumeration e) :=
        fun hno parent' e hext' => hext.unique hext' ▸ hno e
      rw [Option.bind_some]
      cases hget : m.get? parent with
      | none => exact Or.inr ⟨hpass (by simp [hget]), rfl⟩
      | some d =>
          cases d with
          | enumeration e => exact Or.inl ⟨parent, e, hext, hget, hname ▸ rfl⟩
          | record _ => exact Or.inr ⟨hpass (by simp [hget]), rfl⟩
          | bare _ => exact Or.inr ⟨hpass (by simp [hget]), rfl⟩

theorem checkDefinition_ends {m : Model} (hm : m.Shaped) {d : Definition}
    (hd : d ∈ m.definitions) :
    (m.checkDefinition d).result = .ok ()
      ∨ m.ExtendsEnumeration
        ∧ ∃ name rule,
          (m.checkDefinition d).result = .error (.schema (.invalidDefinition name rule)) := by
  obtain ⟨name, hget⟩ := mem_definitions.mp hd
  cases d with
  | record r =>
      rcases checkDefinition_record hm hget with ⟨parent, e, hext, hparent, herror⟩ | ⟨-, hok⟩
      · exact Or.inr ⟨⟨name, parent, e, hext, hparent⟩, _, _, herror⟩
      · exact Or.inl hok
  | enumeration e => exact Or.inl rfl
  | bare name => exact Or.inl rfl

end Model

/-- A list of checks passes when each does, and otherwise fails like one of them. -/
theorem Traced.forM_ends {α : Type} (check : α → Traced Unit) (items : List α) :
    ((items.forM check).result = .ok () ∧ ∀ item ∈ items, (check item).result = .ok ())
      ∨ ∃ item ∈ items, ∃ fault, (check item).result = .error fault
        ∧ (items.forM check).result = .error fault := by
  induction items with
  | nil => exact Or.inl ⟨rfl, by simp⟩
  | cons item items ih =>
      have hrun : ((item :: items).forM check).result
          = (check item >>= fun _ => items.forM check).result := rfl
      rw [hrun]
      cases hitem : (check item).result with
      | error fault =>
          rw [Traced.bind_error hitem]
          exact Or.inr ⟨item, List.mem_cons_self .., fault, hitem, rfl⟩
      | ok _ =>
          rw [Traced.bind_ok hitem]
          rcases ih with ⟨hok, hall⟩ | ⟨other, hmem, fault, hfault, herror⟩
          · refine Or.inl ⟨hok, fun other hother => ?_⟩
            rcases List.mem_cons.mp hother with rfl | hother
            · exact hitem
            · exact hall other hother
          · exact Or.inr ⟨other, List.mem_cons_of_mem _ hmem, fault, hfault, herror⟩

namespace Model

/-- The check of the references passes unless a record extends an enumeration. -/
theorem checkReferences_ends {m : Model} (hm : m.Shaped) :
    m.checkReferences.result = .ok () ∧ ¬m.ExtendsEnumeration
      ∨ m.ExtendsEnumeration
        ∧ ∃ name rule,
          m.checkReferences.result = .error (.schema (.invalidDefinition name rule)) := by
  rcases Traced.forM_ends m.checkDefinition m.definitions with
    ⟨hok, hall⟩ | ⟨d, hd, fault, hfault, herror⟩
  · refine Or.inl ⟨hok, ?_⟩
    rintro ⟨child, parent, e, hext, hget⟩
    obtain ⟨d, hd, hparent⟩ := extends_iff.mp hext
    cases d with
    | record r =>
        have hpass := hall _ (mem_definitions.mpr ⟨child, hd⟩)
        rcases checkDefinition_record hm hd with ⟨_, _, _, _, herror⟩ | ⟨hnone, -⟩
        · cases herror.symm.trans hpass
        · exact hnone parent e hext hget
    | enumeration e => cases hparent
    | bare name => cases hparent
  · rcases checkDefinition_ends hm hd with hok | ⟨henum, name, rule, hrule⟩
    · cases hok.symm.trans hfault
    · obtain rfl := Except.error.inj (hrule.symm.trans hfault)
      exact Or.inr ⟨henum, name, rule, herror⟩

/-- The outcomes of reading an object. -/
inductive ReadEnds (entries : Entries) : Except Fault Model → Prop
  | rejected {name : String} {raw : Value} {rule : ShapeRule} :
      (name, raw) ∈ entries → Definition.read name raw = breaks name rule →
      ReadEnds entries (.error (.schema (.invalidDefinition name rule)))
  | extendsEnumeration {m : Model} {name : String} {rule : ShapeRule} :
      readDefinitions entries = .ok m → m.ExtendsEnumeration →
      ReadEnds entries (.error (.schema (.invalidDefinition name rule)))
  | accepted {m : Model} :
      readDefinitions entries = .ok m → m.WellFormed → ReadEnds entries (.ok m)

theorem read_ends (entries : Entries) : ReadEnds entries (read (.object entries)).result := by
  have hends := readDefinitions_ends entries
  have hread : read (.object entries)
      = liftM ((readDefinitions entries).mapError Fault.schema)
          >>= fun m => m.checkReferences >>= fun _ => pure m := rfl
  rw [hread]
  cases hdefs : readDefinitions entries with
  | error fault =>
      rw [hdefs] at hends
      cases hends with
      | rejected hmem hbroken => exact .rejected hmem hbroken
  | ok m =>
      have hshaped := shaped_of_readDefinitions hdefs
      have hlift : (Except.ok m : Except SchemaFault Model).mapError Fault.schema = .ok m := rfl
      rw [Traced.lift_ok hlift]
      rcases checkReferences_ends hshaped with ⟨hok, hinherits⟩ | ⟨henum, name, rule, herror⟩
      · rw [Traced.bind_ok hok]
        exact .accepted hdefs ⟨hshaped, hinherits⟩
      · rw [Traced.bind_error herror]
        exact .extendsEnumeration hdefs henum

/-- Reading succeeds on objects only, and gives a well-formed model of their definitions. -/
theorem read_eq_ok {value : Value} {m : Model} (h : (read value).result = .ok m) :
    ∃ entries, value = .object entries ∧ readDefinitions entries = .ok m ∧ m.WellFormed := by
  cases value with
  | object entries =>
      have hends := read_ends entries
      rw [h] at hends
      cases hends with
      | accepted hdefs hwf => exact ⟨entries, rfl, hdefs, hwf⟩
  | _ => cases h

end Model

end SchemaGen
