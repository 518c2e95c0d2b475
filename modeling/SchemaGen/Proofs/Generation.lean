import Mathlib.Data.List.Dedup
import SchemaGen.Artifacts
import SchemaGen.Proofs.Flattening
import SchemaGen.Proofs.Preorder

/-!
# Generating all types

The walk hands the types to the three targets one by one. Two of the targets
look at a definition alone. The third reads the lines of the parent from the
registry and writes its own lines there, each type once, so it depends on the
order of the walk.

`Keeps` is the invariant of the registry: after the types `done` it holds the
closed form for each record among them, and no type besides. `code_flat` is
the step. It asks for what the order of the walk provides, that the type is
new and that its parent is done, and shows that the step cannot fail.
`generateTypes_spec` runs the step along a list, and `ofModel_ends` puts the
tree before it: a well-formed model has artifacts that are `Complete`, or
some chain of parents is broken.
-/

namespace SchemaGen

open SchemaGen.Model
open SchemaGen.Json (Value)

namespace GraphQL

/-- What is kept after the types `done` have been written. -/
structure Keeps (settings : Settings) (m : Model) (done : List String) (kept : FieldLines) :
    Prop where
  known : done ⊆ m.names
  lines : ∀ name ∈ done, ∀ r, m.get? name = some (.record r) →
    ∃ lines, Table.get? kept name = some lines ∧ FlatLines settings m name lines
  only : Table.keys kept ⊆ done

variable {settings : Settings} {m : Model} {done : List String} {kept : FieldLines}

theorem Keeps.nil : Keeps settings m [] [] :=
  ⟨List.nil_subset _, by simp, List.nil_subset _⟩

/-- A type without lines of its own in the registry changes nothing there. -/
theorem Keeps.skip (h : Keeps settings m done kept) {name : String} {d : Definition}
    (hd : m.get? name = some d) (hrecord : ∀ r, d ≠ .record r) :
    Keeps settings m (done ++ [name]) kept := by
  refine ⟨List.append_subset.mpr ⟨h.known, by simpa using mem_names_of_get? hd⟩, ?_, ?_⟩
  · intro other hother r hr
    rcases List.mem_append.mp hother with hother | hother
    · exact h.lines other hother r hr
    · rw [List.mem_singleton.mp hother, hd] at hr
      exact absurd (Option.some.inj hr) (hrecord r)
  · exact fun other hother => List.mem_append_left _ (h.only hother)

theorem Keeps.record (h : Keeps settings m done kept) {name : String} {r : Record}
    (hr : m.get? name = some (.record r)) (hnew : name ∉ done) {lines : List String}
    (hlines : FlatLines settings m name lines) :
    ∃ after, FieldLines.keep kept name lines = .ok after
      ∧ Keeps settings m (done ++ [name]) after := by
  have hfresh : ¬Table.contains kept name = true := by
    rw [Table.contains_iff]
    exact fun hmem => hnew (h.only hmem)
  have hkeep : FieldLines.keep kept name lines = .ok (kept ++ [(name, lines)]) := by
    rw [FieldLines.keep, if_neg hfresh]
  refine ⟨_, hkeep, List.append_subset.mpr ⟨h.known, by simpa using mem_names_of_get? hr⟩, ?_, ?_⟩
  · intro other hother r' hr'
    rw [FieldLines.get?_of_keep hkeep]
    split
    · rename_i heq
      exact ⟨lines, rfl, heq ▸ hlines⟩
    · rename_i hne
      have hold : other ∈ done := by
        rcases List.mem_append.mp hother with hother | hother
        · exact hother
        · exact absurd (List.mem_singleton.mp hother).symm hne
      exact h.lines other hold r' hr'
  · intro other hother
    rw [Table.keys_append, List.mem_append] at hother
    rcases hother with hother | hother
    · exact List.mem_append_left _ (h.only hother)
    · exact List.mem_append_right _ hother

/-- The report on a record without lines does not change what comes out. -/
theorem code_record_result (r : Record) :
    (code settings kept (.record r)).result = do
      let lines ← recordLines settings kept r
      return (typeCode r.name lines, ← FieldLines.keep kept r.name lines) := by
  cases hlines : recordLines settings kept r with
  | error fault => exact Traced.bind_error hlines _
  | ok lines =>
      refine (Traced.lift_ok hlines _).trans ?_
      split
      · exact (Traced.bind_ok (Traced.report_result _) _).trans (Traced.bind_result _ _)
      · exact Traced.bind_result _ _

theorem code_record {r : Record} {lines : List String} {after : FieldLines}
    (hlines : recordLines settings kept r = .ok lines)
    (hkeep : FieldLines.keep kept r.name lines = .ok after) :
    (code settings kept (.record r)).result = .ok (typeCode r.name lines, after) := by
  rw [code_record_result, hlines]
  show (FieldLines.keep kept r.name lines).map _ = _
  rw [hkeep]
  rfl

/-- One type, after its parent: the step succeeds and keeps the invariant, and the code of a
record lists the closed form. -/
theorem code_flat (hm : m.WellFormed) {name : String} {d : Definition}
    (hd : m.get? name = some d) (hkeeps : Keeps settings m done kept) (hnew : name ∉ done)
    (hparent : ∀ parent, m.Extends name parent → parent ∈ done) :
    ∃ sdl after, (code settings kept d).result = .ok (sdl, after)
      ∧ Keeps settings m (done ++ [name]) after
      ∧ ∀ r, d = .record r →
          ∃ lines, FlatLines settings m name lines ∧ sdl = typeCode name lines := by
  obtain ⟨hname, hshape⟩ := hm.shaped name d hd
  cases d with
  | record r =>
      obtain ⟨lines, hlines, hflat⟩ : ∃ lines, recordLines settings kept r = .ok lines
          ∧ FlatLines settings m name lines := by
        refine recordLines_flat hm hd fun parent hp => ?_
        have hext : m.Extends name parent := (modelParent_eq hd).trans hp
        have hdone := hparent parent hext
        obtain ⟨r', hr'⟩ := hm.parent_record hext (hkeeps.known hdone)
        exact hkeeps.lines parent hdone r' hr'
      obtain ⟨after, hkeep, hafter⟩ := hkeeps.record hd hnew hflat
      obtain rfl : r.name = name := hname
      exact ⟨_, after, code_record hlines hkeep, hafter, fun _ _ => ⟨lines, hflat, rfl⟩⟩
  | enumeration e =>
      exact ⟨_, kept, rfl, hkeeps.skip hd (by simp), by simp⟩
  | bare _ => exact hshape.elim

end GraphQL

open SchemaGen.GraphQL (FieldLines Keeps FlatLines)

/-- The code of a type is what the targets make of its definition; for the GraphQL code, after
the types `before`. -/
def TypeCode.Renders (settings : Settings) (m : Model) (before : List String) (t : TypeCode) :
    Prop :=
  ∃ d kept after, m.get? t.name = some d
    ∧ TypeScript.code d = .ok t.native
    ∧ Mongoose.code settings d = .ok t.orm
    ∧ Keeps settings m before kept
    ∧ (GraphQL.code settings kept d).result = .ok (t.sdl, after)

namespace Artifacts

variable {settings : Settings} {m : Model}

theorem generateTypes_cons {kept after : FieldLines} {name native orm sdl : String}
    {rest : List String} {d : Definition} {types : List TypeCode} (hd : m.get? name = some d)
    (hnative : TypeScript.code d = .ok native) (horm : Mongoose.code settings d = .ok orm)
    (hsdl : (GraphQL.code settings kept d).result = .ok (sdl, after))
    (hrest : (generateTypes settings m after rest).result = .ok types) :
    (generateTypes settings m kept (name :: rest)).result
      = .ok (⟨name, native, orm, sdl⟩ :: types) := by
  unfold generateTypes
  simp only [hd]
  refine (Traced.bind_ok (Traced.report_result _) _).trans ?_
  refine (Traced.lift_ok hnative _).trans ?_
  refine (Traced.lift_ok horm _).trans ?_
  refine (Traced.bind_ok hsdl _).trans ?_
  exact Traced.bind_ok hrest _

/-- Along a list without repetition and with parents first, every type gets its code. -/
theorem generateTypes_spec (hm : m.WellFormed) {done rest : List String} {kept : FieldLines}
    (hkeeps : Keeps settings m done kept) (hrest : rest ⊆ m.names)
    (hdistinct : (done ++ rest).Nodup) (hfirst : m.ParentsFirst (done ++ rest)) :
    ∃ types, (generateTypes settings m kept rest).result = .ok types
      ∧ types.map TypeCode.name = rest
      ∧ ∀ before t after, types = before ++ t :: after →
          t.Renders settings m (done ++ before.map TypeCode.name) := by
  induction rest generalizing done kept with
  | nil => exact ⟨[], rfl, rfl, by simp⟩
  | cons name rest ih =>
      obtain ⟨hname, hrest⟩ := List.cons_subset.mp hrest
      obtain ⟨d, hd⟩ := exists_get? hname
      have hshape := (hm.shaped name d hd).2
      obtain ⟨native, hnative⟩ := TypeScript.code_ok hshape
      obtain ⟨orm, horm⟩ := Mongoose.code_ok settings hshape
      have hnew : name ∉ done := fun hmem =>
        (List.nodup_append.mp hdistinct).2.2 name hmem name (List.mem_cons_self ..) rfl
      obtain ⟨sdl, after, hsdl, hafter, -⟩ :=
        GraphQL.code_flat hm hd hkeeps hnew (hfirst done name rest rfl)
      have hsplit : done ++ name :: rest = (done ++ [name]) ++ rest := by simp
      rw [hsplit] at hdistinct hfirst
      obtain ⟨types, htypes, hnames, hall⟩ := ih hafter hrest hdistinct hfirst
      refine ⟨_, generateTypes_cons hd hnative horm hsdl htypes, by simp [hnames], ?_⟩
      intro before t behind heq
      cases before with
      | nil =>
          obtain ⟨rfl, -⟩ := List.cons.inj heq
          rw [List.map_nil, List.append_nil]
          exact ⟨d, kept, after, hd, hnative, horm, hkeeps, hsdl⟩
      | cons first before =>
          obtain ⟨rfl, htail⟩ := List.cons.inj heq
          have hrenders := hall before t behind htail
          simpa using hrenders

/-! ## Whole models -/

/-- The artifacts of a model whose chains of parents are all healthy. -/
structure Complete (settings : Settings) (m : Model) (a : Artifacts) : Prop where
  covers : (a.types.map TypeCode.name).Perm m.names
  parentsFirst : m.ParentsFirst (a.types.map TypeCode.name)
  renders : ∀ before t after, a.types = before ++ t :: after →
    t.Renders settings m (before.map TypeCode.name)
  lineages : ∀ name ∈ m.names, ∃ above, m.Lineage name above
  document : a = ofTypes settings a.types

theorem ofModel_ends (settings : Settings) (hm : m.WellFormed) :
    (∃ a, (ofModel settings m).result = .ok a ∧ Complete settings m a)
      ∨ ∃ name ∈ m.names, ∃ fault, Hierarchy.ChainFault m [name] fault
        ∧ (ofModel settings m).result = .error (.schema fault) := by
  rcases Hierarchy.ofModel_ends m with
    ⟨t, htree, hgrown, hnames⟩ | ⟨name, hname, fault, hfault, herror⟩
  · have hperm := (hgrown.walk_spec settings.siblingOrder).2
    have hfirst := hgrown.walk_parentsFirst settings.siblingOrder
    have hdistinct : (t.walk settings.siblingOrder).Nodup := hperm.nodup_iff.mpr hgrown.nodup
    have hknown : t.walk settings.siblingOrder ⊆ m.names :=
      fun name hmem => (hnames name).mp (hperm.mem_iff.mp hmem)
    obtain ⟨types, htypes, hall, hrenders⟩ :=
      @generateTypes_spec settings m hm [] _ [] .nil hknown hdistinct hfirst
    refine Or.inl ⟨ofTypes settings types, ?_, ?_, ?_, ?_, ?_, rfl⟩
    · exact (Traced.bind_ok htree _).trans (Traced.bind_ok htypes _)
    · show (types.map TypeCode.name).Perm m.names
      rw [hall]
      exact hperm.trans ((List.perm_ext_iff_of_nodup hgrown.nodup m.distinct).mpr hnames)
    · show m.ParentsFirst (types.map TypeCode.name)
      rw [hall]
      exact hfirst
    · exact hrenders
    · intro name hname
      obtain ⟨above, hchain, -⟩ := hgrown.lineage ((hnames name).mpr hname)
      exact ⟨above, hchain⟩
  · exact Or.inr ⟨name, hname, fault, hfault, Traced.bind_error herror _⟩

/-- A well-formed model has artifacts when all of its chains of parents are healthy. -/
theorem ofModel_of_lineages (settings : Settings) (hm : m.WellFormed)
    (hhealthy : ∀ name ∈ m.names, ∃ above, m.Lineage name above) :
    ∃ a, (ofModel settings m).result = .ok a ∧ Complete settings m a := by
  rcases ofModel_ends settings hm with hok | ⟨name, hname, _, hfault, -⟩
  · exact hok
  · obtain ⟨above, hchain⟩ := hhealthy name hname
    exact (hfault.leaves_or_revisits.elim hchain.not_leavesModel hchain.not_revisits).elim

/-- What is known about a value that has artifacts. -/
theorem ofValue_eq_ok {value : Value} {a : Artifacts}
    (h : (ofValue settings value).result = .ok a) :
    ∃ entries m, value = .object entries ∧ (Model.read value).result = .ok m
      ∧ readDefinitions entries = .ok m ∧ m.WellFormed ∧ Complete settings m a := by
  cases hread : (Model.read value).result with
  | error fault => cases (Traced.bind_error hread _).symm.trans h
  | ok m =>
      have h : (ofModel settings m).result = .ok a := (Traced.bind_ok hread _).symm.trans h
      obtain ⟨entries, hvalue, hdefs, hm⟩ := read_eq_ok hread
      rcases ofModel_ends settings hm with ⟨a', hok, hcomplete⟩ | ⟨_, _, _, _, herror⟩
      · obtain rfl := Except.ok.inj (hok.symm.trans h)
        exact ⟨entries, m, hvalue, rfl, hdefs, hm, hcomplete⟩
      · cases herror.symm.trans h

/-! ## What the artifacts of a value hold -/

/-- `lines` has one line for each declared field of the record, in order. -/
def DeclaredLines (settings : Settings) (m : Model) (name : String) (lines : List String) : Prop :=
  ∃ r, m.get? name = some (.record r)
    ∧ List.Forall₂ (fun field line => ∃ text, GraphQL.typeText settings field.type = .ok text
        ∧ line = field.name ++ ": " ++ text) r.fields lines

/-- Every record has a GraphQL type, and it lists the flattened lines of its chain. -/
def Flattened (settings : Settings) (m : Model) (a : Artifacts) : Prop :=
  ∀ name r, m.get? name = some (.record r) →
    ∃ above place own, m.Lineage name above ∧ m.IdentityPlace (name :: above) place
      ∧ (∀ y ∈ name :: above, DeclaredLines settings m y (own y))
      ∧ (∃ t ∈ a.types, t.name = name)
      ∧ ∀ t ∈ a.types, t.name = name →
          t.sdl = "type " ++ name ++ " \x7b" ++ "\n"
            ++ String.join ((GraphQL.flatLines own name above place).map
                fun line => "  " ++ line ++ "\n")
            ++ "\x7d"

theorem declaredLines_ownLines (hm : m.WellFormed) {name : String} {r : Record}
    (h : m.get? name = some (.record r)) :
    DeclaredLines settings m name (GraphQL.ownLines settings m name) := by
  refine ⟨r, h, (GraphQL.ownLines_eq hm h).2.imp fun field line hline => ?_⟩
  obtain ⟨text, htext, hline⟩ := map_eq_ok hline
  exact ⟨text, htext, hline.symm⟩

/-- A type's code of a complete set of artifacts, with the types before it. -/
theorem Complete.exists_split {a : Artifacts} (h : Complete settings m a) {t : TypeCode}
    (ht : t ∈ a.types) : ∃ before after, a.types = before ++ t :: after
      ∧ t.name ∉ before.map TypeCode.name
      ∧ (∀ parent, m.Extends t.name parent → parent ∈ before.map TypeCode.name)
      ∧ t.Renders settings m (before.map TypeCode.name) := by
  obtain ⟨before, after, hsplit⟩ := List.append_of_mem ht
  have hnames : a.types.map TypeCode.name
      = before.map TypeCode.name ++ t.name :: after.map TypeCode.name := by
    rw [hsplit, List.map_append, List.map_cons]
  have hdistinct : (a.types.map TypeCode.name).Nodup := h.covers.nodup_iff.mpr m.distinct
  rw [hnames] at hdistinct
  have hnew : t.name ∉ before.map TypeCode.name := fun hmem =>
    (List.nodup_append.mp hdistinct).2.2 _ hmem _ (List.mem_cons_self ..) rfl
  exact ⟨before, after, hsplit, hnew, h.parentsFirst _ _ _ hnames, h.renders before t after hsplit⟩

/-- The GraphQL code of a record lists the closed form. -/
theorem Complete.sdl_flat (hm : m.WellFormed) {a : Artifacts} (h : Complete settings m a)
    {t : TypeCode} (ht : t ∈ a.types) {r : Record} (hr : m.get? t.name = some (.record r)) :
    ∃ lines, GraphQL.FlatLines settings m t.name lines
      ∧ t.sdl = GraphQL.typeCode t.name lines := by
  obtain ⟨before, _, _, hnew, hparents, d, kept, after, hd, -, -, hkeeps, hsdl⟩ := h.exists_split ht
  obtain rfl : .record r = d := Option.some.inj (hr.symm.trans hd)
  obtain ⟨sdl, after', hcode, -, hflat⟩ := GraphQL.code_flat hm hr hkeeps hnew hparents
  obtain ⟨lines, hlines, rfl⟩ := hflat r rfl
  exact ⟨lines, hlines, (Prod.mk.inj (Except.ok.inj (hsdl.symm.trans hcode))).1⟩

/-- Every record has a GraphQL type, and only one. -/
theorem Complete.exists_flatLines (hm : m.WellFormed) {a : Artifacts} (h : Complete settings m a)
    {name : String} {r : Record} (hr : m.get? name = some (.record r)) :
    ∃ above place, m.Lineage name above ∧ m.IdentityPlace (name :: above) place
      ∧ (∃ t ∈ a.types, t.name = name)
      ∧ ∀ t ∈ a.types, t.name = name → t.sdl = GraphQL.typeCode name
          (GraphQL.flatLines (GraphQL.ownLines settings m) name above place) := by
  have hin : name ∈ a.types.map TypeCode.name := h.covers.mem_iff.mpr (mem_names_of_get? hr)
  obtain ⟨t, ht, rfl⟩ := List.mem_map.mp hin
  obtain ⟨_, ⟨above, place, hchain, hplace, rfl⟩, htext⟩ := h.sdl_flat hm ht hr
  refine ⟨above, place, hchain, hplace, ⟨t, ht, rfl⟩, fun t' ht' hname => ?_⟩
  have hdistinct : (a.types.map TypeCode.name).Nodup := h.covers.nodup_iff.mpr m.distinct
  obtain rfl := List.inj_on_of_nodup_map hdistinct ht' ht hname
  exact htext

theorem Complete.flattened (hm : m.WellFormed) {a : Artifacts} (h : Complete settings m a) :
    Flattened settings m a := by
  intro name r hr
  obtain ⟨above, place, hchain, hplace, hin, htext⟩ := h.exists_flatLines hm hr
  refine ⟨above, place, GraphQL.ownLines settings m, hchain, hplace, ?_, hin, htext⟩
  refine List.forall_mem_cons.mpr ⟨declaredLines_ownLines hm hr, fun y hy => ?_⟩
  obtain ⟨r', hr'⟩ := hm.lineage_records hchain y hy
  exact declaredLines_ownLines hm hr'

/-- The GraphQL type of a record lists, nearest first, the opening marks of all its ancestors,
then from the topmost downwards their fields and closing marks, and last the fields of the record;
the identity line stands where `IdentityPlace` puts it. -/
theorem sdl_flattened {value : Value} {a : Artifacts}
    (h : (ofValue settings value).result = .ok a) :
    ∃ m, (Model.read value).result = .ok m ∧ Flattened settings m a := by
  obtain ⟨_, m, -, hread, -, hm, hcomplete⟩ := ofValue_eq_ok h
  exact ⟨m, hread, hcomplete.flattened hm⟩

/-- A model in which parents come after their children, with persisted bases at two levels. -/
def staff : Value := .object [
  ("Admin", .object [("extends", .text "User"), ("meta", .object [("dbBase", .bool true)]),
    ("fields", .object [("role", .text "Role")])]),
  ("User", .object [("extends", .text "Named"), ("meta", .object [("dbBase", .bool true)]),
    ("fields", .object [("mail", .object [("type", .text "string"), ("required", .bool true)])])]),
  ("Named", .object [("fields", .object [("name", .text "string")])]),
  ("Role", .object [("values", .list [.text "OWNER", .text "GUEST"])])]

theorem staff_flattened : ∃ a, (ofValue {} staff).result = .ok a
    ∧ ∃ m, (Model.read staff).result = .ok m ∧ Flattened {} m a :=
  ⟨_, rfl, sdl_flattened rfl⟩

/-- The types come once each, after all their ancestors, and with the code that the three targets
make of their definitions. -/
theorem types_cover_parents_first {value : Value} {a : Artifacts}
    (h : (ofValue settings value).result = .ok a) :
    ∃ entries m, value = .object entries ∧ (Model.read value).result = .ok m
      ∧ (a.types.map TypeCode.name).Perm (Table.keys entries).dedup
      ∧ ∀ before t after, a.types = before ++ t :: after →
          t.Renders settings m (before.map TypeCode.name)
            ∧ ∀ ancestor, m.Ancestor t.name ancestor → ancestor ∈ before.map TypeCode.name := by
  obtain ⟨entries, m, hvalue, hread, hdefs, -, hcomplete⟩ := ofValue_eq_ok h
  have hkeys : m.names.Perm (Table.keys entries).dedup := by
    refine (List.perm_ext_iff_of_nodup m.distinct (List.nodup_dedup _)).mpr fun name => ?_
    rw [List.mem_dedup]
    exact mem_names_of_readDefinitions hdefs
  refine ⟨entries, m, hvalue, hread, hcomplete.covers.trans hkeys, ?_⟩
  intro before t after hsplit
  refine ⟨hcomplete.renders before t after hsplit, fun ancestor hanc => ?_⟩
  have hnames : a.types.map TypeCode.name
      = before.map TypeCode.name ++ t.name :: after.map TypeCode.name := by
    rw [hsplit, List.map_append, List.map_cons]
  exact hcomplete.parentsFirst.ancestor_mem hnames hanc

theorem staff_covered : ∃ a, (ofValue {} staff).result = .ok a
    ∧ (a.types.map TypeCode.name).Perm ["Admin", "User", "Named", "Role"]
    ∧ ∀ before t after, a.types = before ++ t :: after →
        ∃ m, (Model.read staff).result = .ok m
          ∧ t.Renders {} m (before.map TypeCode.name) := by
  obtain ⟨a, h⟩ : ∃ a, (ofValue {} staff).result = .ok a := ⟨_, rfl⟩
  obtain ⟨entries, m, hvalue, hread, hperm, hall⟩ := types_cover_parents_first h
  obtain rfl := Value.object.inj hvalue
  refine ⟨a, h, hperm, fun before t after hsplit => ?_⟩
  exact ⟨m, hread, (hall before t after hsplit).1⟩

end Artifacts

end SchemaGen
