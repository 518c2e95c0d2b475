import SchemaGen.Proofs.KeptLines
import SchemaGen.Proofs.Repetition

/-!
# Reports on empty types

A GraphQL type without fields is not valid, so writing one is reported. What
the type of a record lists depends on its whole chain of parents, and on the
persisted bases in it: it lists nothing when no type of the chain has a field
or is a base (`listedFields_eq_nil_iff`).

The report is decided where the lines of the record are put together, and
there the marks around the lines of a parent count as lines. No lines at all
(`recordLines_eq_nil_iff`) says more than no fields: the record has no parent
either. Below a record that is empty and reported, others are as empty and
pass in silence.

That a report comes once for each record is a matter of the whole run. Of the
three stages only the last reports on empty types (`Model.reports_unknown` and
`Hierarchy.reports_places` say what the others report), and it takes up each
type once (`generateTypes_events`).
-/

namespace SchemaGen

open SchemaGen.Model
open SchemaGen.Json (Value)

namespace Traced

variable {α β : Type} {P : Event → Prop}

/-- All events of a computation have a property. -/
def Reports (P : Event → Prop) (x : Traced α) : Prop := ∀ e ∈ x.events, P e

theorem Reports.silent {x : Traced α} (h : x.events = []) : x.Reports P := by
  intro e he
  rw [h] at he
  cases he

theorem Reports.bind {x : Traced α} {f : α → Traced β} (hx : x.Reports P)
    (hf : ∀ a, (f a).Reports P) : (x >>= f).Reports P := by
  intro e he
  rw [bind_events] at he
  rcases List.mem_append.mp he with he | he
  · exact hx e he
  · cases hresult : x.result with
    | error _ =>
        rw [hresult] at he
        cases he
    | ok a =>
        rw [hresult] at he
        exact hf a e he

theorem Reports.forM {check : α → Traced Unit} (h : ∀ item, (check item).Reports P)
    (items : List α) : (items.forM check).Reports P := by
  induction items with
  | nil => exact .silent rfl
  | cons item items ih => exact (h item).bind fun _ => ih

theorem Reports.foldlM {step : β → α → Traced β} (h : ∀ b item, (step b item).Reports P)
    (items : List α) (b : β) : (items.foldlM step b).Reports P := by
  induction items generalizing b with
  | nil => exact .silent rfl
  | cons item items ih =>
      rw [List.foldlM_cons]
      exact (h b item).bind ih

end Traced

/-! ## What the stages report -/

/-- Reading reports types that are mentioned and not defined, and nothing else. -/
theorem Model.reports_unknown (value : Value) : (Model.read value).Reports fun e =>
    ∃ typeName field reference, e = .unknownReference typeName field reference := by
  cases value with
  | object entries =>
      refine .bind (.silent rfl) fun m => ?_
      refine .bind (.forM (fun d => ?_) _) fun _ => .silent rfl
      cases d with
      | record r =>
          intro e he
          simp only [checkDefinition] at he
          split at he
          · cases he
          · obtain ⟨field, -, he⟩ := List.mem_flatMap.mp he
            obtain ⟨reference, -, rfl⟩ := List.mem_map.mp he
            exact ⟨r.name, field.name, reference, rfl⟩
      | _ => exact .silent rfl
  | _ => exact .silent rfl

/-- Building the hierarchy reports the places of the types. -/
theorem Hierarchy.reports_places (m : Model) : (Hierarchy.ofModel m).Reports fun e =>
    ∃ child parent, e = .inserted child parent := by
  refine .foldlM (fun t name => ?_) _ _
  intro e he
  simp only [insert] at he
  split at he
  · cases he
  · obtain ⟨child, -, rfl⟩ := List.mem_map.mp he
    exact ⟨child, _, rfl⟩

/-- A record that brings no line into its type: it has neither fields nor a parent, and is no
base. -/
def Model.Record.Lineless (r : Record) : Prop :=
  r.fields = [] ∧ r.parent = none ∧ r.dbBase = false

instance (r : Record) : Decidable r.Lineless :=
  inferInstanceAs (Decidable (_ ∧ _ ∧ _))

/-- A record brings no line when its chain is the record alone and has nothing to list. -/
theorem Model.lineless_iff {m : Model} {name : String} {above : List String} {r : Record}
    (hchain : m.Lineage name above) (hr : m.get? name = some (.record r)) :
    r.Lineless ↔ above = [] ∧ ∀ y ∈ name :: above, m.fieldNames y = [] ∧ ¬m.IsBase y := by
  have hparent : Hierarchy.modelParent m name = r.parent := modelParent_eq hr
  have hown : m.fieldNames name = [] ∧ ¬m.IsBase name ↔ r.fields = [] ∧ r.dbBase = false := by
    rw [fieldNames, ownFields_eq hr, List.map_eq_nil_iff, isBase_iff hr, Bool.not_eq_true]
  cases hchain with
  | top _ hnone =>
      rw [List.forall_mem_singleton, hown]
      exact ⟨fun h => ⟨rfl, h.1, h.2.2⟩, fun h => ⟨h.2.1, hparent.symm.trans hnone, h.2.2⟩⟩
  | under hext _ =>
      refine ⟨fun h => ?_, fun h => absurd h.1 (by simp)⟩
      cases (hparent.trans h.2.1).symm.trans hext

namespace GraphQL

variable {settings : Settings} {m : Model} {kept : FieldLines} {name : String}
  {above : List String} {place : Option Nat}

/-- The marks of a parent are lines, so that only a record without a parent can have none. -/
theorem recordLines_eq_nil_iff {r : Record} {lines : List String}
    (h : recordLines settings kept r = .ok lines) : lines = [] ↔ r.Lineless := by
  obtain ⟨inherited, own, hinherited, hown, rfl⟩ := recordLines_eq_ok h
  have hfields : own = [] ↔ r.fields = [] := by
    rw [← List.length_eq_zero_iff, ← (forall₂_of_mapM hown).length_eq, List.length_eq_zero_iff]
  cases hparent : r.parent with
  | some parent =>
      obtain ⟨_, -, rfl⟩ := inheritedLines_eq_ok hparent hinherited
      simp [Record.Lineless, hparent]
  | none =>
      have hnone : inherited = [] := by
        rw [inheritedLines, hparent] at hinherited
        exact (Except.ok.inj hinherited).symm
      cases hbase : r.dbBase <;> simp [Record.Lineless, hparent, hnone, hfields, hbase]

/-- The report on a definition when its type is written. -/
def emptyReport : Definition → List Event
  | .record r => if r.Lineless then [.emptyType r.name] else []
  | _ => []

theorem code_events {d : Definition} {out : String × FieldLines}
    (h : (code settings kept d).result = .ok out) :
    (code settings kept d).events = emptyReport d := by
  cases d with
  | record r =>
      rw [code_record_result] at h
      obtain ⟨lines, hlines, h⟩ := bind_eq_ok h
      obtain ⟨after, hafter, -⟩ := bind_eq_ok h
      have hnone := recordLines_eq_nil_iff hlines
      refine (congrArg Traced.events (Traced.liftM_bind_of_ok hlines _)).trans ?_
      simp only [emptyReport, ← hnone, List.isEmpty_iff, hafter]
      split
      · rfl
      · rfl
  | enumeration _ => rfl
  | bare _ => rfl

/-- A type lists nothing when no type of its chain has a field or is a base. -/
theorem listedFields_eq_nil_iff (hm : m.WellFormed)
    (hrecords : ∀ y ∈ name :: above, ∃ r, m.get? y = some (.record r))
    (hplace : m.IdentityPlace (name :: above) place) :
    listedFields (flatLines (ownLines settings m) name above place) = []
      ↔ ∀ y ∈ name :: above, m.fieldNames y = [] ∧ ¬m.IsBase y := by
  rw [listedFields_flatLines hm hrecords hplace, map_name_fieldsAlong, List.append_eq_nil_iff,
    List.flatMap_eq_nil_iff]
  simp only [List.mem_reverse]
  generalize name :: above = chain at hplace
  -- with a base there is an identity to list, the declared one or the one inserted
  cases hplace with
  | noBase hbase =>
      exact ⟨fun h y hy => ⟨h.2 y hy, hbase y hy⟩, fun h => ⟨rfl, fun y hy => (h y hy).1⟩⟩
  | @declared below beyond z hbase hbeyond hdeclares =>
      obtain ⟨w, hw, hdeclares⟩ := hdeclares
      have hw : w ∈ below ++ z :: beyond :=
        List.mem_append_right _ (List.mem_cons_of_mem _ hw)
      have hnames : m.fieldNames w ≠ [] :=
        List.ne_nil_of_mem (declaresIdentity_iff_mem.mp hdeclares)
      exact ⟨fun h => absurd (h.2 w hw) hnames, fun h => absurd (h w hw).1 hnames⟩
  | @inserted below beyond z hbase hbeyond hdeclares =>
      have hz : z ∈ below ++ z :: beyond := List.mem_append_right _ (List.mem_cons_self ..)
      exact ⟨fun h => absurd h.1 (by simp), fun h => absurd hbase (h z hz).2⟩

end GraphQL

namespace Artifacts

open SchemaGen.GraphQL (listedFields flatLines ownLines typeCode emptyReport)

variable {settings : Settings} {m : Model} {a : Artifacts}

/-- What is reported when a type is generated. -/
def reportsOn (m : Model) (name : String) : List Event :=
  .generating name :: (m.get? name).toList.flatMap emptyReport

/-- Types are reported on one after the other. -/
theorem generateTypes_events {kept : GraphQL.FieldLines} {names : List String}
    {types : List TypeCode} (h : (generateTypes settings m kept names).result = .ok types) :
    types.map TypeCode.name = names
      ∧ (generateTypes settings m kept names).events = names.flatMap (reportsOn m) := by
  induction names generalizing kept types with
  | nil =>
      obtain rfl := Except.ok.inj h
      exact ⟨rfl, rfl⟩
  | cons name names ih =>
      unfold generateTypes at h ⊢
      cases hd : m.get? name with
      | none =>
          simp only [hd] at h
          cases h
      | some d =>
          simp only [hd, Traced.bind_result] at h
          obtain ⟨_, -, h⟩ := bind_eq_ok h
          obtain ⟨native, hnative, h⟩ := bind_eq_ok h
          obtain ⟨orm, horm, h⟩ := bind_eq_ok h
          obtain ⟨⟨sdl, after⟩, hsdl, h⟩ := bind_eq_ok h
          have hnative : TypeScript.code d = .ok native := hnative
          have horm : Mongoose.code settings d = .ok orm := horm
          obtain ⟨rest, hrest, h⟩ := bind_eq_ok h
          obtain rfl := Except.ok.inj h
          obtain ⟨hnames, hevents⟩ := ih hrest
          refine ⟨congrArg (name :: ·) hnames, ?_⟩
          have hreports : reportsOn m name = .generating name :: emptyReport d := by
            simp [reportsOn, hd]
          rw [List.flatMap_cons, hreports, ← hevents, ← GraphQL.code_events hsdl]
          rw [Traced.bind_events_of_ok (Traced.report_result _), Traced.liftM_bind_of_ok hnative,
            Traced.liftM_bind_of_ok horm, Traced.bind_events_of_ok hsdl]
          dsimp only
          rw [Traced.bind_events_of_ok hrest, Traced.pure_events, List.append_nil]
          rfl

/-- What occurs in the part of one item only is counted there. -/
theorem count_flatMap_of_nodup {α β : Type} [BEq β] [LawfulBEq β] {f : α → List β} {items : List α}
    {x : α} {b : β} (hnodup : items.Nodup) (hx : x ∈ items)
    (hother : ∀ y ∈ items, y ≠ x → b ∉ f y) : (items.flatMap f).count b = (f x).count b := by
  induction items with
  | nil => cases hx
  | cons y items ih =>
      obtain ⟨hnew, hnodup⟩ := List.nodup_cons.mp hnodup
      obtain ⟨hfirst, hrest⟩ := List.forall_mem_cons.mp hother
      rw [List.flatMap_cons, List.count_append]
      by_cases hy : y = x
      · subst hy
        have hnone : b ∉ items.flatMap f := by
          intro hb
          obtain ⟨z, hz, hb⟩ := List.mem_flatMap.mp hb
          exact hrest z hz (fun h => hnew (h ▸ hz)) hb
        rw [List.count_eq_zero.mpr hnone, Nat.add_zero]
      · have hx : x ∈ items := (List.mem_cons.mp hx).resolve_left (Ne.symm hy)
        rw [List.count_eq_zero.mpr (hfirst hy), Nat.zero_add, ih hnodup hx hrest]

theorem count_reportsOn (hm : m.WellFormed) {name : String} {r : Record}
    (hr : m.get? name = some (.record r)) :
    (reportsOn m name).count (.emptyType name) = if r.Lineless then 1 else 0 := by
  obtain rfl : r.name = name := (hm.shaped name _ hr).1
  have hreports : reportsOn m r.name
      = .generating r.name :: if r.Lineless then [.emptyType r.name] else [] := by
    simp [reportsOn, hr, emptyReport]
  rw [hreports]
  split <;> simp

theorem not_mem_reportsOn (hm : m.WellFormed) {name other : String} (hne : other ≠ name) :
    Event.emptyType name ∉ reportsOn m other := by
  intro hmem
  rcases List.mem_cons.mp hmem with hmem | hmem
  · cases hmem
  · obtain ⟨d, hd, hmem⟩ := List.mem_flatMap.mp hmem
    have hd : m.get? other = some d := Option.mem_toList.mp hd
    cases d with
    | record r =>
        have hname : r.name = other := (hm.shaped other _ hd).1
        simp only [emptyReport] at hmem
        split at hmem
        · exact hne (hname.symm.trans (Event.emptyType.inj (List.mem_singleton.mp hmem)).symm)
        · cases hmem
    | _ => cases hmem

/-- Of the stages only the last reports on empty types, and it takes up each type once. -/
theorem count_emptyType {value : Value} (h : (ofValue settings value).result = .ok a)
    (hread : (Model.read value).result = .ok m) {name : String} {r : Record}
    (hr : m.get? name = some (.record r)) :
    (ofValue settings value).events.count (.emptyType name) = if r.Lineless then 1 else 0 := by
  obtain ⟨_, m', -, hread', -, hm, hcomplete⟩ := ofValue_eq_ok h
  obtain rfl := Except.ok.inj (hread'.symm.trans hread)
  have h := (Traced.bind_ok hread _).symm.trans h
  obtain ⟨tree, htree, h⟩ := bind_eq_ok ((Traced.bind_result _ _).symm.trans h)
  obtain ⟨types, htypes, h⟩ := bind_eq_ok ((Traced.bind_result _ _).symm.trans h)
  obtain rfl := Except.ok.inj h
  obtain ⟨hnames, hevents⟩ := generateTypes_events htypes
  have hperm : (tree.walk settings.siblingOrder).Perm m'.names := hnames ▸ hcomplete.covers
  have hreading : (Model.read value).events.count (.emptyType name) = 0 := by
    refine List.count_eq_zero.mpr fun hmem => ?_
    obtain ⟨_, _, _, he⟩ := Model.reports_unknown value _ hmem
    cases he
  have hbuilding : (Hierarchy.ofModel m').events.count (.emptyType name) = 0 := by
    refine List.count_eq_zero.mpr fun hmem => ?_
    obtain ⟨_, _, he⟩ := Hierarchy.reports_places m' _ hmem
    cases he
  have hrun : (ofValue settings value).events = (Model.read value).events
      ++ ((Hierarchy.ofModel m').events
        ++ (tree.walk settings.siblingOrder).flatMap (reportsOn m')) := by
    rw [ofValue, Traced.bind_events_of_ok hread, ofModel, Traced.bind_events_of_ok htree,
      Traced.bind_events_of_ok htypes, hevents, Traced.pure_events, List.append_nil]
  rw [hrun, List.count_append, List.count_append, hreading, hbuilding, Nat.zero_add, Nat.zero_add,
    count_flatMap_of_nodup (hperm.nodup_iff.mpr m'.distinct)
      (hperm.mem_iff.mpr (mem_names_of_get? hr)) fun _ _ => not_mem_reportsOn hm,
    count_reportsOn hm hr]

/-- The type of a record is reported to be empty at most once, and not if it lists a field. It is
reported when the record has no parent and its type lists none. -/
theorem reports_empty_without_parent {value : Value} (h : (ofValue settings value).result = .ok a)
    (hread : (Model.read value).result = .ok m) {name : String} {r : Record}
    (hr : m.get? name = some (.record r)) :
    ∃ above place, m.Lineage name above ∧ m.IdentityPlace (name :: above) place
      ∧ (∃ t ∈ a.types, t.name = name)
      ∧ (∀ t ∈ a.types, t.name = name →
          t.sdl = typeCode name (flatLines (ownLines settings m) name above place))
      ∧ (listedFields (flatLines (ownLines settings m) name above place) = []
          ↔ ∀ y ∈ name :: above, m.fieldNames y = [] ∧ ¬m.IsBase y)
      ∧ (ofValue settings value).events.count (.emptyType name)
          = if above = [] ∧ listedFields (flatLines (ownLines settings m) name above place) = []
            then 1 else 0 := by
  have hcount := count_emptyType h hread hr
  obtain ⟨_, m', -, hread', -, hm, hcomplete⟩ := ofValue_eq_ok h
  obtain rfl := Except.ok.inj (hread'.symm.trans hread)
  obtain ⟨above, place, hchain, hplace, hin, htext⟩ := hcomplete.exists_flatLines hm hr
  have hrecords : ∀ y ∈ name :: above, ∃ r, m'.get? y = some (.record r) :=
    List.forall_mem_cons.mpr ⟨⟨r, hr⟩, hm.lineage_records hchain⟩
  have hnone := @GraphQL.listedFields_eq_nil_iff settings m' name above place hm hrecords hplace
  refine ⟨above, place, hchain, hplace, hin, htext, hnone, ?_⟩
  exact hcount.trans (if_congr
    ((lineless_iff hchain hr).trans (and_congr_right fun _ => hnone.symm)) rfl rfl)

/-- A form without fields, and a copy of it. -/
def forms : Value := .object [
  ("Blank", .object [("fields", .object [])]),
  ("Copy", .object [("extends", .text "Blank")])]

theorem blank_reported : ∃ a, (ofValue {} forms).result = .ok a
    ∧ (ofValue {} forms).events.count (.emptyType "Blank") = 1 := by
  obtain ⟨a, ha⟩ : ∃ a, (ofValue {} forms).result = .ok a := ⟨_, rfl⟩
  obtain ⟨m, r, hread, hr, hlineage, hnames, hbase⟩ : ∃ m r, (Model.read forms).result = .ok m
      ∧ m.get? "Blank" = some (.record r) ∧ m.Lineage "Blank" []
      ∧ m.fieldNames "Blank" = [] ∧ r.dbBase = false :=
    ⟨_, _, rfl, rfl, .top (by decide) rfl, rfl, rfl⟩
  obtain ⟨above, place, hchain, -, -, -, hnone, hcount⟩ := reports_empty_without_parent ha hread hr
  obtain rfl := hchain.unique hlineage
  have hempty : ∀ y ∈ ["Blank"], m.fieldNames y = [] ∧ ¬m.IsBase y := by
    rw [List.forall_mem_singleton, isBase_iff hr]
    exact ⟨hnames, Bool.not_eq_true _ ▸ hbase⟩
  exact ⟨a, ha, hcount.trans (if_pos ⟨rfl, hnone.mpr hempty⟩)⟩

theorem copy_unreported : ∃ a t, (ofValue {} forms).result = .ok a ∧ t ∈ a.types
    ∧ t.sdl = typeCode "Copy" ["# START Inherited from Blank", "# END Inherited from Blank"]
    ∧ listedFields ["# START Inherited from Blank", "# END Inherited from Blank"] = []
    ∧ Event.emptyType "Copy" ∉ (ofValue {} forms).events :=
  ⟨_, _, rfl, List.mem_cons_of_mem _ (List.mem_cons_self ..), rfl, by decide, by decide⟩

end Artifacts

end SchemaGen
