import SchemaGen.Proofs.Generation
import SchemaGen.Proofs.Scope

/-!
# Fields that a type lists twice

The lines of a GraphQL type come from three sources: the fields of the type,
those of its ancestors, and the identity line. All declared fields are
listed, and the identity line is withheld for the sake of an inherited line
only. So a name can occur twice in the code of a type.

`listedFields_flatLines` tells the names on the lines of a type, in order.
From it follows when they are distinct (`DistinctFields`): each record of the
chain has distinct fields, no two records of it have a field in common, and
none has a field for the identity if the line for it is inserted. The first
could fail only where an object has a key twice. The other two do fail in
models that are accepted, and each of them alone (`account`, `savings`).
-/

namespace SchemaGen

open SchemaGen.Model
open SchemaGen.Json (Value)

namespace Model

variable {m : Model} {name : String} {chain : List String}

/-- The names of the fields that a type declares. -/
def fieldNames (m : Model) (name : String) : List String := (m.ownFields name).map Field.name

/-- No name comes up twice among the fields of a chain and the identity, if that has a place. -/
structure DistinctFields (m : Model) (chain : List String) (place : Option Nat) : Prop where
  within : ∀ y ∈ chain, (m.fieldNames y).Nodup
  between : chain.Pairwise fun y z => (m.fieldNames y).Disjoint (m.fieldNames z)
  identity : place ≠ none → ∀ y ∈ chain, ¬m.DeclaresIdentity y

theorem declaresIdentity_iff_mem : m.DeclaresIdentity name ↔ "_id" ∈ m.fieldNames name := by
  rw [fieldNames, List.mem_map, ownFields, DeclaresIdentity]
  split
  · rename_i r hr
    simp [hr]
  · rename_i hnone
    simp only [List.not_mem_nil, false_and, exists_false, iff_false]
    rintro ⟨r, hr, -⟩
    exact hnone r hr

theorem map_name_fieldsAlong :
    (m.fieldsAlong chain).map Field.name = chain.reverse.flatMap m.fieldNames :=
  List.map_flatMap

theorem identity_mem_fieldsAlong_iff :
    "_id" ∈ (m.fieldsAlong chain).map Field.name ↔ ∃ y ∈ chain, m.DeclaresIdentity y := by
  simp only [map_name_fieldsAlong, List.mem_flatMap, List.mem_reverse, declaresIdentity_iff_mem]

theorem nodup_fieldsAlong_iff : ((m.fieldsAlong chain).map Field.name).Nodup
    ↔ (∀ y ∈ chain, (m.fieldNames y).Nodup)
      ∧ chain.Pairwise fun y z => (m.fieldNames y).Disjoint (m.fieldNames z) := by
  rw [map_name_fieldsAlong, List.nodup_flatMap, List.pairwise_reverse]
  simp only [List.mem_reverse, Function.onFun, List.disjoint_comm]

end Model

namespace GraphQL

variable {settings : Settings} {m : Model} {name : String} {above : List String}
  {place : Option Nat}

/-! ## The names on the lines -/

/-- The field that a line is about, which is none for a comment. -/
def fieldOf? (line : String) : Option String :=
  if line.toList.head? = some '#' then none
  else some (String.ofList (line.toList.takeWhile (· ≠ ':')))

def listedFields (lines : List String) : List String := lines.filterMap fieldOf?

example : listedFields ["_id: ID!", "# START Inherited from A", "a: [Int!]"] = ["_id", "a"] := by
  decide

theorem fieldOf?_startMark : fieldOf? (startMark name) = none := by
  refine if_pos ?_
  unfold startMark
  rw [String.toList_append]
  simp only [String.reduceToList]
  rfl

theorem fieldOf?_endMark : fieldOf? (endMark name) = none := by
  refine if_pos ?_
  unfold endMark
  rw [String.toList_append]
  simp only [String.reduceToList]
  rfl

theorem fieldOf?_fieldLine {field : Field} {line : String}
    (hname : Text.isGraphQLName field.name = true) (h : fieldLine settings field = .ok line) :
    fieldOf? line = some field.name := by
  have hchars : ∀ c ∈ field.name.toList, c ≠ '#' ∧ c ≠ ':' := by
    intro c hc
    rcases Text.mem_of_isGraphQLName hname hc with hchar | rfl
    · constructor <;> rintro rfl <;> exact absurd hchar (by decide)
    · decide
  obtain ⟨text, -, rfl⟩ := map_eq_ok h
  have hline : (field.name ++ ": " ++ text).toList
      = field.name.toList ++ ':' :: (' ' :: text.toList) := by
    simp
  have hfront : (field.name.toList ++ ':' :: (' ' :: text.toList)).takeWhile (· ≠ ':')
      = field.name.toList := by
    rw [List.takeWhile_append_of_pos fun c hc => decide_eq_true (hchars c hc).2]
    simp
  have hhead : (field.name.toList ++ ':' :: (' ' :: text.toList)).head? ≠ some '#' := by
    cases hfield : field.name.toList with
    | nil => simp
    | cons c rest =>
        have hc : c ∈ field.name.toList := hfield ▸ List.mem_cons_self ..
        simpa using (hchars c hc).1
  rw [fieldOf?, hline, if_neg hhead, hfront, String.ofList_toList]

theorem listedFields_ownLines (hm : m.WellFormed) {r : Record}
    (h : m.get? name = some (.record r)) :
    listedFields (ownLines settings m name) = m.fieldNames name := by
  have hlines := (@ownLines_eq settings m name hm r h).2
  have hnames : ∀ field ∈ r.fields, Text.isGraphQLName field.name = true :=
    fun field hfield => ((hm.shaped name _ h).2.2 field hfield).1
  rw [fieldNames, ownFields_eq h]
  generalize ownLines settings m name = lines at hlines
  generalize r.fields = fields at hlines hnames
  induction hlines with
  | nil => rfl
  | cons hline _ ih =>
      obtain ⟨hfirst, hrest⟩ := List.forall_mem_cons.mp hnames
      rw [listedFields, List.filterMap_cons_some (fieldOf?_fieldLine hfirst hline), List.map_cons]
      exact congrArg _ (ih hrest)

theorem listedFields_startMarks (names : List String) :
    listedFields (names.map startMark) = [] := by
  refine List.filterMap_eq_nil_iff.mpr fun line hline => ?_
  obtain ⟨y, -, rfl⟩ := List.mem_map.mp hline
  exact fieldOf?_startMark

theorem listedFields_openingLines_some {k : Nat} (hk : k ≤ above.length) :
    listedFields (openingLines above (some k)) = ["_id"] := by
  have hidentity : fieldOf? identityLine = some "_id" := by decide
  induction above generalizing k with
  | nil =>
      obtain rfl : k = 0 := Nat.le_zero.mp hk
      decide
  | cons parent above ih =>
      cases k with
      | zero =>
          show listedFields (identityLine :: (parent :: above).map startMark) = ["_id"]
          rw [listedFields, List.filterMap_cons_some hidentity]
          exact congrArg _ (listedFields_startMarks _)
      | succ k =>
          have hrest := ih (Nat.le_of_succ_le_succ hk)
          rw [show openingLines (parent :: above) (some (k + 1))
              = startMark parent :: openingLines above (some k) from openingLines_cons (some k),
            listedFields, List.filterMap_cons_none fieldOf?_startMark]
          exact hrest

/-- The opening marks name nothing, so that the identity stands alone there if it has a place. -/
theorem listedFields_openingLines (hplace : m.IdentityPlace (name :: above) place) :
    listedFields (openingLines above place) = if place = none then [] else ["_id"] := by
  cases place with
  | none => exact listedFields_startMarks above
  | some k => exact listedFields_openingLines_some hplace.le_length

/-- The lines of a type name the identity if it is inserted, and then the fields along its
chain. -/
theorem listedFields_flatLines (hm : m.WellFormed)
    (hrecords : ∀ y ∈ name :: above, ∃ r, m.get? y = some (.record r))
    (hplace : m.IdentityPlace (name :: above) place) :
    listedFields (flatLines (ownLines settings m) name above place)
      = (if place = none then [] else ["_id"])
        ++ (m.fieldsAlong (name :: above)).map Field.name := by
  have hown : ∀ y ∈ name :: above, listedFields (ownLines settings m y) = m.fieldNames y := by
    intro y hy
    obtain ⟨r, hr⟩ := hrecords y hy
    exact listedFields_ownLines hm hr
  have hclosing : listedFields (above.reverse.flatMap fun y => ownLines settings m y ++ [endMark y])
      = above.reverse.flatMap m.fieldNames := by
    rw [listedFields, List.filterMap_flatMap]
    refine List.flatMap_congr fun y hy => ?_
    have hy : y ∈ name :: above := List.mem_cons_of_mem _ (List.mem_reverse.mp hy)
    rw [List.filterMap_append, List.filterMap_cons_none fieldOf?_endMark, List.filterMap_nil,
      List.append_nil]
    exact hown y hy
  calc listedFields (flatLines (ownLines settings m) name above place)
      = listedFields (openingLines above place)
          ++ listedFields (above.reverse.flatMap fun y => ownLines settings m y ++ [endMark y])
          ++ listedFields (ownLines settings m name) := by
        simp only [flatLines, listedFields, List.filterMap_append]
    _ = (if place = none then [] else ["_id"])
          ++ (above.reverse.flatMap m.fieldNames ++ m.fieldNames name) := by
        rw [listedFields_openingLines hplace, hclosing, hown name (List.mem_cons_self ..),
          List.append_assoc]
    _ = _ := by
        rw [map_name_fieldsAlong, List.reverse_cons, List.flatMap_append, List.flatMap_singleton]

theorem nodup_listedFields_iff (hm : m.WellFormed)
    (hrecords : ∀ y ∈ name :: above, ∃ r, m.get? y = some (.record r))
    (hplace : m.IdentityPlace (name :: above) place) :
    (listedFields (flatLines (ownLines settings m) name above place)).Nodup
      ↔ m.DistinctFields (name :: above) place := by
  have hfields := @nodup_fieldsAlong_iff m (name :: above)
  have hidentity := @identity_mem_fieldsAlong_iff m (name :: above)
  rw [listedFields_flatLines hm hrecords hplace]
  by_cases hnone : place = none
  · rw [if_pos hnone, List.nil_append, hfields]
    exact ⟨fun ⟨hwithin, hbetween⟩ => ⟨hwithin, hbetween, fun h => absurd hnone h⟩,
      fun h => ⟨h.within, h.between⟩⟩
  · rw [if_neg hnone, List.singleton_append, List.nodup_cons, hfields, hidentity]
    constructor
    · rintro ⟨hdeclares, hwithin, hbetween⟩
      exact ⟨hwithin, hbetween, fun _ y hy hdecl => hdeclares ⟨y, hy, hdecl⟩⟩
    · intro h
      exact ⟨fun ⟨y, hy, hdecl⟩ => h.identity hnone y hy hdecl, h.within, h.between⟩

end GraphQL

namespace Artifacts

open SchemaGen.GraphQL (listedFields flatLines ownLines typeCode)

variable {settings : Settings} {m : Model} {a : Artifacts}

/-- The type of a record lists no field twice exactly when the fields of its chain, with the
identity where the line for it is inserted, are distinct. -/
theorem lists_fields_once_iff {value : Value} (h : (ofValue settings value).result = .ok a)
    (hread : (Model.read value).result = .ok m) {name : String} {r : Record}
    (hr : m.get? name = some (.record r)) :
    ∃ above place, m.Lineage name above ∧ m.IdentityPlace (name :: above) place
      ∧ (∃ t ∈ a.types, t.name = name)
      ∧ (∀ t ∈ a.types, t.name = name →
          t.sdl = typeCode name (flatLines (ownLines settings m) name above place))
      ∧ ((listedFields (flatLines (ownLines settings m) name above place)).Nodup
          ↔ m.DistinctFields (name :: above) place) := by
  obtain ⟨_, m', -, hread', -, hm, hcomplete⟩ := ofValue_eq_ok h
  obtain rfl := Except.ok.inj (hread'.symm.trans hread)
  obtain ⟨above, place, hchain, hplace, hin, htext⟩ := hcomplete.exists_flatLines hm hr
  have hrecords : ∀ y ∈ name :: above, ∃ r, m'.get? y = some (.record r) :=
    List.forall_mem_cons.mpr ⟨⟨r, hr⟩, hm.lineage_records hchain⟩
  exact ⟨above, place, hchain, hplace, hin, htext,
    GraphQL.nodup_listedFields_iff hm hrecords hplace⟩

/-- Accounts with a field of their own for the identity, which they are also given as a base. -/
def account : Value := .object [
  ("Account", .object [("fields", .object [("_id", .text "id"), ("owner", .text "string")]),
    ("meta", .object [("dbBase", .bool true)])])]

theorem account_identity_twice : ∃ a t, (ofValue {} account).result = .ok a ∧ t ∈ a.types
    ∧ t.sdl = typeCode "Account" ["_id: ID!", "_id: ID", "owner: String"]
    ∧ ¬(listedFields ["_id: ID!", "_id: ID", "owner: String"]).Nodup :=
  ⟨_, _, rfl, List.mem_cons_self .., rfl, by decide⟩

/-- Accounts below others, with a field that those have already. -/
def savings : Value := .object [
  ("Account", .object [("fields", .object [("owner", .text "string")])]),
  ("Savings", .object [("extends", .text "Account"),
    ("fields", .object [("owner", .text "id"), ("rate", .text "number")])])]

theorem savings_owner_twice : ∃ a m r above place, (ofValue {} savings).result = .ok a
    ∧ (Model.read savings).result = .ok m ∧ m.get? "Savings" = some (.record r)
    ∧ m.Lineage "Savings" above ∧ m.IdentityPlace ("Savings" :: above) place
    ∧ (∃ t ∈ a.types, t.name = "Savings")
    ∧ (∀ t ∈ a.types, t.name = "Savings" →
        t.sdl = typeCode "Savings" (flatLines (ownLines {} m) "Savings" above place))
    ∧ ¬(listedFields (flatLines (ownLines {} m) "Savings" above place)).Nodup := by
  obtain ⟨a, ha⟩ : ∃ a, (ofValue {} savings).result = .ok a := ⟨_, rfl⟩
  obtain ⟨m, r, hread, hr, hlineage, hnames, hparent⟩ : ∃ m r,
      (Model.read savings).result = .ok m ∧ m.get? "Savings" = some (.record r)
      ∧ m.Lineage "Savings" ["Account"] ∧ m.fieldNames "Savings" = ["owner", "rate"]
      ∧ m.fieldNames "Account" = ["owner"] :=
    ⟨_, _, rfl, rfl, .under rfl (.top (by decide) rfl), rfl, rfl⟩
  obtain ⟨above, place, hchain, hplace, hin, htext, honce⟩ := lists_fields_once_iff ha hread hr
  obtain rfl := hchain.unique hlineage
  refine ⟨a, m, r, _, place, ha, hread, hr, hchain, hplace, hin, htext, fun hnodup => ?_⟩
  have hdisjoint := (List.pairwise_cons.mp (honce.mp hnodup).between).1 _ (List.mem_cons_self ..)
  rw [hnames, hparent] at hdisjoint
  exact hdisjoint (List.mem_cons_self ..) (List.mem_cons_self ..)

end Artifacts

end SchemaGen
