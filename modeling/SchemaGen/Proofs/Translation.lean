import SchemaGen.GraphQL.Types
import SchemaGen.Mongoose
import SchemaGen.Proofs.Reading
import SchemaGen.TypeScript

/-!
# Well-formed definitions translate

Each target looks primitives up in a table of its own and has no case for a
type without a shape, so each translator is partial. On the field types
that can be written none of them fails: the tables hold every primitive
name (`mem_primitiveNames`), and the rest is an induction on the type.

The three targets share one argument for whole records. A list of fields
translates when each field does, line by line (`mapM_ok`).
-/

namespace SchemaGen

open SchemaGen.Model

/-- A list is translated when each of its items is, and the results stand in the same order. -/
theorem mapM_ok {α β ε : Type} {f : α → Except ε β} {items : List α}
    (h : ∀ item ∈ items, ∃ b, f item = .ok b) :
    ∃ results, items.mapM f = .ok results
      ∧ List.Forall₂ (fun item b => f item = .ok b) items results := by
  induction items with
  | nil => exact ⟨[], rfl, .nil⟩
  | cons item items ih =>
      obtain ⟨b, hb⟩ := h item (List.mem_cons_self ..)
      obtain ⟨results, hrun, hall⟩ := ih fun other hother => h other (List.mem_cons_of_mem _ hother)
      refine ⟨b :: results, ?_, .cons hb hall⟩
      rw [List.mapM_cons, hb, hrun]
      rfl

theorem map_ok {α β ε : Type} {x : Except ε α} (f : α → β) (h : ∃ a, x = .ok a) :
    ∃ b, x.map f = .ok b := by
  obtain ⟨a, rfl⟩ := h
  exact ⟨f a, rfl⟩

theorem map_eq_ok {α β ε : Type} {x : Except ε α} {f : α → β} {b : β} (h : x.map f = .ok b) :
    ∃ a, x = .ok a ∧ f a = b :=
  map_eq_ok_iff.mp h

theorem bind_eq_ok {α β ε : Type} {x : Except ε α} {f : α → Except ε β} {b : β}
    (h : x >>= f = .ok b) : ∃ a, x = .ok a ∧ f a = .ok b :=
  bind_eq_ok_iff.mp h

theorem mapError_eq_ok {α ε ε' : Type} {f : ε → ε'} {x : Except ε α} {a : α}
    (h : x.mapError f = .ok a) : x = .ok a := by
  cases x with
  | error fault => cases h
  | ok b => rw [Except.ok.inj h]

/-- The results of a run stand in the order of their items. -/
theorem forall₂_of_mapM {α β ε : Type} {f : α → Except ε β} {items : List α} {results : List β}
    (h : items.mapM f = .ok results) :
    List.Forall₂ (fun item b => f item = .ok b) items results := by
  induction items generalizing results with
  | nil =>
      obtain rfl := Except.ok.inj h
      exact .nil
  | cons item items ih =>
      rw [List.mapM_cons] at h
      obtain ⟨first, hfirst, h⟩ := bind_eq_ok h
      obtain ⟨rest, hrest, h⟩ := bind_eq_ok h
      obtain rfl := Except.ok.inj h
      exact .cons hfirst (ih hrest)

/-- Another run over the same items has the same results, if each item has. -/
theorem mapM_of_mapM {α β ε : Type} {f g : α → Except ε β} {items : List α} {results : List β}
    (h : items.mapM f = .ok results)
    (hsame : ∀ item ∈ items, ∀ b, f item = .ok b → g item = .ok b) :
    items.mapM g = .ok results := by
  induction items generalizing results with
  | nil => exact h
  | cons item items ih =>
      obtain ⟨hitem, hitems⟩ := List.forall_mem_cons.mp hsame
      rw [List.mapM_cons] at h ⊢
      obtain ⟨first, hfirst, h⟩ := bind_eq_ok h
      obtain ⟨rest, hrest, h⟩ := bind_eq_ok h
      rw [hitem first hfirst, ih hrest hitems]
      exact h

/-- What is related to a list has something related to each of its items. -/
theorem exists_of_forall₂ {α β : Type} {R : α → β → Prop} {items : List α} {others : List β}
    (h : List.Forall₂ R items others) : ∀ x ∈ items, ∃ y ∈ others, R x y := by
  intro x hx
  induction h with
  | nil => cases hx
  | cons hfirst _ ih =>
      rcases List.mem_cons.mp hx with rfl | hx
      · exact ⟨_, List.mem_cons_self .., hfirst⟩
      · obtain ⟨y, hy, hrelated⟩ := ih hx
        exact ⟨y, List.mem_cons_of_mem _ hy, hrelated⟩

/-- Every result comes from an item. -/
theorem exists_of_mem_mapM {α β ε : Type} {f : α → Except ε β} {items : List α} {results : List β}
    (h : items.mapM f = .ok results) : ∀ b ∈ results, ∃ item ∈ items, f item = .ok b :=
  exists_of_forall₂ (forall₂_of_mapM h).flip

/-- A table with every primitive name translates every primitive. -/
theorem primitiveIn_ok {table : Table String} (htable : FieldType.primitiveNames ⊆ Table.keys table)
    {name : String} (hname : name ∈ FieldType.primitiveNames) :
    ∃ text, primitiveIn table name = .ok text := by
  obtain ⟨text, htext⟩ := Option.isSome_iff_exists.mp (Table.get?_isSome.mpr (htable hname))
  exact ⟨text, by rw [primitiveIn, htext]⟩

theorem mem_of_primitiveIn {table : Table String} {name text : String}
    (h : primitiveIn table name = .ok text) : (name, text) ∈ table := by
  unfold primitiveIn at h
  split at h
  · rename_i found hget
    obtain rfl := Except.ok.inj h
    exact Table.mem_of_get? hget
  · cases h

/-- What holds of a whole table holds of what is found in it. -/
theorem primitiveIn_mem {P : String → Prop} {table : Table String} (htable : ∀ e ∈ table, P e.2)
    {name text : String} (h : primitiveIn table name = .ok text) : P text :=
  htable _ (mem_of_primitiveIn h)

theorem Model.FieldType.Written.unwrap {type : FieldType} (h : type.Written) :
    type.unwrap.Written := by
  induction type with
  | required inner ih => exact ih h
  | shapeless => exact h
  | primitive name => exact h
  | reference name => exact h
  | array item _ => exact h

theorem Model.FieldType.references_unwrap (type : FieldType) :
    type.unwrap.references = type.references := by
  induction type with
  | required inner ih => exact ih
  | shapeless => rfl
  | primitive name => rfl
  | reference name => rfl
  | array item _ => rfl

/-! ## Field types -/

theorem TypeScript.typeText_ok {type : FieldType} (h : type.Written) :
    ∃ text, TypeScript.typeText type = .ok text := by
  induction type with
  | shapeless => exact h.elim
  | primitive name => exact primitiveIn_ok (by decide) h
  | reference name => exact ⟨name, rfl⟩
  | array item ih => exact map_ok _ (ih h)
  | required inner ih => exact ih h

theorem Mongoose.typeText_ok (settings : Settings) {type : FieldType} (h : type.Written) :
    ∃ text, Mongoose.typeText settings type = .ok text := by
  induction type with
  | shapeless => exact h.elim
  | primitive name => exact primitiveIn_ok (by decide) h
  | reference name => exact ⟨_, rfl⟩
  | array item ih => exact map_ok _ (ih h)
  | required inner ih => exact ih h

theorem GraphQL.typeValue_ok (settings : Settings) {type : FieldType} (h : type.Written) :
    ∃ value, GraphQL.typeValue settings type = .ok value := by
  induction type with
  | shapeless => exact h.elim
  | primitive name =>
      -- the scalar for `any` comes from the settings, the others from the table
      unfold GraphQL.typeValue
      split
      · exact ⟨_, rfl⟩
      · rename_i hany
        refine map_ok _ ?_
        have hname : name ∈ Table.keys GraphQL.primitives := by
          simp only [FieldType.Written, FieldType.primitiveNames, List.mem_cons, hany] at h
          simpa [GraphQL.primitives, Table.keys] using h
        obtain ⟨text, htext⟩ := Option.isSome_iff_exists.mp (Table.get?_isSome.mpr hname)
        exact ⟨text, by rw [primitiveIn, htext]⟩
  | reference name => exact ⟨_, rfl⟩
  | array item ih => exact map_ok _ (ih h)
  | required inner ih => exact map_ok _ (ih h)

/-- The scalar for `any` comes from the settings, every other counterpart from the table. -/
theorem GraphQL.typeValue_primitive {settings : Settings} {name : String} {value : Json.Value}
    (h : GraphQL.typeValue settings (.primitive name) = .ok value) :
    (name = "any" ∧ value = settings.graphqlAnyScalar)
      ∨ ∃ text, (name, text) ∈ GraphQL.primitives ∧ value = .text text := by
  unfold GraphQL.typeValue at h
  split at h
  · rename_i hany
    exact Or.inl ⟨hany, (Except.ok.inj h).symm⟩
  · obtain ⟨text, htext, rfl⟩ := map_eq_ok h
    exact Or.inr ⟨text, mem_of_primitiveIn htext, rfl⟩

/-! ## Definitions -/

theorem TypeScript.code_ok {d : Definition} (h : d.WellFormed) :
    ∃ text, TypeScript.code d = .ok text := by
  cases d with
  | record r =>
      have hline : ∀ field ∈ r.fields, ∃ line, TypeScript.fieldLine field = .ok line :=
        fun field hfield => map_ok _ (TypeScript.typeText_ok (h.2 field hfield).2)
      obtain ⟨lines, hlines, -⟩ := mapM_ok hline
      show ∃ text, TypeScript.recordCode r = .ok text
      unfold TypeScript.recordCode
      split
      · exact ⟨_, rfl⟩
      · rw [hlines]
        exact ⟨_, rfl⟩
  | enumeration e => exact ⟨_, rfl⟩
  | bare name => exact h.elim

theorem Mongoose.code_ok (settings : Settings) {d : Definition} (h : d.WellFormed) :
    ∃ text, Mongoose.code settings d = .ok text := by
  cases d with
  | record r =>
      have hline : ∀ field ∈ r.fields, ∃ line, Mongoose.fieldLine settings field = .ok line :=
        fun field hfield =>
          map_ok _ (map_ok _ (Mongoose.typeText_ok settings (h.2 field hfield).2.unwrap))
      obtain ⟨lines, hlines, -⟩ := mapM_ok hline
      show ∃ text, Mongoose.recordCode settings r = .ok text
      unfold Mongoose.recordCode
      split
      · exact ⟨_, rfl⟩
      · rw [hlines]
        exact ⟨_, rfl⟩
  | enumeration e => exact ⟨_, rfl⟩
  | bare name => exact h.elim

theorem GraphQL.fieldLines_ok (settings : Settings) {r : Record}
    (h : (Definition.record r).WellFormed) :
    ∃ lines, r.fields.mapM (GraphQL.fieldLine settings) = .ok lines
      ∧ List.Forall₂ (fun field line => GraphQL.fieldLine settings field = .ok line)
          r.fields lines :=
  mapM_ok fun field hfield =>
    map_ok _ (map_ok _ (GraphQL.typeValue_ok settings (h.2 field hfield).2))

end SchemaGen
