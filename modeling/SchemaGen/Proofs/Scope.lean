import SchemaGen.Proofs.Declarations
import SchemaGen.Proofs.Flattening
import SchemaGen.Proofs.Preorder

/-!
# Resolving what declarations take over

A declaration that names a parent says only a part of what its type holds.
`Scope` collects the declarations of a target one after another and keeps
for every record all of its fields, those of the parent first. A parent has
to be declared before, else there is no scope.

`Declares` is what a declaration says about the type of the model that it
was made for. Two forms of records occur: one names the parent, the other
repeats the fields of the whole chain. `Describes` is the invariant of a
scope: it holds the fields along the chain for each record declared so far.
Under parents first `declare` keeps it (`Describes.declare`), whichever of
the forms a target uses, and so the declarations of all types make a scope
that describes them all (`Describes.foldlM`).
-/

namespace SchemaGen

open SchemaGen.Model

def Model.ownFields (m : Model) (name : String) : List Field :=
  match m.get? name with
  | some (.record r) => r.fields
  | _ => []

/-- The fields along a chain of parents, those of the topmost record first. -/
def Model.fieldsAlong (m : Model) (chain : List String) : List Field :=
  chain.reverse.flatMap m.ownFields

theorem Model.ownFields_eq {m : Model} {name : String} {r : Record}
    (h : m.get? name = some (.record r)) : m.ownFields name = r.fields := by
  rw [Model.ownFields, h]

theorem Model.fieldsAlong_cons (m : Model) (name : String) (above : List String) :
    m.fieldsAlong (name :: above) = m.fieldsAlong above ++ m.ownFields name := by
  rw [fieldsAlong, List.reverse_cons, List.flatMap_append, List.flatMap_singleton, fieldsAlong]

theorem Model.exists_of_mem_fieldsAlong {m : Model} {chain : List String} {field : Field}
    (h : field ∈ m.fieldsAlong chain) :
    ∃ name r, m.get? name = some (.record r) ∧ field ∈ r.fields := by
  obtain ⟨name, -, hfield⟩ := List.mem_flatMap.mp h
  unfold ownFields at hfield
  split at hfield
  · rename_i r hr
    exact ⟨name, r, hr, hfield⟩
  · cases hfield

/-! ## Scopes -/

/-- The fields of the records and the values of the enumerations that are declared. -/
structure Scope (φ ν : Type) where
  fields : Table (List φ)
  values : Table (List ν)

namespace Scope

variable {φ ν : Type}

/-- The fields that a record takes over. -/
def inherited? (scope : Scope φ ν) : Option String → Option (List φ)
  | none => some []
  | some parent => Table.get? scope.fields parent

def declare (scope : Scope φ ν) : Declaration φ ν → Option (Scope φ ν)
  | .record name parent fields =>
    (scope.inherited? parent).map fun inherited =>
      { scope with fields := Table.set scope.fields name (inherited ++ fields) }
  | .enumeration name values => some { scope with values := Table.set scope.values name values }

/-- The scope of the code of types, where each piece has to declare its type under the key. -/
def ofCode? (read : String → Option (Declaration φ ν)) (key : String → String)
    (code : TypeCode → String) (types : List TypeCode) : Option (Scope φ ν) :=
  (types.mapM fun t => (read (code t)).filter fun d => d.name == key t.name).bind
    fun declarations => declarations.foldlM declare ⟨[], []⟩

end Scope

/-! ## Declarations of the types of a model -/

section

variable {φ ν : Type} (m : Model) (key : String → String) (Shows : Field → φ → Prop)
  (value : String → ν)

/-- The declaration of a type under its key. A record names its parent, or else repeats the fields
of all its ancestors. -/
inductive Declares : String → Declaration φ ν → Prop
  | extending {name : String} {r : Record} {fields : List φ} :
      m.get? name = some (.record r) → List.Forall₂ Shows r.fields fields →
      Declares name (.record (key name) (r.parent.map key) fields)
  | repeating {name : String} {r : Record} {above : List String} {fields : List φ} :
      m.get? name = some (.record r) → m.Lineage name above →
      List.Forall₂ Shows (m.fieldsAlong (name :: above)) fields →
      Declares name (.record (key name) none fields)
  | enumeration {name : String} {e : Enumeration} :
      m.get? name = some (.enumeration e) →
      Declares name (.enumeration (key name) (e.values.map value))

/-- The scope holds the fields of the records in `done` and the values of the enumerations. -/
structure Describes (done : List String) (scope : Scope φ ν) : Prop where
  records : ∀ name ∈ done, ∀ r, m.get? name = some (.record r) → ∀ above, m.Lineage name above →
    ∃ fields, Table.get? scope.fields (key name) = some fields
      ∧ List.Forall₂ Shows (m.fieldsAlong (name :: above)) fields
  enumerations : ∀ name ∈ done, ∀ e, m.get? name = some (.enumeration e) →
    Table.get? scope.values (key name) = some (e.values.map value)

end

variable {φ ν : Type} {m : Model} {key : String → String} {Shows : Field → φ → Prop}
  {value : String → ν} {done : List String} {scope : Scope φ ν}

theorem Declares.name_eq {name : String} {d : Declaration φ ν}
    (h : Declares m key Shows value name d) : d.name = key name := by
  cases h <;> rfl

/-- What a record declares together with what it takes over is all of its fields. -/
theorem Declares.inherited? {name keyed : String} {parent : Option String} {fields : List φ}
    (hm : m.WellFormed) (h : Declares m key Shows value name (.record keyed parent fields))
    (hscope : Describes m key Shows value done scope) {above : List String}
    (hchain : m.Lineage name above) (hparent : ∀ p, m.Extends name p → p ∈ done) :
    ∃ inherited, scope.inherited? parent = some inherited
      ∧ List.Forall₂ Shows (m.fieldsAlong (name :: above)) (inherited ++ fields) := by
  cases h with
  | repeating _ hchain' hfields =>
      obtain rfl := hchain.unique hchain'
      exact ⟨[], rfl, hfields⟩
  | @extending r _ hr hfields =>
      rw [Model.fieldsAlong_cons, Model.ownFields_eq hr]
      have hparents := hm.lineage_records hchain
      cases hchain with
      | top _ hnone =>
          rw [modelParent_eq hr] at hnone
          refine ⟨[], ?_, hfields⟩
          rw [show r.parent = none from hnone]
          rfl
      | @under _ p _ hext hrest =>
          obtain ⟨r', hr'⟩ := hparents p (List.mem_cons_self ..)
          obtain ⟨inherited, hget, hshows⟩ := hscope.records p (hparent p hext) r' hr' _ hrest
          refine ⟨inherited, ?_, List.rel_append hshows hfields⟩
          rw [show r.parent = some p from (modelParent_eq hr).symm.trans hext]
          exact hget

theorem mem_of_mem_append_singleton {other name : String} (h : other ∈ done ++ [name])
    (hne : other ≠ name) : other ∈ done :=
  (List.mem_append.mp h).resolve_right fun hmem => hne (List.mem_singleton.mp hmem)

theorem Describes.record (hkey : Function.Injective key)
    (hscope : Describes m key Shows value done scope) {name : String} {r : Record}
    (hr : m.get? name = some (.record r)) {above : List String} (hchain : m.Lineage name above)
    {fields : List φ} (hshows : List.Forall₂ Shows (m.fieldsAlong (name :: above)) fields) :
    Describes m key Shows value (done ++ [name])
      { scope with fields := Table.set scope.fields (key name) fields } := by
  constructor
  · intro other hother r' hr' above' hchain'
    rw [Table.get?_set]
    by_cases heq : key name = key other
    · obtain rfl := hkey heq
      obtain rfl := hchain.unique hchain'
      exact ⟨fields, if_pos rfl, hshows⟩
    · rw [if_neg heq]
      have hne : other ≠ name := fun h => heq (h ▸ rfl)
      exact hscope.records other (mem_of_mem_append_singleton hother hne) r' hr' _ hchain'
  · intro other hother e he
    have hne : other ≠ name := by
      rintro rfl
      cases hr.symm.trans he
    exact hscope.enumerations other (mem_of_mem_append_singleton hother hne) e he

theorem Describes.enumeration (hkey : Function.Injective key)
    (hscope : Describes m key Shows value done scope) {name : String} {e : Enumeration}
    (he : m.get? name = some (.enumeration e)) :
    Describes m key Shows value (done ++ [name])
      { scope with values := Table.set scope.values (key name) (e.values.map value) } := by
  constructor
  · intro other hother r hr
    have hne : other ≠ name := by
      rintro rfl
      cases hr.symm.trans he
    exact hscope.records other (mem_of_mem_append_singleton hother hne) r hr
  · intro other hother e' he'
    rw [Table.get?_set]
    by_cases heq : key name = key other
    · obtain rfl := hkey heq
      rw [if_pos rfl, Definition.enumeration.inj (Option.some.inj (he.symm.trans he'))]
    · rw [if_neg heq]
      have hne : other ≠ name := fun h => heq (h ▸ rfl)
      exact hscope.enumerations other (mem_of_mem_append_singleton hother hne) e' he'

/-- One declaration more, after that of the parent. -/
theorem Describes.declare (hm : m.WellFormed) (hkey : Function.Injective key)
    (hscope : Describes m key Shows value done scope) {name : String} {d : Declaration φ ν}
    (hd : Declares m key Shows value name d) (hchain : ∃ above, m.Lineage name above)
    (hparent : ∀ p, m.Extends name p → p ∈ done) :
    ∃ after, scope.declare d = some after
      ∧ Describes m key Shows value (done ++ [name]) after := by
  cases d with
  | record keyed parent fields =>
      obtain ⟨above, hchain⟩ := hchain
      obtain ⟨inherited, hinherited, hshows⟩ := hd.inherited? hm hscope hchain hparent
      obtain ⟨rfl, r, hr⟩ : keyed = key name ∧ ∃ r, m.get? name = some (.record r) := by
        cases hd with
        | extending hr _ => exact ⟨rfl, _, hr⟩
        | repeating hr _ _ => exact ⟨rfl, _, hr⟩
      refine ⟨_, ?_, hscope.record hkey hr hchain hshows⟩
      rw [Scope.declare, hinherited, Option.map_some]
  | enumeration keyed values =>
      cases hd with
      | enumeration he => exact ⟨_, rfl, hscope.enumeration hkey he⟩

theorem Describes.foldlM (hm : m.WellFormed) (hkey : Function.Injective key)
    (hscope : Describes m key Shows value done scope) {rest : List String}
    {declarations : List (Declaration φ ν)}
    (h : List.Forall₂ (Declares m key Shows value) rest declarations)
    (hchains : ∀ name ∈ rest, ∃ above, m.Lineage name above)
    (hfirst : m.ParentsFirst (done ++ rest)) :
    ∃ after, declarations.foldlM Scope.declare scope = some after
      ∧ Describes m key Shows value (done ++ rest) after := by
  induction h generalizing done scope with
  | nil => exact ⟨scope, rfl, by simpa using hscope⟩
  | @cons name d rest declarations hd _ ih =>
      obtain ⟨hchain, hchains⟩ := List.forall_mem_cons.mp hchains
      obtain ⟨next, hnext, hdescribes⟩ :=
        hscope.declare hm hkey hd hchain (hfirst done name rest rfl)
      have hsplit : done ++ name :: rest = (done ++ [name]) ++ rest := by simp
      rw [hsplit] at hfirst ⊢
      obtain ⟨after, hafter, hall⟩ := ih hdescribes hchains hfirst
      refine ⟨after, ?_, hall⟩
      rw [List.foldlM_cons, hnext]
      exact hafter

theorem Describes.ofCode (hm : m.WellFormed) (hkey : Function.Injective key)
    {read : String → Option (Declaration φ ν)} {code : TypeCode → String} {types : List TypeCode}
    (hread : ∀ t ∈ types, ∃ d, read (code t) = some d ∧ Declares m key Shows value t.name d)
    (hchains : ∀ t ∈ types, ∃ above, m.Lineage t.name above)
    (hfirst : m.ParentsFirst (types.map TypeCode.name)) :
    ∃ scope, Scope.ofCode? read key code types = some scope
      ∧ Describes m key Shows value (types.map TypeCode.name) scope := by
  have hreads : ∀ t ∈ types, ∀ u, t = u →
      ∃ d, (read (code u)).filter (fun d => d.name == key u.name) = some d
        ∧ Declares m key Shows value t.name d := by
    rintro t ht _ rfl
    obtain ⟨d, hd, hdeclares⟩ := hread t ht
    refine ⟨d, ?_, hdeclares⟩
    rw [hd, Option.filter_some, hdeclares.name_eq, beq_self_eq_true, if_pos rfl]
  obtain ⟨declarations, hmap, hall⟩ :=
    exists_mapM_of_forall₂ (List.forall₂_same.mpr fun _ _ => rfl) hreads
  have hnone : Describes m key Shows value [] (⟨[], []⟩ : Scope φ ν) := ⟨by simp, by simp⟩
  obtain ⟨scope, hscope, hdescribes⟩ := hnone.foldlM hm hkey
    (List.forall₂_map_left_iff.mpr hall) (by simpa using hchains) hfirst
  refine ⟨scope, ?_, hdescribes⟩
  rw [Scope.ofCode?, hmap, Option.bind_some, hscope]

end SchemaGen
