import Mathlib.Data.List.Nodup
import Mathlib.Logic.Relation
import SchemaGen.Hierarchy

/-!
# Lineages

The chain of parents above a type, said on the model alone: no tree is built here.

`Lineage m name above` is the healthy case. It holds when the parents of
`name`, nearest first, are `above`, and the last of them has no parent.
The chain is then unique (`Lineage.unique`), free of repetition
(`Lineage.nodup`), and consists of exactly the ancestors
(`Lineage.mem_iff`).

The two unhealthy cases are `LeavesModel`, where a parent on the way up is
not in the model, and `Revisits`, where a type on the way up is its own
ancestor. Either one excludes a lineage. That one of the three always
holds is a result about climbing and not about chains, and stands with the
tree.
-/

namespace SchemaGen

namespace Model

/-- `child` is a type of the model that names `parent` as its parent. -/
def Extends (m : Model) (child parent : String) : Prop :=
  Hierarchy.modelParent m child = some parent

/-- `ancestor` is met on the way up from `name`, one or more steps away. -/
def Ancestor (m : Model) : String → String → Prop := Relation.TransGen m.Extends

/-- The parents of a type up to one without a parent, nearest first. -/
inductive Lineage (m : Model) : String → List String → Prop
  | top {name : String} :
      name ∈ m.names → Hierarchy.modelParent m name = none → Lineage m name []
  | under {name parent : String} {above : List String} :
      m.Extends name parent → Lineage m parent above → Lineage m name (parent :: above)

/-- Somewhere on the way up from `name`, a type names a parent that the model does not have. -/
def LeavesModel (m : Model) (name : String) : Prop :=
  ∃ child parent, Relation.ReflTransGen m.Extends name child
    ∧ m.Extends child parent ∧ parent ∉ m.names

/-- The way up from `name` comes back to a type that it has passed. -/
def Revisits (m : Model) (name : String) : Prop :=
  ∃ again, Relation.ReflTransGen m.Extends name again ∧ m.Ancestor again again

/-! ## Single steps -/

theorem extends_iff {m : Model} {child parent : String} :
    m.Extends child parent ↔ ∃ d, m.get? child = some d ∧ d.parent? = some parent := by
  simp only [Extends, Hierarchy.modelParent, Option.bind_eq_some_iff]

theorem modelParent_eq {m : Model} {name : String} {d : Definition}
    (h : m.get? name = some d) : Hierarchy.modelParent m name = d.parent? := by
  simp [Hierarchy.modelParent, h]

theorem mem_names_of_get? {m : Model} {name : String} {d : Definition}
    (h : m.get? name = some d) : name ∈ m.names :=
  get?_isSome.mp (by rw [h]; rfl)

theorem exists_get? {m : Model} {name : String} (h : name ∈ m.names) :
    ∃ d, m.get? name = some d :=
  Option.isSome_iff_exists.mp (get?_isSome.mpr h)

theorem Extends.mem_names {m : Model} {child parent : String} (h : m.Extends child parent) :
    child ∈ m.names := by
  obtain ⟨d, hd, -⟩ := extends_iff.mp h
  exact mem_names_of_get? hd

/-- A type has one parent at most. -/
theorem Extends.unique {m : Model} {child p q : String}
    (hp : m.Extends child p) (hq : m.Extends child q) : p = q :=
  Option.some.inj (hp.symm.trans hq)

/-- The way to an ancestor begins with a parent. -/
theorem Ancestor.firstStep {m : Model} {name ancestor : String} (h : m.Ancestor name ancestor) :
    ∃ parent, m.Extends name parent ∧ Relation.ReflTransGen m.Extends parent ancestor :=
  Relation.TransGen.head'_iff.mp h

/-! ## The healthy chain -/

namespace Lineage

variable {m : Model} {name : String} {above : List String}

theorem mem_names (h : m.Lineage name above) : name ∈ m.names := by
  cases h with
  | top hname _ => exact hname
  | under hext _ => exact hext.mem_names

theorem unique (h : m.Lineage name above) {above' : List String}
    (h' : m.Lineage name above') : above = above' := by
  induction h generalizing above' with
  | top _ hnone =>
      cases h' with
      | top _ _ => rfl
      | under hext _ => exact absurd (hnone.symm.trans hext) (by simp)
  | under hext _ ih =>
      cases h' with
      | top _ hnone => exact absurd (hnone.symm.trans hext) (by simp)
      | under hext' hrest =>
          obtain rfl := hext.unique hext'
          rw [ih hrest]

/-- A type on the chain has the rest of the chain as its own. -/
theorem suffix (h : m.Lineage name above) {ancestor : String} (hmem : ancestor ∈ above) :
    ∃ below beyond, above = below ++ ancestor :: beyond ∧ m.Lineage ancestor beyond := by
  induction h with
  | top _ _ => cases hmem
  | @under name parent above hext hrest ih =>
      rcases List.mem_cons.mp hmem with rfl | hmem
      · exact ⟨[], above, rfl, hrest⟩
      · obtain ⟨below, beyond, rfl, hchain⟩ := ih hmem
        exact ⟨parent :: below, beyond, rfl, hchain⟩

/-- A type that came back on its own chain would have two chains of different length. -/
theorem nodup (h : m.Lineage name above) : (name :: above).Nodup := by
  induction h with
  | top _ _ => exact List.nodup_singleton _
  | under hext hrest ih =>
      refine List.nodup_cons.mpr ⟨fun hmem => ?_, ih⟩
      have hchain := Lineage.under hext hrest
      obtain ⟨below, beyond, heq, hbeyond⟩ := hchain.suffix hmem
      have hlen := congrArg List.length (heq.symm.trans (hbeyond.unique hchain).symm)
      simp only [List.length_append, List.length_cons] at hlen
      omega

theorem mem_names_of_mem (h : m.Lineage name above) {ancestor : String}
    (hmem : ancestor ∈ above) : ancestor ∈ m.names := by
  obtain ⟨_, _, -, hchain⟩ := h.suffix hmem
  exact hchain.mem_names

/-- Following parents from a type with a lineage stays inside the lineage. -/
theorem of_reaches (h : m.Lineage name above) {other : String}
    (hreach : Relation.ReflTransGen m.Extends name other) :
    ∃ beyond, m.Lineage other beyond ∧ beyond.length ≤ above.length := by
  induction hreach with
  | refl => exact ⟨above, h, Nat.le_refl _⟩
  | tail _ hstep ih =>
      obtain ⟨beyond, hchain, hlen⟩ := ih
      cases hchain with
      | top _ hnone => exact absurd (hnone.symm.trans hstep) (by simp)
      | under hext hrest =>
          obtain rfl := hext.unique hstep
          exact ⟨_, hrest, by simp only [List.length_cons] at hlen; omega⟩

/-- The lineage lists the ancestors, and nothing else. -/
theorem mem_iff (h : m.Lineage name above) {ancestor : String} :
    ancestor ∈ above ↔ m.Ancestor name ancestor := by
  induction h with
  | top _ hnone =>
      simp only [List.not_mem_nil, false_iff]
      intro hanc
      obtain ⟨parent, hext, -⟩ := hanc.firstStep
      exact absurd (hnone.symm.trans hext) (by simp)
  | @under name parent above hext hrest ih =>
      rw [List.mem_cons, ih]
      constructor
      · rintro (rfl | hanc)
        · exact Relation.TransGen.single hext
        · exact Relation.TransGen.head hext hanc
      · intro hanc
        obtain ⟨p, hext', hreach⟩ := hanc.firstStep
        obtain rfl := hext.unique hext'
        exact (Relation.reflTransGen_iff_eq_or_transGen.mp hreach).imp_left id

theorem not_leavesModel (h : m.Lineage name above) : ¬m.LeavesModel name := by
  rintro ⟨child, parent, hreach, hext, hout⟩
  obtain ⟨_, hchain, -⟩ := h.of_reaches (hreach.tail hext)
  exact hout hchain.mem_names

theorem not_revisits (h : m.Lineage name above) : ¬m.Revisits name := by
  rintro ⟨again, hreach, hanc⟩
  obtain ⟨beyond, hchain, -⟩ := h.of_reaches hreach
  exact (List.nodup_cons.mp hchain.nodup).1 (hchain.mem_iff.mpr hanc)

end Lineage

end Model

end SchemaGen
