import SchemaGen.Proofs.Generation

/-!
# Models within models

A model lies within another one when the other gives every type of it the
same definition (`Within`). The other may have more types, and may have them
in any order.

Everything that the model says about a chain of parents carries over, as long
as the chain is in the smaller model: the lineage of a type, the place of the
identity line and the lines that each record declares. The closed form of the
lines is made of these three, so it is the same in both models
(`Within.flatLines`). The other two targets look at the definition alone, and
so a type has the same code wherever its chain is the same
(`Complete.code_eq`).
-/

namespace SchemaGen

open SchemaGen.Model

namespace Model

/-- Every type of `m` has the same definition in `m'`. -/
def Within (m m' : Model) : Prop := ∀ name d, m.get? name = some d → m'.get? name = some d

namespace Within

variable {m m' : Model} {name parent : String} {above chain : List String}

theorem get?_eq (h : m.Within m') (hname : name ∈ m.names) : m'.get? name = m.get? name := by
  obtain ⟨d, hd⟩ := exists_get? hname
  rw [hd, h name d hd]

theorem mem_names (h : m.Within m') (hname : name ∈ m.names) : name ∈ m'.names := by
  obtain ⟨d, hd⟩ := exists_get? hname
  exact mem_names_of_get? (h name d hd)

theorem modelParent_eq (h : m.Within m') (hname : name ∈ m.names) :
    Hierarchy.modelParent m' name = Hierarchy.modelParent m name := by
  rw [Hierarchy.modelParent, Hierarchy.modelParent, h.get?_eq hname]

theorem extends_iff (h : m.Within m') (hname : name ∈ m.names) :
    m'.Extends name parent ↔ m.Extends name parent := by
  rw [Extends, Extends, h.modelParent_eq hname]

theorem lineage (h : m.Within m') (hchain : m.Lineage name above) : m'.Lineage name above := by
  induction hchain with
  | top hname hnone => exact .top (h.mem_names hname) ((h.modelParent_eq hname).trans hnone)
  | under hext _ ih => exact .under ((h.extends_iff hext.mem_names).mpr hext) ih

theorem isBase_iff (h : m.Within m') (hname : name ∈ m.names) :
    m'.IsBase name ↔ m.IsBase name := by
  rw [IsBase, IsBase, h.get?_eq hname]

theorem declaresIdentity_iff (h : m.Within m') (hname : name ∈ m.names) :
    m'.DeclaresIdentity name ↔ m.DeclaresIdentity name := by
  rw [DeclaresIdentity, DeclaresIdentity, h.get?_eq hname]

theorem identityPlace (h : m.Within m') (hchain : chain ⊆ m.names) {place : Option Nat}
    (hplace : m.IdentityPlace chain place) : m'.IdentityPlace chain place := by
  cases hplace with
  | noBase hno =>
      refine .noBase fun y hy => ?_
      rw [h.isBase_iff (hchain hy)]
      exact hno y hy
  | @declared below beyond z hz hbeyond hdeclares =>
      obtain ⟨-, hz', hbeyond'⟩ := List.append_subset.mp hchain |>.imp_right List.cons_subset.mp
      refine .declared ((h.isBase_iff hz').mpr hz) (fun y hy => ?_) ?_
      · rw [h.isBase_iff (hbeyond' hy)]
        exact hbeyond y hy
      · obtain ⟨y, hy, hdecl⟩ := hdeclares
        exact ⟨y, hy, (h.declaresIdentity_iff (hbeyond' hy)).mpr hdecl⟩
  | @inserted below beyond z hz hbeyond hnone =>
      obtain ⟨-, hz', hbeyond'⟩ := List.append_subset.mp hchain |>.imp_right List.cons_subset.mp
      refine .inserted ((h.isBase_iff hz').mpr hz) (fun y hy => ?_) fun y hy => ?_
      · rw [h.isBase_iff (hbeyond' hy)]
        exact hbeyond y hy
      · rw [h.declaresIdentity_iff (hbeyond' hy)]
        exact hnone y hy

end Within

theorem Lineage.cons_subset_names {m : Model} {name : String} {above : List String}
    (h : m.Lineage name above) : name :: above ⊆ m.names :=
  List.cons_subset.mpr ⟨h.mem_names, fun _ => h.mem_names_of_mem⟩

end Model

namespace GraphQL

variable {settings : Settings} {m m' : Model} {name : String}

theorem flatLines_congr {own own' : String → List String} {above : List String}
    (h : ∀ y ∈ name :: above, own' y = own y) (place : Option Nat) :
    flatLines own' name above place = flatLines own name above place := by
  obtain ⟨hname, habove⟩ := List.forall_mem_cons.mp h
  have hparents : (above.reverse.flatMap fun y => own' y ++ [endMark y])
      = above.reverse.flatMap fun y => own y ++ [endMark y] :=
    List.flatMap_congr fun y hy => by rw [habove y (List.mem_reverse.mp hy)]
  rw [flatLines, flatLines, hname, hparents]

/-- A type has the same closed form in the larger model. -/
theorem FlatLines.within {lines : List String} (hlines : FlatLines settings m name lines)
    (h : m.Within m') : FlatLines settings m' name lines := by
  obtain ⟨above, place, hchain, hplace, rfl⟩ := hlines
  have hnames := hchain.cons_subset_names
  have hown : ∀ y ∈ name :: above, ownLines settings m' y = ownLines settings m y := by
    intro y hy
    rw [ownLines, ownLines, h.get?_eq (hnames hy)]
  exact ⟨above, place, h.lineage hchain, h.identityPlace hnames hplace,
    (flatLines_congr hown place).symm⟩

end GraphQL

namespace Artifacts

variable {settings : Settings} {m m' : Model} {a a' : Artifacts}

/-- A type of the smaller model has the same code in both. -/
theorem Complete.code_eq (ha : Complete settings m a) (hm : m.WellFormed)
    (ha' : Complete settings m' a') (hm' : m'.WellFormed) (hwithin : m.Within m')
    {t t' : TypeCode} (ht : t ∈ a.types) (ht' : t' ∈ a'.types) (hname : t'.name = t.name) :
    t' = t := by
  obtain ⟨_, _, -, -, -, d, _, _, hd, hnative, horm, -, hsdl⟩ := ha.exists_split ht
  obtain ⟨_, _, -, -, -, d', _, _, hd', hnative', horm', -, hsdl'⟩ := ha'.exists_split ht'
  rw [hname] at hd'
  obtain rfl : d = d' := Option.some.inj ((hwithin _ _ hd).symm.trans hd')
  have hsame : t'.sdl = t.sdl := by
    cases d with
    | record r =>
        obtain ⟨lines, hlines, htext⟩ := ha.sdl_flat hm ht hd
        obtain ⟨lines', hlines', htext'⟩ := ha'.sdl_flat hm' ht' (hname ▸ hd')
        rw [hname] at hlines' htext'
        rw [htext, htext', hlines'.unique (hlines.within hwithin)]
    | enumeration e =>
        have htext := (Prod.mk.inj (Except.ok.inj hsdl)).1
        have htext' := (Prod.mk.inj (Except.ok.inj hsdl')).1
        exact htext'.symm.trans htext
    | bare _ => exact (hm.shaped _ _ hd).2.elim
  have hnativeSame := Except.ok.inj (hnative'.symm.trans hnative)
  have hormSame := Except.ok.inj (horm'.symm.trans horm)
  obtain ⟨_, _, _, _⟩ := t
  obtain ⟨_, _, _, _⟩ := t'
  rw [TypeCode.mk.injEq]
  exact ⟨hname, hnativeSame, hormSame, hsame⟩

end Artifacts

end SchemaGen
