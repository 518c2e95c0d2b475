import SchemaGen.Proofs.Generation

/-!
# How a build ends

A model given as an object has artifacts, or is rejected with a fault of one
of three sorts, whatever the object holds. Which of them is decided in two
stages. Reading looks at the definitions one by one and at the references
between them; a model that passes can only fail on its chains of parents.
No fault of the registry or of a target shows up, since a well-formed model
with healthy chains is walked parents first (`Artifacts.ofModel_ends`).

`BuildEnds` has one case for each way, each with the reason that the model
gives for it. The reasons exclude each other, so the cases can be read in
both directions (`outcome`).
-/

namespace SchemaGen

open SchemaGen.Model
open SchemaGen.Json (Value Entries)

namespace Model

/-- Some definition cannot be read, or some record extends an enumeration. -/
def Rejected (entries : Entries) : Prop :=
  (∃ entry ∈ entries, ∃ fault, Definition.read entry.1 entry.2 = .error fault)
    ∨ ∃ m, readDefinitions entries = .ok m ∧ m.ExtendsEnumeration

/-- The definitions can be read, and the way up from some type leaves the model or comes back to
itself. -/
def BrokenChain (entries : Entries) : Prop :=
  ∃ m, readDefinitions entries = .ok m ∧ ∃ name ∈ m.names, m.LeavesModel name ∨ m.Revisits name

theorem not_rejected {entries : Entries} {m : Model} (h : readDefinitions entries = .ok m)
    (hm : m.WellFormed) : ¬Rejected entries := by
  have hends := readDefinitions_ends entries
  rw [h] at hends
  cases hends with
  | all hall _ _ =>
      rintro (⟨entry, hentry, fault, herror⟩ | ⟨m', hm', henum⟩)
      · obtain ⟨d, hd⟩ := hall entry hentry
        cases hd.symm.trans herror
      · obtain rfl := Except.ok.inj (h.symm.trans hm')
        exact hm.inherits henum

end Model

/-- A parent that is missing, or a chain of parents that comes back to itself. -/
def Model.SchemaFault.IsChainFault : SchemaFault → Prop
  | .missingParent _ _ => True
  | .cyclicInheritance _ _ => True
  | .invalidDefinition _ _ => False

/-- The ways in which a build of an object ends. -/
inductive BuildEnds (entries : Entries) : Except Fault Artifacts → Prop
  | invalidDefinition {name : String} {rule : ShapeRule} :
      Rejected entries → BuildEnds entries (.error (.schema (.invalidDefinition name rule)))
  | brokenChain {fault : SchemaFault} :
      fault.IsChainFault → ¬Rejected entries → BrokenChain entries →
      BuildEnds entries (.error (.schema fault))
  | accepted {a : Artifacts} :
      ¬Rejected entries → ¬BrokenChain entries → BuildEnds entries (.ok a)

theorem Hierarchy.ChainFault.isChainFault {m : Model} {start : List String} {fault : SchemaFault}
    (h : Hierarchy.ChainFault m start fault) : fault.IsChainFault := by
  cases h with
  | missingParent _ _ _ _ => trivial
  | cyclicInheritance _ _ _ _ => trivial

theorem Artifacts.Complete.not_brokenChain {settings : Settings} {entries : Entries} {m : Model}
    {a : Artifacts} (h : a.Complete settings m) (hdefs : readDefinitions entries = .ok m) :
    ¬BrokenChain entries := by
  rintro ⟨m', hdefs', name, hname, hbroken⟩
  obtain rfl := Except.ok.inj (hdefs.symm.trans hdefs')
  obtain ⟨above, hchain⟩ := h.lineages name hname
  rcases hbroken with hleaves | hrevisits
  · exact hchain.not_leavesModel hleaves
  · exact hchain.not_revisits hrevisits

theorem Artifacts.ofValue_ends (settings : Settings) (entries : Entries) :
    BuildEnds entries (ofValue settings (.object entries)).result := by
  have hread := read_ends entries
  generalize hresult : (Model.read (.object entries)).result = result at hread
  cases hread with
  | @rejected name raw rule hentry hdef =>
      rw [show (ofValue settings (.object entries)).result = _ from Traced.bind_error hresult _]
      exact .invalidDefinition (Or.inl ⟨(name, raw), hentry, _, hdef⟩)
  | extendsEnumeration hdefs henum =>
      rw [show (ofValue settings (.object entries)).result = _ from Traced.bind_error hresult _]
      exact .invalidDefinition (Or.inr ⟨_, hdefs, henum⟩)
  | @accepted m hdefs hm =>
      rw [show (ofValue settings (.object entries)).result = _ from Traced.bind_ok hresult _]
      rcases ofModel_ends settings hm with
        ⟨a, hok, hcomplete⟩ | ⟨name, hname, fault, hfault, herror⟩
      · rw [hok]
        exact .accepted (not_rejected hdefs hm) (hcomplete.not_brokenChain hdefs)
      · rw [herror]
        exact .brokenChain hfault.isChainFault (not_rejected hdefs hm)
          ⟨m, hdefs, name, hname, hfault.leaves_or_revisits⟩

/-- A build gives artifacts or one of the three faults of a type model, and the model tells which:
an invalid definition when it is rejected, otherwise a missing parent or a cycle when a chain is
broken, otherwise artifacts. -/
theorem Artifacts.outcome (settings : Settings) (entries : Entries) :
    ((∃ a, (ofValue settings (.object entries)).result = .ok a)
        ∨ (∃ name rule, (ofValue settings (.object entries)).result
            = .error (.schema (.invalidDefinition name rule)))
        ∨ (∃ name parent, (ofValue settings (.object entries)).result
            = .error (.schema (.missingParent name parent)))
        ∨ ∃ name chain, (ofValue settings (.object entries)).result
            = .error (.schema (.cyclicInheritance name chain)))
      ∧ ((∃ name rule, (ofValue settings (.object entries)).result
            = .error (.schema (.invalidDefinition name rule))) ↔ Rejected entries)
      ∧ (((∃ name parent, (ofValue settings (.object entries)).result
            = .error (.schema (.missingParent name parent)))
          ∨ ∃ name chain, (ofValue settings (.object entries)).result
            = .error (.schema (.cyclicInheritance name chain)))
        ↔ ¬Rejected entries ∧ BrokenChain entries)
      ∧ ((∃ a, (ofValue settings (.object entries)).result = .ok a)
        ↔ ¬Rejected entries ∧ ¬BrokenChain entries) := by
  have hends := ofValue_ends settings entries
  generalize (ofValue settings (.object entries)).result = result at hends
  cases hends with
  | invalidDefinition hrejected => simp [hrejected]
  | @brokenChain fault hkind hread hbroken =>
      cases fault with
      | invalidDefinition _ _ => exact hkind.elim
      | missingParent _ _ => simp [hread, hbroken]
      | cyclicInheritance _ _ => simp [hread, hbroken]
  | accepted hread hchains => simp [hread, hchains]

end SchemaGen
