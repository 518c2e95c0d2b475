import Mathlib.Data.List.Count
import SchemaGen.Proofs.Growth

/-!
# What is said about a broken chain of parents

A tree is built for a model exactly when all chains of parents are healthy.
Otherwise the run stops at the first type, in model order, whose chain is
not. The fault that it stops with is about that chain and no other, although
the climb starts from a tree that earlier types have filled: a type with a
broken chain has no ancestor in the tree.

`Diagnosis` says what the fault tells. A missing parent is named together
with the type on the chain that asks for it. A cycle is given as the chain
itself: it begins at the type that was inserted, follows the parents step by
step, and ends where it meets a type for the second time, before anything
else is repeated.

The main statement is `ofModel_diagnosis`.
-/

namespace SchemaGen

open SchemaGen.Model (SchemaFault)

namespace Model

/-- The chain of parents above a type leaves the model or comes back to itself. -/
def ChainBroken (m : Model) (name : String) : Prop :=
  m.LeavesModel name ∨ m.Revisits name

theorem Lineage.not_chainBroken {m : Model} {name : String} {above : List String}
    (h : m.Lineage name above) : ¬m.ChainBroken name :=
  fun hbroken => hbroken.elim h.not_leavesModel h.not_revisits

end Model

namespace Hierarchy

variable {m : Model} {start : String} {fault : SchemaFault}

/-- What a fault tells about the chain of parents that begins at `start`. -/
inductive Diagnosis (m : Model) (start : String) : SchemaFault → Prop
  /-- A type on the chain names a parent that the model does not have. -/
  | missingParent {child parent : String} :
      child ∈ m.names → Relation.ReflTransGen m.Extends start child →
      m.Extends child parent → parent ∉ m.names →
      Diagnosis m start (.missingParent child parent)
  /-- The chain from `start` on, up to the first type that it meets again. -/
  | cyclicInheritance {again : String} {chain : List String} :
      chain.head? = some start → chain.IsChain m.Extends → chain.getLast? = some again →
      chain.count again = 2 → (∀ name ∈ chain, name ≠ again → chain.count name = 1) →
      Diagnosis m start (.cyclicInheritance again chain)

theorem head?_of_begins {l : List String} (h : [start] <+: l) :
    l.head? = some start := by
  obtain ⟨rest, rfl⟩ := h
  rfl

/-- Appending a member of a list without repetition repeats that member and nothing else. -/
theorem count_concat_mem {trail : List String} {again : String} (hdistinct : trail.Nodup)
    (hmem : again ∈ trail) : (trail ++ [again]).count again = 2
      ∧ ∀ name ∈ trail ++ [again], name ≠ again → (trail ++ [again]).count name = 1 := by
  constructor
  · rw [List.count_append, List.count_eq_one_of_mem hdistinct hmem, List.count_singleton_self]
  · intro name hname hne
    have htrail : name ∈ trail := by simpa [hne] using hname
    rw [List.count_append, List.count_eq_one_of_mem hdistinct htrail,
      List.count_eq_zero_of_not_mem (by simpa using hne)]

theorem ChainFault.diagnosis (h : ChainFault m [start] fault) : Diagnosis m start fault := by
  cases h with
  | @missingParent trail child parent hstart hchain hext hout =>
      refine .missingParent hext.mem_names ?_ hext hout
      obtain ⟨rest, heq⟩ := hstart
      rw [← heq] at hchain
      have hmem : child ∈ start :: rest := by
        have : child ∈ [start] ++ rest := by rw [heq]; simp
        exact this
      rcases List.mem_cons.mp hmem with rfl | hmem
      · exact .refl
      · exact reaches_of_isChain hchain child hmem
  | cyclicInheritance hstart hchain hdistinct hmem =>
      obtain ⟨htwice, honce⟩ := count_concat_mem hdistinct hmem
      exact .cyclicInheritance (head?_of_begins hstart) hchain (by simp) htwice honce

/-- A model whose chains are all healthy has a tree. For every other model, the run ends with a
diagnosis of the first type in model order whose chain is broken. -/
theorem ofModel_reports (m : Model) :
    ((∃ t, (ofModel m).result = .ok t) ∧ ∀ name ∈ m.names, ¬m.ChainBroken name)
      ∨ ∃ before name after fault, m.names = before ++ name :: after
        ∧ (∀ other ∈ before, ¬m.ChainBroken other) ∧ m.ChainBroken name
        ∧ (ofModel m).result = .error (.schema fault) ∧ Diagnosis m name fault := by
  have hends := foldlM_insert_ends .empty (List.Subset.refl m.names)
  unfold ofModel
  generalize (m.names.foldlM (insert m) empty).result = result at hends ⊢
  cases hends with
  | all hgrown _ hall =>
      refine Or.inl ⟨⟨_, rfl⟩, fun name hname => ?_⟩
      obtain ⟨_, hchain, -⟩ := hgrown.lineage (hall hname)
      exact hchain.not_chainBroken
  | @stopped before after name fault hsplit hbefore hfault =>
      refine Or.inr ⟨before, name, after, fault, hsplit, fun other hother => ?_,
        hfault.leaves_or_revisits, rfl, hfault.diagnosis⟩
      obtain ⟨_, hchain⟩ := hbefore other hother
      exact hchain.not_chainBroken

/-- Every parent is in the model and no chain comes back to itself: that is when all chains are
healthy. -/
theorem healthy_iff (m : Model) :
    (∀ name ∈ m.names, ¬m.ChainBroken name)
      ↔ (∀ child parent, m.Extends child parent → parent ∈ m.names)
        ∧ ∀ name ∈ m.names, ¬m.Revisits name := by
  constructor
  · intro h
    refine ⟨fun child parent hext => ?_, fun name hname hrev => h name hname (Or.inr hrev)⟩
    by_contra hout
    exact h child hext.mem_names (Or.inl ⟨child, parent, .refl, hext, hout⟩)
  · rintro ⟨hin, hrev⟩ name hname (⟨child, parent, -, hext, hout⟩ | hagain)
    · exact hout (hin child parent hext)
    · exact hrev name hname hagain

/-- Building the tree of a model succeeds exactly when every parent that a type names is in the
model and no chain of parents revisits a type. Where it does not succeed, it ends with a fault
about the first type in model order whose chain is broken. -/
theorem ofModel_diagnosis (m : Model) :
    ((∃ t, (ofModel m).result = .ok t)
        ↔ (∀ child parent, m.Extends child parent → parent ∈ m.names)
          ∧ ∀ name ∈ m.names, ¬m.Revisits name)
      ∧ ((¬∃ t, (ofModel m).result = .ok t) →
          ∃ before name after fault, m.names = before ++ name :: after
            ∧ (∀ other ∈ before, ¬m.ChainBroken other) ∧ m.ChainBroken name
            ∧ (ofModel m).result = .error (.schema fault) ∧ Diagnosis m name fault) := by
  rw [← healthy_iff]
  rcases ofModel_reports m with ⟨hok, hhealthy⟩ | hstopped
  · exact ⟨⟨fun _ => hhealthy, fun _ => hok⟩, fun hno => absurd hok hno⟩
  · refine ⟨⟨fun ⟨t, hok⟩ => ?_, fun hhealthy => ?_⟩, fun _ => hstopped⟩
    · obtain ⟨_, _, _, _, _, _, _, herror, -⟩ := hstopped
      cases herror.symm.trans hok
    · obtain ⟨before, name, after, _, hsplit, _, hbroken, -⟩ := hstopped
      exact absurd hbroken (hhealthy name (by rw [hsplit]; simp))

end Hierarchy

end SchemaGen
