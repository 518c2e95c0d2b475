import Mathlib.Data.List.Chain
import SchemaGen.Proofs.Lineage

/-!
# Growth of the hierarchy

What inserting types does to the tree, and when it fails.

A tree is `Grown` when it came about by hanging one new type at a time
under a parent that was there already. Every fact about reachable trees is
proved along this relation, one type at a time, and insertion is shown to
stay inside it. A single insertion climbs first; `Missing` is the chain
that the climb collects, and `ChainFault` is what the fault of a failing
climb says about the model.

The fuel of the climb never runs out: the types climbed through are
distinct types of the model (`climb_ends`).

The two results that the rest of the theory uses are `ofModel_ends`, which
covers both outcomes for a whole model, and `Grown.lineage`.
-/

namespace SchemaGen

open SchemaGen.Model (SchemaFault)

namespace Hierarchy

variable {m : Model} {t : Hierarchy} {name : String} {chain : List String}

@[simp] theorem contains_iff : t.contains name = true ↔ name ∈ t.names :=
  Table.contains_iff

@[simp] theorem names_empty : empty.names = [] := rfl

@[simp] theorem attach_nil : t.attach m [] = t := by
  simp [attach]

theorem attach_cons : t.attach m (name :: chain) = (t.attach m chain).attach m [name] := by
  simp [attach]

/-! ## Grown trees -/

/-- Trees made by hanging one new type at a time under a parent that is already there. -/
inductive Grown (m : Model) : Hierarchy → Prop
  | empty : Grown m Hierarchy.empty
  | hang {t : Hierarchy} {name : String} :
      Grown m t → name ∉ t.names → name ∈ m.names →
      (∀ parent, m.Extends name parent → parent ∈ t.names) → Grown m (t.attach m [name])

namespace Grown

theorem nodup (h : Grown m t) : t.names.Nodup := by
  induction h with
  | empty => exact List.nodup_nil
  | hang _ hnew _ _ ih =>
      rw [names_attach, List.reverse_singleton]
      exact ih.append (List.nodup_singleton _) (by simpa using hnew)

theorem mem_model (h : Grown m t) (hmem : name ∈ t.names) : name ∈ m.names := by
  induction h with
  | empty => cases hmem
  | hang _ _ hname _ ih =>
      rw [names_attach, List.reverse_singleton, List.mem_append, List.mem_singleton] at hmem
      rcases hmem with hmem | rfl
      · exact ih hmem
      · exact hname

/-- The children of a type are the types that name it as their parent, in the order of
insertion. -/
theorem children_eq (h : Grown m t) (parent : Option String) :
    t.children parent = t.names.filter fun name => modelParent m name = parent := by
  induction h with
  | empty => rfl
  | hang _ _ _ _ ih =>
      rw [children_attach, names_attach, List.filter_append, ih]

theorem mem_children (h : Grown m t) {parent : Option String} :
    name ∈ t.children parent ↔ name ∈ t.names ∧ modelParent m name = parent := by
  rw [h.children_eq, List.mem_filter, decide_eq_true_eq]

/-- Every type of a grown tree has a lineage, and the tree holds all of it. -/
theorem lineage (h : Grown m t) (hmem : name ∈ t.names) :
    ∃ above, m.Lineage name above ∧ above ⊆ t.names := by
  induction h generalizing name with
  | empty => cases hmem
  | @hang t new _ _ hnew hparent ih =>
      simp only [names_attach, List.reverse_singleton, List.mem_append,
        List.mem_singleton] at hmem ⊢
      rcases hmem with hmem | rfl
      · obtain ⟨above, hchain, hsub⟩ := ih hmem
        exact ⟨above, hchain, fun y hy => List.mem_append_left _ (hsub hy)⟩
      · cases hp : modelParent m name with
        | none => exact ⟨[], .top hnew hp, List.nil_subset _⟩
        | some parent =>
            obtain ⟨above, hchain, hsub⟩ := ih (hparent parent hp)
            refine ⟨parent :: above, .under hp hchain, fun y hy => ?_⟩
            rcases List.mem_cons.mp hy with rfl | hy
            · exact List.mem_append_left _ (hparent _ hp)
            · exact List.mem_append_left _ (hsub hy)

end Grown

/-! ## The chain that an insertion attaches -/

/-- The types that `name` and its ancestors need in the tree, lowest first: up to the first one
that is there, or up to one without a parent. -/
inductive Missing (m : Model) (t : Hierarchy) : String → List String → Prop
  | present {name : String} : name ∈ t.names → Missing m t name []
  | top {name : String} :
      name ∉ t.names → name ∈ m.names → modelParent m name = none → Missing m t name [name]
  | under {name parent : String} {chain : List String} :
      name ∉ t.names → m.Extends name parent → Missing m t parent chain →
      Missing m t name (name :: chain)

namespace Missing

/-- What is missing is the lower end of the type with its lineage. -/
theorem lineage (h : Missing m t name chain) (ht : Grown m t) :
    ∃ above, m.Lineage name above ∧ chain <+: name :: above := by
  induction h with
  | present hmem =>
      obtain ⟨above, hchain, -⟩ := ht.lineage hmem
      exact ⟨above, hchain, List.nil_prefix⟩
  | top _ hname hnone => exact ⟨[], .top hname hnone, List.prefix_rfl⟩
  | under _ hext _ ih =>
      obtain ⟨above, hchain, hpre⟩ := ih
      exact ⟨_, .under hext hchain, (List.cons_prefix_cons).mpr ⟨rfl, hpre⟩⟩

theorem nodup (h : Missing m t name chain) (ht : Grown m t) : chain.Nodup := by
  obtain ⟨_, hchain, hpre⟩ := h.lineage ht
  exact hchain.nodup.sublist hpre.sublist

/-- Attaching what is missing grows the tree, type by type from the top, and brings the type
in. -/
theorem grown (h : Missing m t name chain) (ht : Grown m t) :
    Grown m (t.attach m chain) ∧ name ∈ (t.attach m chain).names := by
  induction h with
  | present hmem => exact ⟨by rwa [attach_nil], by rwa [attach_nil]⟩
  | top hnew hname hnone =>
      refine ⟨ht.hang hnew hname fun parent hext => ?_, by simp⟩
      exact absurd (hnone.symm.trans hext) (by simp)
  | @under name parent chain hnew hext hrest ih =>
      have hdistinct := (hrest.under hnew hext).nodup ht
      obtain ⟨hgrown, hparent⟩ := ih
      rw [attach_cons]
      refine ⟨hgrown.hang ?_ hext.mem_names fun p hp => ?_, by simp⟩
      · rw [names_attach, List.mem_append, List.mem_reverse, not_or]
        exact ⟨hnew, (List.nodup_cons.mp hdistinct).1⟩
      · rwa [← hext.unique hp]

end Missing

/-! ## Climbing -/

/-- A fault tells the truth about the chain of parents that begins with the types `start`: it
ends at a parent that is not in the model, or at a type that stands in the chain already. -/
inductive ChainFault (m : Model) (start : List String) : SchemaFault → Prop
  | missingParent {trail : List String} {child parent : String} :
      start <+: trail ++ [child] → (trail ++ [child]).IsChain m.Extends →
      m.Extends child parent → parent ∉ m.names →
      ChainFault m start (.missingParent child parent)
  | cyclicInheritance {trail : List String} {again : String} :
      start <+: trail ++ [again] → (trail ++ [again]).IsChain m.Extends →
      trail.Nodup → again ∈ trail →
      ChainFault m start (.cyclicInheritance again (trail ++ [again]))

/-- How a climb that has passed through `climbed` and stands at `current` ends. -/
inductive ClimbEnds (m : Model) (t : Hierarchy) (climbed : List String) (current : String) :
    Except Fault (List String) → Prop
  | arrived {rest : List String} :
      Missing m t current rest → ClimbEnds m t climbed current (.ok (climbed ++ rest))
  | fell {fault : SchemaFault} :
      ChainFault m (climbed ++ [current]) fault →
      ClimbEnds m t climbed current (.error (.schema fault))

theorem ChainFault.shorten {start start' : List String} {fault : SchemaFault}
    (h : ChainFault m start fault) (hpre : start' <+: start) : ChainFault m start' fault := by
  cases h with
  | missingParent hstart hchain hext hout =>
      exact .missingParent (hpre.trans hstart) hchain hext hout
  | cyclicInheritance hstart hchain hnd hmem =>
      exact .cyclicInheritance (hpre.trans hstart) hchain hnd hmem

/-- One step of the climb, seen from the step before it. -/
theorem ClimbEnds.step {climbed : List String} {current parent : String}
    {result : Except Fault (List String)} (hnew : current ∉ t.names)
    (hext : m.Extends current parent)
    (h : ClimbEnds m t (climbed ++ [current]) parent result) :
    ClimbEnds m t climbed current result := by
  cases h with
  | arrived hrest =>
      rw [List.append_assoc]
      exact .arrived (.under hnew hext hrest)
  | fell hfault => exact .fell (hfault.shorten (List.prefix_append _ _))

-- Induction on the fuel. The types climbed through are distinct and in the model, so there are
-- at most as many as the model has types, and the case without fuel does not occur.
theorem climb_ends (fuel : Nat) (climbed : List String) (current : String)
    (hdistinct : climbed.Nodup) (hmodel : climbed ⊆ m.names)
    (hchain : (climbed ++ [current]).IsChain m.Extends) (hcurrent : current ∈ m.names)
    (hfuel : m.names.length < fuel + climbed.length) :
    ClimbEnds m t climbed current (climb m t.contains fuel climbed current) := by
  induction fuel generalizing climbed current with
  | zero =>
      have hle := hdistinct.length_le_of_subset hmodel
      omega
  | succ fuel ih =>
      unfold climb
      by_cases hmem : current ∈ t.names
      · rw [if_pos (contains_iff.mpr hmem)]
        simpa using @ClimbEnds.arrived m t climbed _ _ (.present hmem)
      rw [if_neg (by rwa [contains_iff])]
      by_cases hagain : current ∈ climbed
      · rw [if_pos hagain]
        exact .fell (.cyclicInheritance List.prefix_rfl hchain hdistinct hagain)
      rw [if_neg hagain]
      obtain ⟨d, hd⟩ := Model.exists_get? hcurrent
      have hparent := Model.modelParent_eq hd
      simp only [hd]
      cases hp : d.parent? with
      | none => exact .arrived (.top hmem hcurrent (hparent.trans hp))
      | some parent =>
          have hext : m.Extends current parent := hparent.trans hp
          by_cases hin : parent ∈ m.names
          · simp only [Model.contains_iff.mpr hin, if_true]
            refine (ih (climbed ++ [current]) parent ?_ ?_ ?_ hin ?_).step hmem hext
            · exact hdistinct.append (List.nodup_singleton _) (by simpa using hagain)
            · exact List.append_subset.mpr ⟨hmodel, by simpa using hcurrent⟩
            · refine hchain.append (List.isChain_singleton _) ?_
              simpa using hext
            · simp only [List.length_append, List.length_singleton]
              omega
          · have hout : ¬m.contains parent = true := by rwa [Model.contains_iff]
            simp only [hout]
            exact .fell (.missingParent List.prefix_rfl hchain hext hin)

theorem missing_ends (hname : name ∈ m.names) : ClimbEnds m t [] name (missing m t name) :=
  climb_ends _ _ _ List.nodup_nil (List.nil_subset _) (List.isChain_singleton _) hname
    (by simp)

/-! ## What a chain fault means -/

theorem reaches_of_isChain {start : String} {rest : List String}
    (h : (start :: rest).IsChain m.Extends) :
    ∀ y ∈ rest, Relation.ReflTransGen m.Extends start y :=
  h.cons_induction (Relation.ReflTransGen m.Extends start) rest
    (fun _ _ hstep hreach => hreach.tail hstep) .refl

theorem ancestor_of_isChain {start : String} {rest : List String}
    (h : (start :: rest).IsChain m.Extends) : ∀ y ∈ rest, m.Ancestor start y := by
  intro y hy
  cases rest with
  | nil => cases hy
  | cons next rest =>
      obtain ⟨hstep, hrest⟩ := List.isChain_cons_cons.mp h
      refine Relation.TransGen.head' hstep ?_
      rcases List.mem_cons.mp hy with rfl | hy
      · exact .refl
      · exact reaches_of_isChain hrest y hy

theorem ChainFault.leaves_or_revisits {fault : SchemaFault} (h : ChainFault m [name] fault) :
    m.LeavesModel name ∨ m.Revisits name := by
  have hreaches : ∀ {l : List String}, [name] <+: l → l.IsChain m.Extends →
      ∀ y ∈ l, Relation.ReflTransGen m.Extends name y := by
    rintro l ⟨rest, rfl⟩ hchain y hy
    rcases List.mem_cons.mp hy with rfl | hy
    · exact .refl
    · exact reaches_of_isChain hchain y hy
  cases h with
  | @missingParent trail child parent hstart hchain hext hout =>
      exact Or.inl ⟨child, parent, hreaches hstart hchain child (by simp), hext, hout⟩
  | @cyclicInheritance trail again hstart hchain _ hmem =>
      refine Or.inr ⟨again, hreaches hstart hchain again (by simp), ?_⟩
      obtain ⟨before, between, rfl⟩ := List.append_of_mem hmem
      rw [List.append_assoc, List.cons_append] at hchain
      exact ancestor_of_isChain hchain.right_of_append again (by simp)

/-! ## Inserting -/

theorem insert_result (m : Model) (t : Hierarchy) (name : String) :
    (t.insert m name).result = (missing m t name).map (t.attach m) := by
  unfold insert
  cases missing m t name <;> rfl

/-- An insertion of a type of the model either attaches what is missing, or fails with a fault
about the type's chain. -/
theorem insert_ends (t : Hierarchy) (hname : name ∈ m.names) :
    (∃ chain, Missing m t name chain ∧ (t.insert m name).result = .ok (t.attach m chain))
      ∨ ∃ fault, ChainFault m [name] fault
        ∧ (t.insert m name).result = .error (.schema fault) := by
  have hends := @missing_ends m t name hname
  rw [insert_result]
  generalize missing m t name = result at hends
  cases hends with
  | arrived hrest => exact Or.inl ⟨_, hrest, rfl⟩
  | fell hfault => exact Or.inr ⟨_, hfault, rfl⟩

/-- What inserting types one after the other leads to. Either all of them and nothing of the old
tree is missing in the end, or the first type without a lineage stops the run. -/
inductive InsertionEnds (m : Model) (t : Hierarchy) (names : List String) :
    Except Fault Hierarchy → Prop
  | all {after : Hierarchy} :
      Grown m after → t.names ⊆ after.names → names ⊆ after.names →
      InsertionEnds m t names (.ok after)
  | stopped {before rest : List String} {name : String} {fault : SchemaFault} :
      names = before ++ name :: rest → (∀ other ∈ before, ∃ above, m.Lineage other above) →
      ChainFault m [name] fault → InsertionEnds m t names (.error (.schema fault))

theorem foldlM_insert_ends {names : List String} (ht : Grown m t) (hnames : names ⊆ m.names) :
    InsertionEnds m t names (names.foldlM (insert m) t).result := by
  induction names generalizing t with
  | nil => exact .all ht (List.Subset.refl _) (List.nil_subset _)
  | cons name names ih =>
      obtain ⟨hname, hrest⟩ := List.cons_subset.mp hnames
      rw [List.foldlM_cons]
      rcases insert_ends t hname with ⟨chain, hmissing, hok⟩ | ⟨fault, hfault, herror⟩
      · rw [Traced.bind_ok hok]
        obtain ⟨hgrown, hin⟩ := hmissing.grown ht
        have hold : t.names ⊆ (t.attach m chain).names := by simp
        -- the rest of the run starts from the tree that holds the first type
        have hends := ih hgrown hrest
        generalize (names.foldlM (insert m) (t.attach m chain)).result = result at hends ⊢
        cases hends with
        | all hafter hkept hall =>
            exact .all hafter (List.Subset.trans hold hkept)
              (List.cons_subset.mpr ⟨hkept hin, hall⟩)
        | @stopped before rest bad fault hsplit hbefore hfault =>
            refine @InsertionEnds.stopped m t _ (name :: before) rest _ _ ?_ ?_ hfault
            · rw [hsplit, List.cons_append]
            intro other hother
            rcases List.mem_cons.mp hother with rfl | hother
            · obtain ⟨above, hchain, -⟩ := hmissing.lineage ht
              exact ⟨above, hchain⟩
            · exact hbefore other hother
      · rw [Traced.bind_error herror]
        exact @InsertionEnds.stopped m t _ [] _ _ _ rfl (by simp) hfault

/-- The tree of a model: it holds exactly the types of the model, or else a type has no
lineage. -/
theorem ofModel_ends (m : Model) :
    (∃ t, (ofModel m).result = .ok t ∧ Grown m t ∧ ∀ name, name ∈ t.names ↔ name ∈ m.names)
      ∨ ∃ name ∈ m.names, ∃ fault, ChainFault m [name] fault
        ∧ (ofModel m).result = .error (.schema fault) := by
  have hends := foldlM_insert_ends .empty (List.Subset.refl m.names)
  unfold ofModel
  generalize (m.names.foldlM (insert m) empty).result = result at hends ⊢
  cases hends with
  | all hgrown _ hall =>
      exact Or.inl ⟨_, rfl, hgrown, fun name => ⟨hgrown.mem_model, fun h => hall h⟩⟩
  | stopped hsplit _ hfault =>
      exact Or.inr ⟨_, by rw [hsplit]; simp, _, hfault, rfl⟩

end Hierarchy

end SchemaGen
