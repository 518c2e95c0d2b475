import Mathlib.Data.List.Nodup
import SchemaGen.Proofs.Growth

/-!
# The walk lists the tree in preorder

The walk keeps a stack and runs on fuel. `Preorder` is the listing that it
is meant to produce, as a recursion over the forest: a root, then the whole
listing of its children, then the remaining roots. `walk_spec` says that on
a grown tree the walk is that listing, for both orders of siblings, and that
it holds every type of the tree exactly once.

A listing of the whole tree is not constructed from the tree at hand, where
the recursion would have to be justified. It is carried along while the
tree grows: hanging one type inserts it into the listing (`Preorder.hang`).

From the listing follows the order that code generation needs: every type
comes after all of its ancestors (`ParentsFirst.ancestor_mem`).
-/

namespace SchemaGen

namespace Model

/-- In the list every type comes after its parent. -/
def ParentsFirst (m : Model) (names : List String) : Prop :=
  ∀ before name after, names = before ++ name :: after →
    ∀ parent, m.Extends name parent → parent ∈ before

theorem ParentsFirst.ancestor_mem {m : Model} {names : List String} (h : m.ParentsFirst names)
    {before after : List String} {name : String} (hsplit : names = before ++ name :: after)
    {ancestor : String} (hanc : m.Ancestor name ancestor) : ancestor ∈ before := by
  induction hanc with
  | single hext => exact h before name after hsplit _ hext
  | @tail mid ancestor _ hext ih =>
      obtain ⟨front, between, rfl⟩ := List.append_of_mem ih
      have hmid : names = front ++ mid :: (between ++ name :: after) := by
        rw [hsplit, List.append_assoc, List.cons_append]
      exact List.mem_append_left _ (h front mid _ hmid ancestor hext)

end Model

namespace Hierarchy

/-! ## The recursive listing -/

/-- The preorder listing of a forest, from its roots and the children of everything in it. -/
inductive Preorder {α : Type} (kids : α → List α) : List α → List α → Prop
  | nil : Preorder kids [] []
  | cons {name : α} {roots below after : List α} :
      Preorder kids (kids name) below → Preorder kids roots after →
      Preorder kids (name :: roots) (name :: (below ++ after))

namespace Preorder

variable {α β : Type} {kids kids' : α → List α} {roots roots' listing : List α}

theorem root_mem (h : Preorder kids roots listing) : roots ⊆ listing := by
  induction h with
  | nil => exact List.Subset.refl _
  | cons _ _ _ ihafter =>
      refine List.cons_subset.mpr ⟨List.mem_cons_self .., fun y hy => ?_⟩
      exact List.mem_cons_of_mem _ (List.mem_append_right _ (ihafter hy))

/-- A type is followed by the listing of its children. -/
theorem exists_block (h : Preorder kids roots listing) {before after : List α}
    {name : α} (hsplit : listing = before ++ name :: after) :
    ∃ block rest, after = block ++ rest ∧ Preorder kids (kids name) block := by
  induction h generalizing before after with
  | nil => simp at hsplit
  | @cons root roots below behind hbelow _ ihbelow ihbehind =>
      cases before with
      | nil =>
          obtain ⟨rfl, rfl⟩ := List.cons.inj hsplit
          exact ⟨below, behind, rfl, hbelow⟩
      | cons first before =>
          obtain ⟨-, hsplit⟩ := List.cons.inj hsplit
          -- the type stands in the block below the root, or behind that block
          rcases List.append_eq_append_iff.mp hsplit with ⟨mid, rfl, hbehind⟩ | ⟨mid, rfl, hname⟩
          · exact ihbehind hbehind
          · cases mid with
            | nil => exact @ihbehind [] _ hname.symm
            | cons first' mid =>
                obtain ⟨rfl, rfl⟩ := List.cons.inj hname
                obtain ⟨block, rest, rfl, hblock⟩ := ihbelow rfl
                exact ⟨block, rest ++ behind, List.append_assoc .., hblock⟩

/-- The children of a type are listed after it. -/
theorem child_mem_after (h : Preorder kids roots listing) {before after : List α}
    {name : α} (hsplit : listing = before ++ name :: after) {child : α}
    (hchild : child ∈ kids name) : child ∈ after := by
  obtain ⟨block, rest, rfl, hblock⟩ := h.exists_block hsplit
  exact List.mem_append_left _ (hblock.root_mem hchild)

/-- A listing with everything in it replaced. -/
theorem map (f : α → β) {kids' : β → List β} (h : Preorder kids roots listing)
    (hkids : ∀ name ∈ listing, kids' (f name) = (kids name).map f) :
    Preorder kids' (roots.map f) (listing.map f) := by
  induction h with
  | nil => exact .nil
  | @cons root roots below after _ _ ihbelow ihafter =>
      have hbelow := ihbelow fun name hname => hkids name (by simp [hname])
      have hafter := ihafter fun name hname => hkids name (by simp [hname])
      rw [← hkids root (List.mem_cons_self ..)] at hbelow
      rw [List.map_cons, List.map_cons, List.map_append]
      exact .cons hbelow hafter

theorem congr (h : Preorder kids roots listing) (hkids : ∀ name ∈ listing, kids' name = kids name) :
    Preorder kids' roots listing := by
  induction h with
  | nil => exact .nil
  | @cons root roots below after _ _ ihbelow ihafter =>
      have hbelow := ihbelow fun name hname => hkids name (by simp [hname])
      have hafter := ihafter fun name hname => hkids name (by simp [hname])
      rw [← hkids root (List.mem_cons_self ..)] at hbelow
      exact .cons hbelow hafter

/-- Two forests side by side are listed one after the other. -/
theorem append_iff : Preorder kids (roots ++ roots') listing
    ↔ ∃ front back, listing = front ++ back ∧ Preorder kids roots front
      ∧ Preorder kids roots' back := by
  induction roots generalizing listing with
  | nil =>
      constructor
      · exact fun h => ⟨[], listing, rfl, .nil, h⟩
      · rintro ⟨_, _, rfl, hfront, hback⟩
        cases hfront
        exact hback
  | cons root roots ih =>
      constructor
      · intro h
        cases h with
        | cons hbelow hafter =>
            obtain ⟨front, back, rfl, hfront, hback⟩ := ih.mp hafter
            exact ⟨_, back, by simp, .cons hbelow hfront, hback⟩
      · rintro ⟨_, back, rfl, hfront, hback⟩
        cases hfront with
        | @cons _ _ below after hbelow hafter =>
            rw [List.cons_append, List.cons_append, List.append_assoc]
            exact .cons hbelow (ih.mpr ⟨after, back, rfl, hafter, hback⟩)

theorem perm (h : Preorder kids roots listing) (hroots : roots.Perm roots') :
    ∃ listing', Preorder kids roots' listing' ∧ listing'.Perm listing := by
  induction hroots generalizing listing with
  | nil => exact ⟨listing, h, .refl _⟩
  | cons root _ ih =>
      cases h with
      | @cons _ _ below after hbelow hafter =>
          obtain ⟨after', hafter', hperm⟩ := ih hafter
          exact ⟨_, .cons hbelow hafter', (hperm.append_left below).cons root⟩
  | swap first second rest =>
      cases h with
      | @cons _ _ below _ hbelow hrest =>
          cases hrest with
          | @cons _ _ below' after hbelow' hafter =>
              refine ⟨_, .cons hbelow' (.cons hbelow hafter), ?_⟩
              exact List.perm_append_comm_assoc (first :: below') (second :: below) after
  | trans _ _ ih₁ ih₂ =>
      obtain ⟨mid, hmid, hperm₁⟩ := ih₁ h
      obtain ⟨last, hlast, hperm₂⟩ := ih₂ hmid
      exact ⟨last, hlast, hperm₂.trans hperm₁⟩

/-- Hanging a new type under a listed one puts it somewhere into the listing. The children of all
other listed types stay as they are. -/
theorem hang (h : Preorder kids roots listing) (hdistinct : listing.Nodup)
    {parent name : α} (hparent : parent ∈ listing)
    (hkids : (kids' parent).Perm (name :: kids parent)) (hleaf : kids' name = [])
    (hsame : ∀ other ∈ listing, other ≠ parent → kids' other = kids other) :
    ∃ listing', Preorder kids' roots listing' ∧ listing'.Perm (name :: listing) := by
  induction h with
  | nil => cases hparent
  | @cons root roots below after hbelow hafter ihbelow ihafter =>
      obtain ⟨hroot, hrest⟩ := List.nodup_cons.mp hdistinct
      obtain ⟨hndbelow, hndafter, hdisjoint⟩ := List.nodup_append.mp hrest
      rw [List.mem_append, not_or] at hroot
      have hbelowmem : ∀ other ∈ below, other ∈ root :: (below ++ after) :=
        fun other hother => List.mem_cons_of_mem _ (List.mem_append_left _ hother)
      have haftermem : ∀ other ∈ after, other ∈ root :: (below ++ after) :=
        fun other hother => List.mem_cons_of_mem _ (List.mem_append_right _ hother)
      -- a block without the parent is listed as before
      have hkeepbelow (hout : parent ∉ below) : Preorder kids' (kids root) below :=
        hbelow.congr fun other hother =>
          hsame other (hbelowmem other hother) fun heq => hout (heq ▸ hother)
      have hkeepafter (hout : parent ∉ after) : Preorder kids' roots after :=
        hafter.congr fun other hother =>
          hsame other (haftermem other hother) fun heq => hout (heq ▸ hother)
      rcases List.mem_cons.mp hparent with rfl | hparent
      · have hnew : Preorder kids' (name :: kids parent) (name :: ([] ++ below)) :=
          .cons (by rw [hleaf]; exact .nil) (hkeepbelow hroot.1)
        obtain ⟨below', hbelow', hperm⟩ := hnew.perm hkids.symm
        exact ⟨_, .cons hbelow' (hkeepafter hroot.2),
          ((hperm.append_right after).cons parent).trans (.swap ..)⟩
      rcases List.mem_append.mp hparent with hin | hin
      · have hne : root ≠ parent := fun heq => hroot.1 (heq ▸ hin)
        have hout : parent ∉ after := fun hafter => hdisjoint parent hin parent hafter rfl
        obtain ⟨below', hbelow', hperm⟩ := ihbelow hndbelow hin
          fun other hother => hsame other (hbelowmem other hother)
        rw [← hsame root (List.mem_cons_self ..) hne] at hbelow'
        exact ⟨_, .cons hbelow' (hkeepafter hout),
          ((hperm.append_right after).cons root).trans (.swap ..)⟩
      · have hne : root ≠ parent := fun heq => hroot.2 (heq ▸ hin)
        have hout : parent ∉ below := fun hbelow => hdisjoint parent hbelow parent hin rfl
        obtain ⟨after', hafter', hperm⟩ := ihafter hndafter hin
          fun other hother => hsame other (haftermem other hother)
        have hbelow' := hkeepbelow hout
        rw [← hsame root (List.mem_cons_self ..) hne] at hbelow'
        refine ⟨_, .cons hbelow' hafter', ?_⟩
        exact (((hperm.append_left below).trans List.perm_middle).cons root).trans (.swap ..)

end Preorder

/-! ## The walk -/

variable {m : Model} {t : Hierarchy} {name : String} {order : SiblingOrder}

theorem arrange_perm (order : SiblingOrder) (names : List String) :
    (arrange order names).Perm names := by
  cases order with
  | discovery => exact .refl _
  | name => exact List.mergeSort_perm ..

/-- The children of every type in the order in which they are visited. -/
def visited (t : Hierarchy) (order : SiblingOrder) (name : String) : List String :=
  arrange order (t.children (some name))

/-- One step of fuel per listed type empties the stack down to what was below the roots. -/
theorem visit_eq {roots listing : List String} (h : Preorder (t.visited order) roots listing)
    (fuel : Nat) (stack : List String) :
    visit t order (listing.length + fuel) (roots ++ stack)
      = listing ++ visit t order fuel stack := by
  induction h generalizing fuel stack with
  | nil => simp
  | @cons root roots below after _ _ ihbelow ihafter =>
      have hlen : (root :: (below ++ after)).length + fuel
          = below.length + (after.length + fuel) + 1 := by
        simp only [List.length_cons, List.length_append]
        omega
      calc visit t order ((root :: (below ++ after)).length + fuel) (root :: roots ++ stack)
          = root :: visit t order (below.length + (after.length + fuel))
              (t.visited order root ++ (roots ++ stack)) := by rw [hlen]; rfl
        _ = root :: (below ++ (after ++ visit t order fuel stack)) := by
            rw [ihbelow, ihafter]
        _ = root :: (below ++ after) ++ visit t order fuel stack := by simp

namespace Grown

/-- A type that is about to be hung has no children yet. -/
theorem children_fresh (ht : Grown m t) (hnew : name ∉ t.names)
    (hparent : ∀ parent, m.Extends name parent → parent ∈ t.names) :
    (t.attach m [name]).children (some name) = [] := by
  rw [children_attach, ht.children_eq, List.append_eq_nil_iff, List.filter_eq_nil_iff,
    List.filter_eq_nil_iff]
  simp only [decide_eq_true_eq]
  constructor
  · intro child hchild hext
    obtain ⟨above, hchain, hsub⟩ := ht.lineage hchild
    have hancestor : m.Ancestor child name := Relation.TransGen.single hext
    exact hnew (hsub (hchain.mem_iff.mpr hancestor))
  · intro child hchild hext
    obtain rfl : child = name := by simpa using hchild
    exact hnew (hparent child hext)

theorem exists_preorder (ht : Grown m t) (order : SiblingOrder) :
    ∃ listing, Preorder (t.visited order) (arrange order (t.children none)) listing
      ∧ listing.Perm t.names := by
  induction ht with
  | empty =>
      have hroots : arrange order (Hierarchy.empty.children none) = [] :=
        List.perm_nil.mp (arrange_perm order [])
      exact ⟨[], by rw [hroots]; exact .nil, .refl _⟩
  | @hang t name ht hnew hname hparent ih =>
      obtain ⟨listing, hlisting, hperm⟩ := ih
      have hdistinct : listing.Nodup := hperm.nodup_iff.mpr ht.nodup
      have hfresh : (t.attach m [name]).visited order name = [] := by
        rw [visited, ht.children_fresh hnew hparent]
        exact List.perm_nil.mp (arrange_perm order [])
      have hall : (name :: listing).Perm (t.attach m [name]).names := by
        rw [names_attach, List.reverse_singleton]
        exact (hperm.cons name).trans (List.perm_append_singleton _ _).symm
      -- only the list in which the new type stands changes, and there only by the new type
      have hsame {parent : Option String} (hne : modelParent m name ≠ parent) :
          (t.attach m [name]).children parent = t.children parent := by
        simp [children_attach, hne]
      have hgrows : (arrange order ((t.attach m [name]).children (modelParent m name))).Perm
          (name :: arrange order (t.children (modelParent m name))) := by
        have hchildren : (t.attach m [name]).children (modelParent m name)
            = t.children (modelParent m name) ++ [name] := by
          simp [children_attach]
        rw [hchildren]
        refine (arrange_perm ..).trans ((List.perm_append_singleton _ _).trans (.cons _ ?_))
        exact (arrange_perm ..).symm
      cases hp : modelParent m name with
      | none =>
          rw [hp] at hgrows
          have hkeep := hlisting.congr
            fun other _ => show (t.attach m [name]).visited order other = _ by
              rw [visited, hsame (by simp [hp])]; rfl
          have hnode : Preorder ((t.attach m [name]).visited order)
              (name :: arrange order (t.children none)) (name :: ([] ++ listing)) :=
            .cons (by rw [hfresh]; exact .nil) hkeep
          obtain ⟨listing', hlisting', hperm'⟩ := hnode.perm hgrows.symm
          exact ⟨listing', hlisting', hperm'.trans hall⟩
      | some parent =>
          rw [hp] at hgrows
          have hroots : (t.attach m [name]).children none = t.children none :=
            hsame (by simp [hp])
          have hin : parent ∈ listing := hperm.mem_iff.mpr (hparent parent hp)
          obtain ⟨listing', hlisting', hperm'⟩ := hlisting.hang hdistinct hin hgrows hfresh
            fun other _ hne => by
              rw [visited, hsame (by simpa [hp] using Ne.symm hne)]; rfl
          rw [hroots]
          exact ⟨listing', hlisting', hperm'.trans hall⟩

/-- The walk of a grown tree is the preorder listing and holds every type once. -/
theorem walk_spec (ht : Grown m t) (order : SiblingOrder) :
    Preorder (t.visited order) (arrange order (t.children none)) (t.walk order)
      ∧ (t.walk order).Perm t.names := by
  obtain ⟨listing, hlisting, hperm⟩ := ht.exists_preorder order
  have hsize : t.size = listing.length := by
    rw [hperm.length_eq, size, names, Table.keys, List.length_map]
  have hwalk : t.walk order = listing := by
    have hvisit := visit_eq hlisting 0 []
    rw [List.append_nil, Nat.add_zero, ← hsize] at hvisit
    rw [walk, hvisit]
    cases order <;> simp [visit]
  rw [hwalk]
  exact ⟨hlisting, hperm⟩

theorem walk_parentsFirst (ht : Grown m t) (order : SiblingOrder) :
    m.ParentsFirst (t.walk order) := by
  obtain ⟨hlisting, hperm⟩ := ht.walk_spec order
  have hdistinct : (t.walk order).Nodup := hperm.nodup_iff.mpr ht.nodup
  intro before name after hsplit parent hext
  have hname : name ∈ t.names := hperm.mem_iff.mp (by rw [hsplit]; simp)
  obtain ⟨above, hchain, hsub⟩ := ht.lineage hname
  have habove : parent ∈ above := hchain.mem_iff.mpr (Relation.TransGen.single hext)
  have hchild : name ∈ t.visited order parent :=
    (arrange_perm ..).mem_iff.mpr (ht.mem_children.mpr ⟨hname, hext⟩)
  have hparent : parent ∈ t.walk order := hperm.mem_iff.mpr (hsub habove)
  -- wherever the parent stands, the type comes after it, and it stands in one place only
  obtain ⟨front, back, hfront⟩ := List.append_of_mem hparent
  obtain ⟨between, rest, rfl⟩ := List.append_of_mem (hlisting.child_mem_after hfront hchild)
  have hsame : before ++ name :: after = (front ++ parent :: between) ++ name :: rest := by
    rw [← hsplit, hfront, List.append_assoc, List.cons_append]
  rw [hsplit] at hdistinct
  obtain ⟨-, hafter, hdisjoint⟩ := List.nodup_append.mp hdistinct
  have hnotbefore : name ∉ before := fun hmem =>
    hdisjoint name hmem name (List.mem_cons_self ..) rfl
  have hnotafter : name ∉ after := (List.nodup_cons.mp hafter).1
  obtain ⟨rfl, -⟩ := (List.append_cons_inj_of_notMem hnotbefore hnotafter).mp hsame
  simp

end Grown

end Hierarchy

end SchemaGen
