import SchemaGen.Proofs.Submodel
import SchemaGen.Proofs.Traversal

/-!
# Trees within trees

Two trees over one model are compared, where the types of the first are among
those of the second. A grown tree holds the lineage of each of its types, so
the second tree has nothing of the first below a type that the first lacks.
Its listing can therefore be cut down to the types of the first one
(`Preorder.filter`), and what remains is the listing of the first
(`Grown.walk_eq_filter`), provided that siblings keep their order.

By name they always do. In the order of discovery they do when the second tree
came about from the first by further insertions (`names_ofModel_within`). That tree
belongs to a larger model, whose insertions go the same way as long as they
are about types of the smaller one, whatever other types stand in front
(`insert_beside`).
-/

namespace SchemaGen

namespace Hierarchy

/-! ## Listings -/

namespace Preorder

variable {kids kids' : String → List String} {roots listing listing' : List String}

/-- The roots and the children leave no choice of the listing. -/
theorem unique (h : Preorder kids roots listing) (h' : Preorder kids roots listing') :
    listing = listing' := by
  induction h generalizing listing' with
  | nil =>
      cases h'
      rfl
  | cons _ _ ihbelow ihafter =>
      cases h' with
      | cons hbelow hafter => rw [ihbelow hbelow, ihafter hafter]

/-- Where nothing is kept below a type that is dropped, the kept types are listed as a forest of
their own. -/
theorem filter {keep : String → Bool} (h : Preorder kids roots listing)
    (hkept : ∀ name, keep name = true → kids' name = (kids name).filter keep)
    (hdropped : ∀ name, ¬keep name = true → (kids name).filter keep = []) :
    Preorder kids' (roots.filter keep) (listing.filter keep) := by
  induction h with
  | nil => exact .nil
  | @cons root roots below after _ _ ihbelow ihafter =>
      by_cases hroot : keep root = true
      · rw [List.filter_cons_of_pos hroot, List.filter_cons_of_pos hroot, List.filter_append]
        rw [← hkept root hroot] at ihbelow
        exact .cons ihbelow ihafter
      · rw [hdropped root hroot] at ihbelow
        have hempty : below.filter keep = [] := by
          generalize below.filter keep = kept at ihbelow
          cases ihbelow
          rfl
        rw [List.filter_cons_of_neg hroot, List.filter_cons_of_neg hroot, List.filter_append,
          hempty]
        exact ihafter

end Preorder

variable {m m' : Model} {s t t' after : Hierarchy} {name : String} {names chain : List String}
variable {order : SiblingOrder}

/-- There is one way to arrange distinct types by name. -/
theorem arrange_name_eq {sorted : List String} (hsorted : sorted.Pairwise (· < ·))
    (hperm : sorted.Perm names) : arrange .name names = sorted := by
  have hdistinct : names.Nodup := hperm.nodup_iff.mp (hsorted.imp fun hlt => String.ne_of_lt hlt)
  refine List.Perm.eq_of_pairwise ?_ (arrange_name_pairwise hdistinct) hsorted
    ((arrange_perm .name names).trans hperm.symm)
  intro a b _ _ hab hba
  exact absurd (String.lt_trans hab hba) (String.lt_irrefl a)

/-! ## Insertion in the larger model -/

/-- The types of a tree behind those of another one. -/
def beside (t s : Hierarchy) : Hierarchy := ⟨t.parents ++ s.parents⟩

@[simp] theorem names_beside (t s : Hierarchy) : (t.beside s).names = t.names ++ s.names :=
  Table.keys_append ..

@[simp] theorem beside_empty (t : Hierarchy) : t.beside empty = t := by
  rw [beside, empty, List.append_nil]

theorem children_beside (t s : Hierarchy) (parent : Option String) :
    (t.beside s).children parent = t.children parent ++ s.children parent := by
  simp [children, beside]

theorem attach_beside (t s : Hierarchy) :
    (t.beside s).attach m chain = t.beside (s.attach m chain) := by
  simp [attach, beside]

theorem attach_within (h : m.Within m') (hchain : chain ⊆ m.names) :
    t.attach m' chain = t.attach m chain := by
  have hparents : (chain.reverse.map fun name => (name, modelParent m' name))
      = chain.reverse.map fun name => (name, modelParent m name) :=
    List.map_congr_left fun y hy => by
      rw [h.modelParent_eq (hchain (List.mem_reverse.mp hy))]
  rw [attach, attach, hparents]

theorem Grown.within (ht : Grown m t) (h : m.Within m') : Grown m' t := by
  induction ht with
  | empty => exact .empty
  | @hang t name _ hnew hname hparent ih =>
      rw [← attach_within h (by simpa using hname)]
      exact ih.hang hnew (h.mem_names hname) fun parent hext =>
        hparent parent ((h.extends_iff hname).mp hext)

/-- Trees without a common type grow one behind the other. -/
theorem Grown.beside (ht : Grown m t) (hs : Grown m s) (hapart : ∀ name ∈ s.names, name ∉ t.names) :
    Grown m (t.beside s) := by
  induction hs with
  | empty => rwa [beside_empty]
  | @hang s name _ hnew hname hparent ih =>
      rw [← attach_beside]
      rw [names_attach] at hapart
      refine (ih fun y hy => hapart y (List.mem_append_left _ hy)).hang ?_ hname
        fun parent hext => ?_
      · rw [names_beside, List.mem_append, not_or]
        exact ⟨hapart name (by simp), hnew⟩
      · rw [names_beside]
        exact List.mem_append_right _ (hparent parent hext)

theorem Missing.beside (hmissing : Missing m s name chain) (h : m.Within m')
    (hapart : ∀ name ∈ m.names, name ∉ t.names) : Missing m' (t.beside s) name chain := by
  have hnew {name : String} (hname : name ∈ m.names) (hnew : name ∉ s.names) :
      name ∉ (t.beside s).names := by
    rw [names_beside, List.mem_append, not_or]
    exact ⟨hapart name hname, hnew⟩
  induction hmissing with
  | present hmem => exact .present (by simp [hmem])
  | top hout hname hnone =>
      exact .top (hnew hname hout) (h.mem_names hname) ((h.modelParent_eq hname).trans hnone)
  | under hout hext _ ih =>
      exact .under (hnew hext.mem_names hout) ((h.extends_iff hext.mem_names).mpr hext) ih

theorem Missing.unique {chain' : List String} (h : Missing m t name chain)
    (h' : Missing m t name chain') : chain = chain' := by
  induction h generalizing chain' with
  | present hmem =>
      cases h' with
      | present _ => rfl
      | top hnew _ _ => exact absurd hmem hnew
      | under hnew _ _ => exact absurd hmem hnew
  | top hnew _ hnone =>
      cases h' with
      | present hmem => exact absurd hmem hnew
      | top _ _ _ => rfl
      | under _ hext _ => cases hnone.symm.trans hext
  | under hnew hext _ ih =>
      cases h' with
      | present hmem => exact absurd hmem hnew
      | top _ _ hnone => cases hnone.symm.trans hext
      | under _ hext' hrest =>
          obtain rfl := hext.unique hext'
          rw [ih hrest]

/-- An insertion that succeeds goes the same way in the larger model, behind any tree of types
that the smaller model does not have. -/
theorem insert_beside (ht : Grown m' t) (hs : Grown m s) (h : m.Within m')
    (hapart : ∀ name ∈ m.names, name ∉ t.names) (hok : (s.insert m name).result = .ok after) :
    ((t.beside s).insert m' name).result = .ok (t.beside after) ∧ Grown m after := by
  have hgrown : Grown m' (t.beside s) :=
    ht.beside (hs.within h) fun y hy => hapart y (hs.mem_model hy)
  rcases insert_cases hs name with ⟨above, chain, hchain, hmissing, hresult⟩ | ⟨-, _, herror⟩
  · obtain rfl := Except.ok.inj (hresult.symm.trans hok)
    refine ⟨?_, (hmissing.grown hs).1⟩
    rcases insert_cases hgrown name with ⟨_, chain', -, hmissing', hresult'⟩ | ⟨hnone, -⟩
    · obtain rfl := (hmissing.beside h hapart).unique hmissing'
      obtain ⟨above', hchain', hpre⟩ := hmissing.lineage hs
      rw [hresult', attach_beside,
        attach_within h fun y hy => hchain'.cons_subset_names (hpre.subset hy)]
    · exact absurd ⟨above, h.lineage hchain⟩ hnone
  · cases herror.symm.trans hok

theorem foldlM_insert_beside (ht : Grown m' t) (hs : Grown m s) (h : m.Within m')
    (hapart : ∀ name ∈ m.names, name ∉ t.names)
    (hok : (names.foldlM (insert m) s).result = .ok after) :
    (names.foldlM (insert m') (t.beside s)).result = .ok (t.beside after) := by
  induction names generalizing s with
  | nil =>
      obtain rfl := Except.ok.inj hok
      rfl
  | cons name names ih =>
      rw [List.foldlM_cons] at hok ⊢
      cases hfirst : (s.insert m name).result with
      | error fault => cases (Traced.bind_error hfirst _).symm.trans hok
      | ok next =>
          obtain ⟨hnext, hgrown⟩ := insert_beside ht hs h hapart hfirst
          rw [Traced.bind_ok hfirst] at hok
          rw [Traced.bind_ok hnext]
          exact ih hgrown hok

/-- The insertions of a model succeed as the first ones of a larger model. -/
theorem foldlM_insert_within (h : m.Within m') (hok : (ofModel m).result = .ok t) :
    (m.names.foldlM (insert m') empty).result = .ok t :=
  foldlM_insert_beside .empty .empty h (by simp) hok

theorem names_foldlM_insert (hok : (names.foldlM (insert m) t).result = .ok after) :
    t.names <+: after.names := by
  induction names generalizing t with
  | nil =>
      obtain rfl := Except.ok.inj hok
      exact List.prefix_rfl
  | cons name names ih =>
      rw [List.foldlM_cons] at hok
      cases hfirst : (t.insert m name).result with
      | error fault => cases (Traced.bind_error hfirst _).symm.trans hok
      | ok next =>
          rw [Traced.bind_ok hfirst] at hok
          rw [insert_result] at hfirst
          obtain ⟨chain, -, rfl⟩ := map_eq_ok hfirst
          refine List.IsPrefix.trans ?_ (ih hok)
          rw [names_attach]
          exact List.prefix_append _ _

/-- The tree of a larger model that lists new types last begins with the tree of the smaller. -/
theorem names_ofModel_within (h : m.Within m') (hnames : m.names <+: m'.names)
    (ht : (ofModel m).result = .ok t) (ht' : (ofModel m').result = .ok t') :
    t.names <+: t'.names := by
  obtain ⟨rest, hrest⟩ := hnames
  rw [ofModel, ← hrest, List.foldlM_append] at ht'
  rw [Traced.bind_ok (foldlM_insert_within h ht)] at ht'
  exact names_foldlM_insert ht'

/-! ## Walks -/

namespace Grown

/-- The walk of the larger tree passes through the types of the smaller one as the walk of the
smaller does, when siblings are met in the same order. -/
theorem walk_eq_filter (ht : Grown m t) (ht' : Grown m t')
    (hsiblings : ∀ parent, arrange order (t.children parent)
      = (arrange order (t'.children parent)).filter (· ∈ t.names)) :
    t.walk order = (t'.walk order).filter (· ∈ t.names) := by
  refine (ht.walk_spec order).1.unique ?_
  rw [hsiblings none]
  refine (ht'.walk_spec order).1.filter (fun name _ => hsiblings (some name)) fun name hname => ?_
  refine List.filter_eq_nil_iff.mpr fun child hchild hkept => hname ?_
  obtain ⟨-, hext⟩ := ht'.mem_visited.mp hchild
  simp only [decide_eq_true_eq] at hkept ⊢
  exact ht.parent_mem hkept hext

theorem filter_children (ht : Grown m t) (ht' : Grown m t')
    (hfilter : t'.names.filter (· ∈ t.names) = t.names) (parent : Option String) :
    (t'.children parent).filter (· ∈ t.names) = t.children parent := by
  rw [ht.children_eq, ht'.children_eq, List.filter_comm, hfilter]

/-- In the order of discovery, the walk of a tree keeps its order while the tree grows. -/
theorem walk_discovery_eq (ht : Grown m t) (ht' : Grown m t') (hfront : t.names <+: t'.names) :
    t.walk .discovery = (t'.walk .discovery).filter (· ∈ t.names) := by
  refine ht.walk_eq_filter ht' fun parent => (ht.filter_children ht' ?_ parent).symm
  obtain ⟨rest, hrest⟩ := hfront
  have hdistinct : (t.names ++ rest).Nodup := hrest ▸ ht'.nodup
  rw [← hrest, List.filter_append, List.filter_eq_self.mpr (by simp),
    List.filter_eq_nil_iff.mpr, List.append_nil]
  intro name hname hold
  exact (List.nodup_append.mp hdistinct).2.2 name (by simpa using hold) name hname rfl

/-- In the order of names, the walk depends on nothing but the types of the tree. -/
theorem walk_name_eq (ht : Grown m t) (ht' : Grown m t') (hsub : t.names ⊆ t'.names) :
    t.walk .name = (t'.walk .name).filter (· ∈ t.names) := by
  refine ht.walk_eq_filter ht' fun parent => ?_
  have hdistinct (parent : Option String) : (t'.children parent).Nodup := by
    rw [ht'.children_eq]
    exact ht'.nodup.filter _
  refine arrange_name_eq ((arrange_name_pairwise (hdistinct parent)).filter _) ?_
  refine ((arrange_perm .name (t'.children parent)).filter _).trans ?_
  refine (List.perm_ext_iff_of_nodup ((hdistinct parent).filter _) ?_).mpr fun child => ?_
  · rw [ht.children_eq]
    exact ht.nodup.filter _
  · rw [List.mem_filter, decide_eq_true_eq, ht.mem_children, ht'.mem_children]
    exact ⟨fun h => ⟨h.2, h.1.2⟩, fun h => ⟨⟨hsub h.1, h.2⟩, h.1⟩⟩

end Grown

end Hierarchy

end SchemaGen
