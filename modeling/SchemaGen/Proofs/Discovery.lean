import Mathlib.Order.Bounds.Basic
import Mathlib.Order.Lattice.Nat
import SchemaGen.Proofs.Traversal

/-!
# The order of discovery

A type is attached when it is inserted, or earlier, when one of its
descendants is: the climb from the descendant brings in all that is missing
above it. So a type is in the tree from the turn of the first type of its
subtree on (`mem_names_insertAll_take`), and siblings are discovered in the
order of these turns, which the model alone decides (`FirstPosition`).

A tree lists its types in the order of insertion, and its lists of children
are taken from that list, so they show the order of discovery. The walk keeps
it for whole subtrees: a forest is listed root by root, each with everything
below it (`Preorder.sublist_of_roots`).

The main statement is `ofModel_discovers`. Its two equivalences rest on one
implication (`precedes_of_first`), read for the two siblings in either order:
distinct siblings share no descendant, so one of them comes first
(`FirstPosition.ne_of_siblings`).
-/

namespace SchemaGen

namespace Model

/-- `name` is `head` or one of its descendants. -/
def Subtree (m : Model) (head name : String) : Prop := Relation.ReflTransGen m.Extends name head

/-- `k` is the smallest position in the model of a type of the subtree below `head`. -/
def FirstPosition (m : Model) (head : String) (k : Nat) : Prop :=
  IsLeast {k | ∃ name, m.names[k]? = some name ∧ m.Subtree head name} k

variable {m : Model} {name head x y : String} {above : List String} {i j k : Nat}

theorem exists_firstPosition (h : head ∈ m.names) : ∃ k, m.FirstPosition head k := by
  obtain ⟨k, hk⟩ := List.mem_iff_getElem?.mp h
  have hsome : {k | ∃ name, m.names[k]? = some name ∧ m.Subtree head name}.Nonempty :=
    ⟨k, head, hk, .refl⟩
  exact ⟨_, Nat.sInf_mem hsome, fun _ => Nat.sInf_le⟩

theorem Subtree.mem_names (h : m.Subtree head name) (hhead : head ∈ m.names) :
    name ∈ m.names := by
  rcases Relation.reflTransGen_iff_eq_or_transGen.mp h with rfl | hanc
  · exact hhead
  · obtain ⟨_, hext, -⟩ := Ancestor.firstStep hanc
    exact hext.mem_names

/-- A type is in the subtree below itself and below each of its parents. -/
theorem Lineage.subtree_iff (h : m.Lineage name above) :
    m.Subtree head name ↔ head ∈ name :: above := by
  rw [Subtree, Relation.reflTransGen_iff_eq_or_transGen, List.mem_cons, h.mem_iff]
  rfl

/-- Types with the same parent are not above each other, unless they are the same. -/
theorem eq_of_reaches_sibling (h : m.Lineage x above)
    (hsiblings : Hierarchy.modelParent m x = Hierarchy.modelParent m y)
    (hreach : Relation.ReflTransGen m.Extends x y) : x = y := by
  rcases Relation.reflTransGen_iff_eq_or_transGen.mp hreach with heq | hanc
  · exact heq.symm
  · obtain ⟨parent, hext, hup⟩ := Ancestor.firstStep hanc
    have hext' : m.Extends y parent := hsiblings.symm.trans hext
    exact absurd ⟨y, hreach, Relation.TransGen.head' hext' hup⟩ h.not_revisits

/-- Distinct siblings have no descendant in common. -/
theorem eq_of_subtree_siblings (h : m.Lineage name above)
    (hsiblings : Hierarchy.modelParent m x = Hierarchy.modelParent m y)
    (hx : m.Subtree x name) (hy : m.Subtree y name) : x = y := by
  have hunique : Relator.RightUnique m.Extends := fun _ _ _ => Extends.unique
  obtain ⟨_, hchainx, -⟩ := h.of_reaches hx
  obtain ⟨_, hchainy, -⟩ := h.of_reaches hy
  rcases Relation.ReflTransGen.total_of_right_unique hunique hx hy with hup | hup
  · exact eq_of_reaches_sibling hchainx hsiblings hup
  · exact (eq_of_reaches_sibling hchainy hsiblings.symm hup).symm

theorem FirstPosition.ne_of_siblings (hi : m.FirstPosition x i) (hj : m.FirstPosition y j)
    (hhealthy : ∀ name ∈ m.names, ∃ above, m.Lineage name above)
    (hsiblings : Hierarchy.modelParent m x = Hierarchy.modelParent m y) (hne : x ≠ y) :
    i ≠ j := by
  rintro rfl
  obtain ⟨name, hname, hx⟩ := hi.1
  obtain ⟨name', hname', hy⟩ := hj.1
  obtain rfl := Option.some.inj (hname.symm.trans hname')
  obtain ⟨above, hchain⟩ := hhealthy name (List.mem_of_getElem? hname)
  exact hne (eq_of_subtree_siblings hchain hsiblings hx hy)

end Model

namespace Hierarchy

open SchemaGen.Model

variable {m : Model} {t : Hierarchy} {x y : String} {parent : Option String} {i j k : Nat}

/-! ## When a type comes into the tree -/

theorem foldl_inserted_of_ok {names : List String} {after : Hierarchy}
    (hok : (names.foldlM (insert m) t).result = .ok after) :
    names.foldl (inserted m) t = after := by
  induction names generalizing t with
  | nil => exact Except.ok.inj hok
  | cons name names ih =>
      rw [List.foldlM_cons] at hok
      cases hfirst : (t.insert m name).result with
      | error fault => cases (Traced.bind_error hfirst _).symm.trans hok
      | ok next =>
          rw [Traced.bind_ok hfirst] at hok
          rw [List.foldl_cons, inserted_of_ok hfirst]
          exact ih hok

/-- After the first `k` insertions of a model, a type is in the tree when the first of its subtree
was among them. -/
theorem mem_names_insertAll_take (hhealthy : ∀ name ∈ m.names, ∃ above, m.Lineage name above)
    (hfirst : m.FirstPosition x i) : x ∈ (insertAll m (m.names.take k)).names ↔ i < k := by
  rw [mem_names_insertAll]
  constructor
  · rintro ⟨called, hcalled, above, hchain, hmem⟩
    obtain ⟨j, hj⟩ := List.mem_iff_getElem?.mp hcalled
    rw [List.getElem?_take] at hj
    split at hj
    · rename_i hlt
      exact Nat.lt_of_le_of_lt (hfirst.2 ⟨called, hj, hchain.subtree_iff.mpr hmem⟩) hlt
    · cases hj
  · intro hlt
    obtain ⟨called, hcalled, hsub⟩ := hfirst.1
    obtain ⟨above, hchain⟩ := hhealthy called (List.mem_of_getElem? hcalled)
    refine ⟨called, ?_, above, hchain, hchain.subtree_iff.mp hsub⟩
    exact List.mem_of_getElem? ((List.getElem?_take_of_lt hlt).trans hcalled)

theorem names_insertAll_append (calls more : List String) :
    (insertAll m calls).names <+: (insertAll m (calls ++ more)).names := by
  induction more using List.reverseRecOn with
  | nil => rw [List.append_nil]
  | append_singleton more name ih =>
      rw [← List.append_assoc, insertAll_concat]
      exact ih.trans (names_prefix_inserted (grown_insertAll _) name)

/-- The types of a whole model are in the tree in the order in which they were discovered. -/
theorem names_sublist_of_first (hhealthy : ∀ name ∈ m.names, ∃ above, m.Lineage name above)
    (hi : m.FirstPosition x i) (hj : m.FirstPosition y j) (hlt : i < j) :
    [x, y].Sublist (insertAll m m.names).names := by
  -- the turn of the first type below `x` brings in `x`, and `y` is still to come
  obtain ⟨rest, hrest⟩ := names_insertAll_append (m.names.take (i + 1)) (m.names.drop (i + 1))
  rw [List.take_append_drop] at hrest
  have hx : x ∈ (insertAll m (m.names.take (i + 1))).names :=
    (mem_names_insertAll_take hhealthy hi).mpr (Nat.lt_succ_self i)
  have hnot : y ∉ (insertAll m (m.names.take (i + 1))).names := by
    rw [mem_names_insertAll_take hhealthy hj]
    omega
  have hall : y ∈ (insertAll m m.names).names := by
    have hlast := hj.1.elim fun _ h => (List.getElem?_eq_some_iff.mp h.1).1
    rw [← List.take_length (l := m.names), mem_names_insertAll_take hhealthy hj]
    exact hlast
  rw [← hrest] at hall ⊢
  have hy : y ∈ rest := (List.mem_append.mp hall).resolve_left hnot
  exact List.Sublist.append (List.singleton_sublist.mpr hx) (List.singleton_sublist.mpr hy)

/-! ## Whole subtrees -/

/-- What is below an earlier root is listed before what is below a later one. -/
theorem Preorder.sublist_of_roots {kids : String → List String} {roots listing : List String}
    (h : Preorder kids roots listing) (hroots : [x, y].Sublist roots) {a b : String}
    (ha : Relation.ReflTransGen (fun a b => b ∈ kids a) x a)
    (hb : Relation.ReflTransGen (fun a b => b ∈ kids a) y b) : [a, b].Sublist listing := by
  obtain ⟨front, back, rfl, hx, hy⟩ := List.cons_sublist_iff.mp hroots
  obtain ⟨before, after, rfl, hbefore, hafter⟩ := Preorder.append_iff.mp h
  have ha : a ∈ before := hbefore.mem_iff.mpr ⟨x, hx, ha⟩
  have hb : b ∈ after := hafter.mem_iff.mpr ⟨y, List.singleton_sublist.mp hy, hb⟩
  exact List.Sublist.append (List.singleton_sublist.mpr ha) (List.singleton_sublist.mpr hb)

namespace Grown

/-- Going down from a type leads to the types of its subtree. -/
theorem reaches_of_subtree (ht : Grown m t) (order : SiblingOrder) {name : String}
    (hname : name ∈ t.names) (hsub : m.Subtree x name) :
    Relation.ReflTransGen (fun a b => b ∈ t.visited order a) x name := by
  rcases Relation.reflTransGen_iff_eq_or_transGen.mp hsub with rfl | hanc
  · exact .refl
  · exact ((ht.below_iff order).mpr ⟨hname, hanc⟩).to_reflTransGen

theorem walk_sublist (ht : Grown m t) (order : SiblingOrder)
    (hsiblings : [x, y].Sublist (arrange order (t.children parent))) {a b : String}
    (ha : a ∈ t.names) (hb : b ∈ t.names) (hxa : m.Subtree x a) (hyb : m.Subtree y b) :
    [a, b].Sublist (t.walk order) := by
  obtain ⟨hlisting, hperm⟩ := ht.walk_spec order
  have ha := ht.reaches_of_subtree order ha hxa
  have hb := ht.reaches_of_subtree order hb hyb
  cases parent with
  | none => exact hlisting.sublist_of_roots hsiblings ha hb
  | some parent =>
      obtain ⟨hx, hext⟩ := ht.mem_visited.mp (hsiblings.subset (List.mem_cons_self ..))
      have hparent : parent ∈ t.walk order := hperm.mem_iff.mpr (ht.parent_mem hx hext)
      obtain ⟨before, after, hsplit⟩ := List.append_of_mem hparent
      obtain ⟨block, rest, rfl, hblock⟩ := hlisting.exists_block hsplit
      rw [hsplit]
      refine (hblock.sublist_of_roots hsiblings ha hb).trans ?_
      exact ((List.sublist_append_left block rest).cons parent).trans
        (List.sublist_append_right before _)

end Grown

/-! ## Siblings -/

/-- In a list without repetition, of two items one comes first. -/
theorem not_sublist_swap {l : List String} (hdistinct : l.Nodup) (h : [x, y].Sublist l) :
    ¬[y, x].Sublist l := by
  induction l with
  | nil => cases h
  | cons first l ih =>
      obtain ⟨hfirst, hdistinct⟩ := List.nodup_cons.mp hdistinct
      intro hswap
      cases h with
      | cons _ h =>
          cases hswap with
          | cons _ hswap => exact ih hdistinct h hswap
          | cons_cons _ _ => exact hfirst (h.subset (by simp))
      | cons_cons _ h =>
          cases hswap with
          | cons _ hswap => exact hfirst (hswap.subset (by simp))
          | cons_cons _ _ => exact hfirst (h.subset (by simp))

/-- The tree of a model holds all of its types, and their lineages with them. -/
theorem ofModel_complete (ht : (ofModel m).result = .ok t) :
    Grown m t ∧ (∀ name, name ∈ t.names ↔ name ∈ m.names)
      ∧ ∀ name ∈ m.names, ∃ above, m.Lineage name above := by
  rcases ofModel_ends m with ⟨t', ht', hgrown, hnames⟩ | ⟨_, _, _, _, herror⟩
  · obtain rfl := Except.ok.inj (ht.symm.trans ht')
    refine ⟨hgrown, hnames, fun name hname => ?_⟩
    obtain ⟨above, hchain, -⟩ := hgrown.lineage ((hnames name).mpr hname)
    exact ⟨above, hchain⟩
  · cases ht.symm.trans herror

/-- Of two siblings, the one whose subtree is met first in the model stands first among the
children of the parent, and its subtree is walked first. -/
theorem precedes_of_first (ht : (ofModel m).result = .ok t) (hx : x ∈ m.names) (hy : y ∈ m.names)
    (hxp : modelParent m x = parent) (hyp : modelParent m y = parent)
    (hi : m.FirstPosition x i) (hj : m.FirstPosition y j) (hlt : i < j) :
    [x, y].Sublist (t.children parent)
      ∧ ∀ a b, m.Subtree x a → m.Subtree y b → [a, b].Sublist (t.walk .discovery) := by
  obtain ⟨hgrown, hnames, hhealthy⟩ := ofModel_complete ht
  have hdiscovered : [x, y].Sublist t.names := by
    rw [← foldl_inserted_of_ok ht]
    exact names_sublist_of_first hhealthy hi hj hlt
  have hsiblings : [x, y].Sublist (t.children parent) := by
    rw [hgrown.children_eq]
    simpa [hxp, hyp] using hdiscovered.filter fun name => modelParent m name = parent
  refine ⟨hsiblings, fun a b ha hb => ?_⟩
  have hina : a ∈ t.names := (hnames a).mpr (ha.mem_names hx)
  have hinb : b ∈ t.names := (hnames b).mpr (hb.mem_names hy)
  exact hgrown.walk_sublist .discovery hsiblings hina hinb ha hb

/-- In the order of discovery, of two types with the same parent the one comes first whose subtree
has the smaller first position in the model, among the children of the parent as well as, with its
whole subtree, in the walk. -/
theorem ofModel_discovers (ht : (ofModel m).result = .ok t) (hx : x ∈ m.names) (hy : y ∈ m.names)
    (hne : x ≠ y) (hsiblings : modelParent m x = modelParent m y) :
    ∃ i j, m.FirstPosition x i ∧ m.FirstPosition y j
      ∧ ([x, y].Sublist (t.children (modelParent m x)) ↔ i < j)
      ∧ ((∀ a b, m.Subtree x a → m.Subtree y b → [a, b].Sublist (t.walk .discovery))
        ↔ i < j) := by
  obtain ⟨hgrown, -, hhealthy⟩ := ofModel_complete ht
  obtain ⟨i, hi⟩ := exists_firstPosition hx
  obtain ⟨j, hj⟩ := exists_firstPosition hy
  refine ⟨i, j, hi, hj, ?_⟩
  have hchildren : (t.children (modelParent m x)).Nodup := by
    rw [hgrown.children_eq]
    exact hgrown.nodup.filter _
  have hwalk : (t.walk .discovery).Nodup := (hgrown.walked .discovery).once.1
  rcases Nat.lt_or_gt_of_ne (hi.ne_of_siblings hj hhealthy hsiblings hne) with hlt | hgt
  · obtain ⟨hfirst, hall⟩ := precedes_of_first ht hx hy rfl hsiblings.symm hi hj hlt
    exact ⟨iff_of_true hfirst hlt, iff_of_true hall hlt⟩
  · -- the siblings stand the other way round, and none of them twice
    obtain ⟨hfirst, hall⟩ := precedes_of_first ht hy hx hsiblings.symm rfl hj hi hgt
    have hnotlt : ¬i < j := Nat.lt_asymm hgt
    refine ⟨iff_of_false (not_sublist_swap hchildren hfirst) hnotlt, iff_of_false ?_ hnotlt⟩
    exact fun h => not_sublist_swap hwalk (hall y x .refl .refl) (h x y .refl .refl)

/-- A model whose last type is the first at the root, since it is the parent of the first one. -/
def fleet : Model := .ofList [
  ("Tram", .record { name := "Tram", parent := some "Rail" }),
  ("Ferry", .record { name := "Ferry", parent := some "Boat" }),
  ("Boat", .record { name := "Boat" }),
  ("Rail", .record { name := "Rail" })]

theorem fleet_discovered : ∃ t, (ofModel fleet).result = .ok t
    ∧ "Rail" ∈ fleet.names ∧ "Boat" ∈ fleet.names ∧ "Rail" ≠ "Boat"
    ∧ modelParent fleet "Rail" = modelParent fleet "Boat"
    ∧ ∃ i j, fleet.FirstPosition "Rail" i ∧ fleet.FirstPosition "Boat" j
      ∧ (["Rail", "Boat"].Sublist (t.children none) ↔ i < j)
      ∧ ((∀ a b, fleet.Subtree "Rail" a → fleet.Subtree "Boat" b →
          [a, b].Sublist (t.walk .discovery)) ↔ i < j) := by
  obtain ⟨t, ht⟩ : ∃ t, (ofModel fleet).result = .ok t := ⟨_, rfl⟩
  have hrail : "Rail" ∈ fleet.names := by decide
  have hboat : "Boat" ∈ fleet.names := by decide
  have hne : "Rail" ≠ "Boat" := by decide
  exact ⟨t, ht, hrail, hboat, hne, rfl, ofModel_discovers ht hrail hboat hne rfl⟩

end Hierarchy

end SchemaGen
