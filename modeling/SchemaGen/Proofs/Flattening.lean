import Mathlib.Data.List.InsertIdx
import SchemaGen.Proofs.Translation

/-!
# The closed form of flattened lines

A GraphQL type repeats the fields of its ancestors. The code gets there one
level at a time: it wraps the lines that the parent was given and adds its
own. `flatLines` says directly what comes out of that for a whole chain of
parents: all opening marks, nearest parent first, then from the top of the
chain downwards the lines of each parent with its closing mark, and last the
lines of the type itself.

The identity line depends on the chain as a whole. The code decides about it
by looking for an identity among the lines inherited so far, which are text.
`IdentityPlace` says the same on the model: the topmost persisted base of the
chain is the only type that can bring the line in, and it does so unless an
ancestor of that base declares the field. The place is the number of types
below the base, since that many marks are open at that point. The chain
leaves no choice of it (`IdentityPlace.unique`), so a type has one closed form
(`FlatLines.unique`).

`recordLines_flat` is the step from a parent's lines to a child's. It needs
the lines of the parent only, so the registry enters the proof as a
hypothesis about one entry.
-/

namespace SchemaGen

open SchemaGen.Model

namespace Model

/-- A record that is marked as a persisted base. -/
def IsBase (m : Model) (name : String) : Prop :=
  ∃ r, m.get? name = some (.record r) ∧ r.dbBase = true

/-- A record with a field of its own for the identity. -/
def DeclaresIdentity (m : Model) (name : String) : Prop :=
  ∃ r, m.get? name = some (.record r) ∧ ∃ field ∈ r.fields, field.name = "_id"

/-- Behind how many opening marks the identity line stands in the lines of a type, if it is
inserted at all. The chain is the type with its ancestors, and `z` its topmost base. -/
inductive IdentityPlace (m : Model) : List String → Option Nat → Prop
  | noBase {chain : List String} : (∀ y ∈ chain, ¬m.IsBase y) → IdentityPlace m chain none
  | declared {below beyond : List String} {z : String} :
      m.IsBase z → (∀ y ∈ beyond, ¬m.IsBase y) → (∃ y ∈ beyond, m.DeclaresIdentity y) →
      IdentityPlace m (below ++ z :: beyond) none
  | inserted {below beyond : List String} {z : String} :
      m.IsBase z → (∀ y ∈ beyond, ¬m.IsBase y) → (∀ y ∈ beyond, ¬m.DeclaresIdentity y) →
      IdentityPlace m (below ++ z :: beyond) (some below.length)

theorem isBase_iff {m : Model} {name : String} {r : Record} (h : m.get? name = some (.record r)) :
    m.IsBase name ↔ r.dbBase = true := by
  simp [IsBase, h]

theorem declaresIdentity_iff {m : Model} {name : String} {r : Record}
    (h : m.get? name = some (.record r)) :
    m.DeclaresIdentity name ↔ ∃ field ∈ r.fields, field.name = "_id" := by
  simp [DeclaresIdentity, h]

/-- The place of the identity line is one of the open marks. -/
theorem IdentityPlace.le_length {m : Model} {name : String} {above : List String} {place : Nat}
    (h : m.IdentityPlace (name :: above) (some place)) : place ≤ above.length := by
  generalize hchain : name :: above = chain at h
  cases h with
  | @inserted below beyond z _ _ _ =>
      have hlen := congrArg List.length hchain
      simp only [List.length_append, List.length_cons] at hlen
      omega

/-- A chain has one topmost base at most. -/
theorem topmost_unique {m : Model} {below beyond below' beyond' : List String} {z z' : String}
    (hsplit : below ++ z :: beyond = below' ++ z' :: beyond') (hz : m.IsBase z)
    (hz' : m.IsBase z') (hbeyond : ∀ y ∈ beyond, ¬m.IsBase y)
    (hbeyond' : ∀ y ∈ beyond', ¬m.IsBase y) : below = below' ∧ beyond = beyond' := by
  rcases List.append_eq_append_iff.mp hsplit with ⟨mid, rfl, hrest⟩ | ⟨mid, rfl, hrest⟩
  · cases mid with
    | nil => exact ⟨(List.append_nil _).symm, (List.cons.inj hrest).2⟩
    | cons first mid =>
        -- the base of the second split would lie beyond that of the first
        have hmem : z' ∈ beyond := by
          rw [(List.cons.inj hrest).2]
          simp
        exact absurd hz' (hbeyond z' hmem)
  · cases mid with
    | nil => exact ⟨List.append_nil _, (List.cons.inj hrest).2.symm⟩
    | cons first mid =>
        have hmem : z ∈ beyond' := by
          rw [(List.cons.inj hrest).2]
          simp
        exact absurd hz (hbeyond' z hmem)

/-- The chain leaves no choice of the place. -/
theorem IdentityPlace.unique {m : Model} {chain : List String} {place place' : Option Nat}
    (h : m.IdentityPlace chain place) (h' : m.IdentityPlace chain place') : place = place' := by
  generalize hchain : chain = chain' at h'
  cases h with
  | noBase hno =>
      cases h' with
      | noBase _ => rfl
      | declared hz _ _ => exact absurd hz (hno _ (by simp [hchain]))
      | inserted hz _ _ => exact absurd hz (hno _ (by simp [hchain]))
  | declared hz hbeyond hdeclares =>
      cases h' with
      | noBase _ => rfl
      | declared _ _ _ => rfl
      | inserted hz' hbeyond' hnone =>
          obtain ⟨-, rfl⟩ := topmost_unique hchain hz hz' hbeyond hbeyond'
          obtain ⟨y, hy, hdecl⟩ := hdeclares
          exact absurd hdecl (hnone y hy)
  | inserted hz hbeyond hnone =>
      cases h' with
      | noBase hno => exact absurd hz (hno _ (by simp [← hchain]))
      | declared hz' hbeyond' hdeclares =>
          obtain ⟨-, rfl⟩ := topmost_unique hchain hz hz' hbeyond hbeyond'
          obtain ⟨y, hy, hdecl⟩ := hdeclares
          exact absurd hdecl (hnone y hy)
      | inserted hz' hbeyond' _ =>
          obtain ⟨rfl, -⟩ := topmost_unique hchain hz hz' hbeyond hbeyond'
          rfl

/-- The place for a child, from that for its parent and what the chain above declares. -/
theorem IdentityPlace.cons {m : Model} {name : String} {chain : List String} {place : Option Nat}
    {r : Record} (h : m.get? name = some (.record r)) (hplace : m.IdentityPlace chain place) :
    (place ≠ none ∨ ∃ y ∈ chain, m.DeclaresIdentity y)
        ∧ m.IdentityPlace (name :: chain) (place.map (· + 1))
      ∨ (place = none ∧ ¬∃ y ∈ chain, m.DeclaresIdentity y)
        ∧ m.IdentityPlace (name :: chain) (if r.dbBase then some 0 else none) := by
  have hiff := isBase_iff h
  cases hplace with
  | inserted hz hbeyond hdeclares =>
      exact Or.inl ⟨Or.inl (by simp),
        @IdentityPlace.inserted m (name :: _) _ _ hz hbeyond hdeclares⟩
  | @declared below beyond z hz hbeyond hdeclares =>
      obtain ⟨y, hy, hdecl⟩ := hdeclares
      have hmem : y ∈ below ++ z :: beyond :=
        List.mem_append_right _ (List.mem_cons_of_mem _ hy)
      exact Or.inl ⟨Or.inr ⟨y, hmem, hdecl⟩,
        @IdentityPlace.declared m (name :: below) beyond z hz hbeyond ⟨y, hy, hdecl⟩⟩
  | noBase hno =>
      -- the child is the topmost base if it is a base at all
      have hnone : r.dbBase = false → m.IdentityPlace (name :: chain) none := by
        intro hbase
        refine .noBase (List.forall_mem_cons.mpr ⟨?_, hno⟩)
        rw [hiff, hbase]
        exact Bool.false_ne_true
      by_cases hdeclares : ∃ y ∈ chain, m.DeclaresIdentity y
      · refine Or.inl ⟨Or.inr hdeclares, ?_⟩
        cases hbase : r.dbBase with
        | true => exact @IdentityPlace.declared m [] chain name (hiff.mpr hbase) hno hdeclares
        | false => exact hnone hbase
      · refine Or.inr ⟨⟨rfl, hdeclares⟩, ?_⟩
        cases hbase : r.dbBase with
        | true =>
            have hall : ∀ y ∈ chain, ¬m.DeclaresIdentity y :=
              fun y hy hdecl => hdeclares ⟨y, hy, hdecl⟩
            exact @IdentityPlace.inserted m [] chain name (hiff.mpr hbase) hno hall
        | false => exact hnone hbase

/-- Parents of a well-formed model are records. -/
theorem WellFormed.parent_record {m : Model} (hm : m.WellFormed) {child parent : String}
    (h : m.Extends child parent) (hparent : parent ∈ m.names) :
    ∃ r, m.get? parent = some (.record r) := by
  obtain ⟨d, hd⟩ := exists_get? hparent
  cases d with
  | record r => exact ⟨r, hd⟩
  | enumeration e => exact absurd ⟨child, parent, e, h, hd⟩ hm.inherits
  | bare _ => exact (hm.shaped parent _ hd).2.elim

theorem WellFormed.lineage_records {m : Model} (hm : m.WellFormed) {name : String}
    {above : List String} (h : m.Lineage name above) :
    ∀ y ∈ above, ∃ r, m.get? y = some (.record r) := by
  induction h with
  | top _ _ => simp
  | under hext hrest ih =>
      exact List.forall_mem_cons.mpr ⟨hm.parent_record hext hrest.mem_names, ih⟩

end Model

namespace GraphQL

/-- The lines of the declared fields of a record. -/
def ownLines (settings : Settings) (m : Model) (name : String) : List String :=
  match m.get? name with
  | some (.record r) =>
    match r.fields.mapM (fieldLine settings) with
    | .ok lines => lines
    | .error _ => []
  | _ => []

/-- The opening marks of the parents, with the identity line behind as many of them as given. -/
def openingLines (above : List String) : Option Nat → List String
  | none => above.map startMark
  | some place => (above.map startMark).insertIdx place identityLine

/-- All lines of a type, from the lines that it and each of its parents have of their own. -/
def flatLines (own : String → List String) (name : String) (above : List String)
    (place : Option Nat) : List String :=
  openingLines above place ++ (above.reverse.flatMap fun y => own y ++ [endMark y]) ++ own name

/-- `lines` is the closed form for the type in its model. -/
def FlatLines (settings : Settings) (m : Model) (name : String) (lines : List String) : Prop :=
  ∃ above place, m.Lineage name above ∧ m.IdentityPlace (name :: above) place
    ∧ lines = flatLines (ownLines settings m) name above place

variable {settings : Settings} {m : Model} {name parent : String} {above : List String}

/-- A type of a model has one closed form at most. -/
theorem FlatLines.unique {lines lines' : List String} (h : FlatLines settings m name lines)
    (h' : FlatLines settings m name lines') : lines = lines' := by
  obtain ⟨above, place, hchain, hplace, rfl⟩ := h
  obtain ⟨above', place', hchain', hplace', rfl⟩ := h'
  obtain rfl := hchain.unique hchain'
  obtain rfl := hplace.unique hplace'
  rfl

/-! ## One more level -/

theorem openingLines_cons (place : Option Nat) :
    openingLines (parent :: above) (place.map (· + 1))
      = startMark parent :: openingLines above place := by
  cases place with
  | none => rfl
  | some place => rfl

/-- The lines of the parent between its marks, then the own ones. -/
theorem flatLines_cons (own : String → List String) (place : Option Nat) :
    flatLines own name (parent :: above) (place.map (· + 1))
      = startMark parent :: flatLines own parent above place ++ [endMark parent] ++ own name := by
  unfold flatLines
  rw [openingLines_cons, List.reverse_cons, List.flatMap_append]
  simp

theorem mem_openingLines {place : Option Nat} {line : String}
    (h : line ∈ openingLines above place) :
    line = identityLine ∨ ∃ y ∈ above, line = startMark y := by
  have hmark : line ∈ above.map startMark → ∃ y ∈ above, line = startMark y := by
    intro hmem
    obtain ⟨y, hy, rfl⟩ := List.mem_map.mp hmem
    exact ⟨y, hy, rfl⟩
  cases place with
  | none => exact Or.inr (hmark h)
  | some place => exact (List.eq_or_mem_of_mem_insertIdx h).imp_right hmark

/-- What holds of the identity line, of all marks and of all own lines holds of the whole form. -/
theorem forall_flatLines {P : String → Prop} {own : String → List String} {place : Option Nat}
    (hidentity : P identityLine) (hmarks : ∀ y ∈ above, P (startMark y) ∧ P (endMark y))
    (hown : ∀ y ∈ name :: above, ∀ line ∈ own y, P line) :
    ∀ line ∈ flatLines own name above place, P line := by
  intro line hline
  rcases List.mem_append.mp hline with hline | hline
  · rcases List.mem_append.mp hline with hline | hline
    · rcases mem_openingLines hline with rfl | ⟨y, hy, rfl⟩
      · exact hidentity
      · exact (hmarks y hy).1
    · obtain ⟨y, hy, hline⟩ := List.mem_flatMap.mp hline
      have hy : y ∈ above := List.mem_reverse.mp hy
      rcases List.mem_append.mp hline with hline | hline
      · exact hown y (List.mem_cons_of_mem _ hy) line hline
      · rw [List.mem_singleton.mp hline]
        exact (hmarks y hy).2
  · exact hown name (List.mem_cons_self ..) line hline

example : flatLines (fun y => [y]) "C" ["B", "A"] (some 1)
    = ["# START Inherited from B", "_id: ID!", "# START Inherited from A", "A",
      "# END Inherited from A", "B", "# END Inherited from B", "C"] := by
  decide

/-! ## Lines that declare the identity -/

theorem declaresIdentity_startMark : declaresIdentity (startMark name) = false := by
  unfold declaresIdentity startMark
  rw [String.toList_append]
  simp only [String.reduceToList]
  rfl

theorem declaresIdentity_endMark : declaresIdentity (endMark name) = false := by
  unfold declaresIdentity endMark
  rw [String.toList_append]
  simp only [String.reduceToList]
  rfl

/-- A word that ends before a separator is read off the text in front of it. -/
theorem append_singleton_prefix_iff {α : Type} {sep : α} {word front rest : List α}
    (hword : sep ∉ word) (hfront : sep ∉ front) :
    word ++ [sep] <+: front ++ sep :: rest ↔ front = word := by
  induction word generalizing front with
  | nil =>
      cases front with
      | nil => simp
      | cons c front =>
          have hne : sep ≠ c := fun h => hfront (h ▸ List.mem_cons_self ..)
          simp [hne]
  | cons w word ih =>
      obtain ⟨hsep, hword⟩ := not_or.mp (List.mem_cons.not.mp hword)
      cases front with
      | nil => simp [Ne.symm hsep]
      | cons c front =>
          have hrest := ih hword fun h => hfront (List.mem_cons_of_mem _ h)
          rw [List.cons_append, List.cons_append, List.cons_prefix_cons, hrest, List.cons.injEq,
            eq_comm]

theorem declaresIdentity_fieldLine {field : Field} {line : String}
    (hname : Text.isGraphQLName field.name = true) (h : fieldLine settings field = .ok line) :
    declaresIdentity line = true ↔ field.name = "_id" := by
  have hcolon : ':' ∉ field.name.toList := by
    intro hmem
    rcases Text.mem_of_isGraphQLName hname hmem with hchar | hfeed
    · exact absurd hchar (by decide)
    · exact absurd hfeed (by decide)
  obtain ⟨text, -, rfl⟩ := map_eq_ok h
  have hline : (field.name ++ ": " ++ text).toList
      = field.name.toList ++ ':' :: (' ' :: text.toList) := by
    simp
  rw [declaresIdentity, List.isPrefixOf_iff_prefix, hline,
    show "_id:".toList = "_id".toList ++ [':'] from rfl,
    append_singleton_prefix_iff (by decide) hcolon]
  exact String.toList_inj

theorem ownLines_eq (hm : m.WellFormed) {r : Record} (h : m.get? name = some (.record r)) :
    r.fields.mapM (fieldLine settings) = .ok (ownLines settings m name)
      ∧ List.Forall₂ (fun field line => fieldLine settings field = .ok line)
          r.fields (ownLines settings m name) := by
  obtain ⟨lines, hlines, hall⟩ := fieldLines_ok settings (hm.shaped name _ h).2
  have hown : ownLines settings m name = lines := by
    simp only [ownLines, h, hlines]
  rw [hown]
  exact ⟨hlines, hall⟩

theorem any_declaresIdentity_ownLines (hm : m.WellFormed) {r : Record}
    (h : m.get? name = some (.record r)) :
    (∃ line ∈ ownLines settings m name, declaresIdentity line = true)
      ↔ m.DeclaresIdentity name := by
  have hlines := (@ownLines_eq settings m name hm r h).2
  have hnames : ∀ field ∈ r.fields, Text.isGraphQLName field.name = true :=
    fun field hfield => ((hm.shaped name _ h).2.2 field hfield).1
  rw [declaresIdentity_iff h]
  generalize ownLines settings m name = lines at hlines
  generalize r.fields = fields at hlines hnames
  induction hlines with
  | nil => simp
  | cons hline _ ih =>
      have hfirst := declaresIdentity_fieldLine (hnames _ (List.mem_cons_self ..)) hline
      have hrest := ih fun field hfield => hnames field (List.mem_cons_of_mem _ hfield)
      simp only [List.mem_cons, exists_eq_or_imp, hfirst, hrest]

/-- Without the identity line, the lines declare the identity when the type or one of its parents
does. -/
theorem declaresIdentity_flatLines_none (hm : m.WellFormed)
    (hrecords : ∀ y ∈ name :: above, ∃ r, m.get? y = some (.record r)) :
    (flatLines (ownLines settings m) name above none).any declaresIdentity = true
      ↔ ∃ y ∈ name :: above, m.DeclaresIdentity y := by
  have hown : ∀ y ∈ name :: above,
      (ownLines settings m y).any declaresIdentity = true ↔ m.DeclaresIdentity y := by
    intro y hy
    obtain ⟨r, hr⟩ := hrecords y hy
    rw [List.any_eq_true]
    exact any_declaresIdentity_ownLines hm hr
  have hopening : (openingLines above none).any declaresIdentity = false := by
    simp [openingLines, declaresIdentity_startMark]
  have hclosing : (above.reverse.flatMap fun y => ownLines settings m y ++ [endMark y]).any
      declaresIdentity = true ↔ ∃ y ∈ above, m.DeclaresIdentity y := by
    simp only [List.any_flatMap, List.any_reverse, List.any_append, List.any_cons, List.any_nil,
      declaresIdentity_endMark, Bool.or_false]
    rw [List.any_eq_true]
    refine exists_congr fun y => and_congr_right fun hy => hown y (List.mem_cons_of_mem _ hy)
  rw [flatLines, List.any_append, List.any_append, hopening, Bool.false_or, Bool.or_eq_true,
    hclosing, hown name (List.mem_cons_self ..), List.exists_mem_cons_iff]
  exact or_comm

theorem declaresIdentity_flatLines_some (own : String → List String) {place : Nat}
    (hplace : place ≤ above.length) :
    (flatLines own name above (some place)).any declaresIdentity = true := by
  have hmem : identityLine ∈ flatLines own name above (some place) := by
    refine List.mem_append_left _ (List.mem_append_left _ ?_)
    exact (List.mem_insertIdx (by simpa using hplace)).mpr (Or.inl rfl)
  exact List.any_eq_true.mpr ⟨identityLine, hmem, by decide⟩

/-! ## From the parent to the child -/

/-- What the code makes of the lines inherited from the parent. -/
theorem recordLines_eq (hm : m.WellFormed) {r : Record} (h : m.get? name = some (.record r))
    {kept : FieldLines} {inherited : List String}
    (hinherited : inheritedLines kept r = .ok inherited) :
    recordLines settings kept r
      = .ok ((if r.dbBase && !inherited.any declaresIdentity then [identityLine] else [])
          ++ inherited ++ ownLines settings m name) := by
  have hown := (@ownLines_eq settings m name hm r h).1
  unfold recordLines
  rw [hinherited, hown]
  rfl

theorem flatLines_top {r : Record} (h : m.get? name = some (.record r))
    (hparent : r.parent = none) :
    FlatLines settings m name
      ((if r.dbBase then [identityLine] else []) ++ ownLines settings m name) := by
  have hchain : m.Lineage name [] :=
    .top (mem_names_of_get? h) ((modelParent_eq h).trans hparent)
  have hiff := isBase_iff h
  cases hbase : r.dbBase with
  | true =>
      have hplace : m.IdentityPlace [name] (some 0) :=
        @IdentityPlace.inserted m [] [] name (hiff.mpr hbase) (by simp) (by simp)
      exact ⟨[], some 0, hchain, hplace, rfl⟩
  | false =>
      have hplace : m.IdentityPlace [name] none := by
        refine .noBase fun y hy => ?_
        rw [List.mem_singleton.mp hy, hiff, hbase]
        exact Bool.false_ne_true
      exact ⟨[], none, hchain, hplace, rfl⟩

theorem flatLines_under (hm : m.WellFormed) {r : Record} (h : m.get? name = some (.record r))
    (hparent : r.parent = some parent) {lines : List String}
    (hlines : FlatLines settings m parent lines) :
    FlatLines settings m name
      ((if r.dbBase && !(startMark parent :: lines ++ [endMark parent]).any declaresIdentity
          then [identityLine] else [])
        ++ (startMark parent :: lines ++ [endMark parent]) ++ ownLines settings m name) := by
  obtain ⟨above, place, hchain, hplace, rfl⟩ := hlines
  have hext : m.Extends name parent := (modelParent_eq h).trans hparent
  have hchain' : m.Lineage name (parent :: above) := .under hext hchain
  have hany : (startMark parent :: flatLines (ownLines settings m) parent above place
        ++ [endMark parent]).any declaresIdentity = true
      ↔ place ≠ none ∨ ∃ y ∈ parent :: above, m.DeclaresIdentity y := by
    simp only [List.cons_append, List.any_cons, List.any_append, declaresIdentity_startMark,
      declaresIdentity_endMark, List.any_nil, Bool.false_or, Bool.or_false]
    cases place with
    | none =>
        rw [declaresIdentity_flatLines_none hm (hm.lineage_records hchain')]
        simp
    | some place =>
        rw [declaresIdentity_flatLines_some _ hplace.le_length]
        simp
  rcases hplace.cons h with ⟨hpresent, hnext⟩ | ⟨⟨rfl, hdeclares⟩, hnext⟩
  · refine ⟨parent :: above, place.map (· + 1), hchain', hnext, ?_⟩
    rw [hany.mpr hpresent, flatLines_cons]
    simp
  · have hfalse : (startMark parent :: flatLines (ownLines settings m) parent above none
        ++ [endMark parent]).any declaresIdentity = false := by
      rw [← Bool.not_eq_true, hany]
      simpa using hdeclares
    refine ⟨parent :: above, _, hchain', hnext, ?_⟩
    have hcons := @flatLines_cons name parent above (ownLines settings m) none
    rw [hfalse]
    cases hbase : r.dbBase with
    | true => exact congrArg (identityLine :: ·) hcons.symm
    | false => exact hcons.symm

/-- A record gets the closed form when its parent's lines are kept and have it. -/
theorem recordLines_flat (hm : m.WellFormed) {kept : FieldLines} {r : Record}
    (h : m.get? name = some (.record r))
    (hkept : ∀ parent, r.parent = some parent →
      ∃ lines, Table.get? kept parent = some lines ∧ FlatLines settings m parent lines) :
    ∃ lines, recordLines settings kept r = .ok lines ∧ FlatLines settings m name lines := by
  cases hparent : r.parent with
  | none =>
      have hinherited : inheritedLines kept r = .ok [] := by
        rw [inheritedLines, hparent]
      refine ⟨_, recordLines_eq hm h hinherited, ?_⟩
      simpa using flatLines_top h hparent
  | some parent =>
      obtain ⟨lines, hget, hlines⟩ := hkept parent hparent
      have hinherited : inheritedLines kept r
          = .ok (startMark parent :: lines ++ [endMark parent]) := by
        simp only [inheritedLines, hparent, FieldLines.linesOf, hget]
        rfl
      exact ⟨_, recordLines_eq hm h hinherited, flatLines_under hm h hparent hlines⟩

end GraphQL

end SchemaGen
