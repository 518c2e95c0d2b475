import SchemaGen.Proofs.Outcome
import SchemaGen.Proofs.Subtree

/-!
# What the output does not depend on

The artifacts of a model list its types in the order of the walk, and the code
of a type is settled by its own chain of parents. So when one model lies
within another, the artifacts of the smaller one are those of the larger one
without the types that are new (`types_eq_filter`).

Two results follow. In the order of names, the order in which a model lists
its definitions does not matter at all: two such models lie within each other
(`ofValue_perm`). In either order, definitions that are added behind those of
a model change nothing about its types (`ofValue_append`).

Keys of an object are distinct, which a list of entries by itself is not. The
first result needs it: of two entries with one key, the last one counts. The
second asks only that no key of the model is defined again.
-/

namespace SchemaGen

open SchemaGen.Model
open SchemaGen.Json (Value Entries)
open SchemaGen.Hierarchy (Grown)
open SchemaGen.GraphQL (FieldLines)

namespace Model

variable {m m' : Model} {entries old new : Entries} {name : String}

/-! ## Reading entries in another order, or more of them -/

/-- A model holds what its entries write, when their keys are distinct. -/
theorem get?_eq_some_iff_read (hkeys : (Table.keys entries).Nodup)
    (h : readDefinitions entries = .ok m) {d : Definition} :
    m.get? name = some d ↔ ∃ raw, (name, raw) ∈ entries ∧ Definition.read name raw = .ok d := by
  have hends := readDefinitions_ends entries
  rw [h] at hends
  cases hends with
  | all _ hnames hdefs =>
      have hwritten : ∀ {d}, m.get? name = some d →
          ∃ raw, (name, raw) ∈ entries ∧ Definition.read name raw = .ok d := by
        intro d hget
        refine (hdefs name d hget).resolve_left fun hempty => ?_
        simp [get?, empty, Table.get?] at hempty
      refine ⟨hwritten, ?_⟩
      rintro ⟨raw, hentry, hread⟩
      have hkey : name ∈ Table.keys entries := List.mem_map_of_mem hentry
      obtain ⟨d', hd'⟩ := exists_get? ((hnames name).mpr (Or.inr hkey))
      obtain ⟨raw', hentry', hread'⟩ := hwritten hd'
      have hraw := Table.get?_of_mem hkeys hentry
      obtain rfl := Option.some.inj (hraw.symm.trans (Table.get?_of_mem hkeys hentry'))
      rw [hd', Except.ok.inj (hread'.symm.trans hread)]

theorem exists_readDefinitions_perm {entries' : Entries} (hkeys : (Table.keys entries).Nodup)
    (hperm : entries.Perm entries') (h : readDefinitions entries = .ok m) :
    ∃ m', readDefinitions entries' = .ok m' ∧ m.Within m' ∧ m'.Within m := by
  have hkeys' : (Table.keys entries').Nodup := (hperm.map Prod.fst).nodup_iff.mp hkeys
  have hends := readDefinitions_ends entries
  have hends' := readDefinitions_ends entries'
  rw [h] at hends
  cases hends with
  | all hall _ _ =>
      generalize hresult : readDefinitions entries' = result at hends'
      cases hends' with
      | rejected hentry hbroken =>
          obtain ⟨d, hd⟩ := hall _ (hperm.mem_iff.mpr hentry)
          cases hd.symm.trans hbroken
      | @all m' _ _ _ =>
          refine ⟨m', rfl, fun name d => ?_, fun name d => ?_⟩
          · rw [get?_eq_some_iff_read hkeys h, get?_eq_some_iff_read hkeys' hresult]
            exact fun ⟨raw, hentry, hread⟩ => ⟨raw, hperm.mem_iff.mp hentry, hread⟩
          · rw [get?_eq_some_iff_read hkeys h, get?_eq_some_iff_read hkeys' hresult]
            exact fun ⟨raw, hentry, hread⟩ => ⟨raw, hperm.mem_iff.mpr hentry, hread⟩

theorem Within.extendsEnumeration (h : m.Within m') (henum : m.ExtendsEnumeration) :
    m'.ExtendsEnumeration := by
  obtain ⟨child, parent, e, hext, hget⟩ := henum
  exact ⟨child, parent, e, (h.extends_iff hext.mem_names).mpr hext, h _ _ hget⟩

theorem read_of_readDefinitions (h : readDefinitions entries = .ok m) (hm : m.WellFormed) :
    (read (.object entries)).result = .ok m := by
  have hends := read_ends entries
  have haccepted := not_rejected h hm
  generalize (read (.object entries)).result = result at hends
  cases hends with
  | rejected hentry hbroken => exact absurd (Or.inl ⟨_, hentry, _, hbroken⟩) haccepted
  | extendsEnumeration hdefs henum => exact absurd (Or.inr ⟨_, hdefs, henum⟩) haccepted
  | accepted hdefs _ => rw [Except.ok.inj (hdefs.symm.trans h)]

/-- Reading further entries adds new types behind those that are there. -/
theorem names_foldlM_read
    (h : new.foldlM (fun m e => return m.set e.1 (← Definition.read e.1 e.2)) m = .ok m') :
    m.names <+: m'.names := by
  induction new generalizing m with
  | nil =>
      obtain rfl := Except.ok.inj h
      exact List.prefix_rfl
  | cons entry new ih =>
      rw [List.foldlM_cons] at h
      obtain ⟨next, hnext, hrest⟩ := bind_eq_ok h
      obtain ⟨d, -, hset⟩ := bind_eq_ok hnext
      obtain rfl := Except.ok.inj hset
      refine List.IsPrefix.trans ?_ (ih hrest)
      rw [names, names, set, Table.keys_set]
      split
      · exact List.prefix_rfl
      · exact List.prefix_append _ _

theorem readDefinitions_append (h : readDefinitions old = .ok m)
    (h' : readDefinitions (old ++ new) = .ok m')
    (hdisjoint : ∀ key ∈ Table.keys old, key ∉ Table.keys new) :
    m.Within m' ∧ m.names <+: m'.names := by
  rw [readDefinitions, List.foldlM_append] at h'
  obtain ⟨first, hold, hnew⟩ := bind_eq_ok h'
  obtain rfl : m = first := Except.ok.inj (h.symm.trans hold)
  have hends := foldlM_read_ends new m
  rw [hnew] at hends
  refine ⟨fun name d hget => ?_, names_foldlM_read hnew⟩
  have hname := mem_names_of_get? hget
  cases hends with
  | all _ hnames hdefs =>
      obtain ⟨d', hd'⟩ := exists_get? ((hnames name).mpr (Or.inl hname))
      rcases hdefs name d' hd' with hold | ⟨raw, hentry, -⟩
      · rw [hd', ← hold, hget]
      · have hkey : name ∈ Table.keys old := (mem_names_of_readDefinitions h).mp hname
        exact absurd (List.mem_map_of_mem hentry) (hdisjoint name hkey)

end Model

namespace Artifacts

variable {settings : Settings} {m m' : Model} {a a' b : Artifacts}

/-! ## The order of the types -/

theorem names_generateTypes {kept : FieldLines} {names : List String} {types : List TypeCode}
    (h : (generateTypes settings m kept names).result = .ok types) :
    types.map TypeCode.name = names := by
  induction names generalizing kept types with
  | nil =>
      obtain rfl := Except.ok.inj h
      rfl
  | cons name names ih =>
      unfold generateTypes at h
      split at h
      · cases h
      · simp only [Traced.bind_result] at h
        obtain ⟨_, -, h⟩ := bind_eq_ok h
        obtain ⟨native, -, h⟩ := bind_eq_ok h
        obtain ⟨orm, -, h⟩ := bind_eq_ok h
        obtain ⟨⟨sdl, after⟩, -, h⟩ := bind_eq_ok h
        obtain ⟨rest, hrest, h⟩ := bind_eq_ok h
        obtain rfl := Except.ok.inj h
        rw [List.map_cons, ih hrest]

/-- Artifacts list the types of a model in the order of the walk through its tree. -/
theorem ofModel_walk (h : (ofModel settings m).result = .ok a) :
    ∃ t, (Hierarchy.ofModel m).result = .ok t ∧ Grown m t
      ∧ (∀ name, name ∈ t.names ↔ name ∈ m.names)
      ∧ a.types.map TypeCode.name = t.walk settings.siblingOrder := by
  rcases Hierarchy.ofModel_ends m with ⟨t, htree, hgrown, hnames⟩ | ⟨_, _, _, _, herror⟩
  · have h : (generateTypes settings m [] (t.walk settings.siblingOrder)
        >>= fun types => pure (ofTypes settings types)).result = .ok a :=
      (Traced.bind_ok htree _).symm.trans h
    rw [Traced.bind_result] at h
    obtain ⟨types, htypes, ha⟩ := bind_eq_ok h
    obtain rfl := Except.ok.inj ha
    exact ⟨t, htree, hgrown, hnames, names_generateTypes htypes⟩
  · cases (Traced.bind_error herror _).symm.trans h

theorem eq_of_names_eq {types types' : List TypeCode}
    (hnames : types.map TypeCode.name = types'.map TypeCode.name)
    (hsame : ∀ t ∈ types, ∀ t' ∈ types', t'.name = t.name → t' = t) : types = types' := by
  induction types generalizing types' with
  | nil => exact (List.map_eq_nil_iff.mp hnames.symm).symm
  | cons t types ih =>
      cases types' with
      | nil => cases hnames
      | cons t' types' =>
          obtain ⟨hname, hnames⟩ := List.cons.inj hnames
          rw [hsame t (List.mem_cons_self ..) t' (List.mem_cons_self ..) hname.symm]
          refine congrArg _ (ih hnames fun u hu u' hu' => ?_)
          exact hsame u (List.mem_cons_of_mem _ hu) u' (List.mem_cons_of_mem _ hu')

/-- The artifacts of the smaller model are those of the larger one for its types. In the order of
discovery, the larger model has to list the new types last. -/
theorem types_eq_filter (hm : m.WellFormed) (hm' : m'.WellFormed) (hwithin : m.Within m')
    (hlast : settings.siblingOrder = .discovery → m.names <+: m'.names)
    (h : (ofModel settings m).result = .ok a) (hcomplete : Complete settings m a)
    (h' : (ofModel settings m').result = .ok a') (hcomplete' : Complete settings m' a') :
    a.types = a'.types.filter fun t => t.name ∈ m.names := by
  obtain ⟨t, htree, ht, hnames, hwalk⟩ := ofModel_walk h
  obtain ⟨t', htree', ht', hnames', hwalk'⟩ := ofModel_walk h'
  have hfilter : t.walk settings.siblingOrder
      = (t'.walk settings.siblingOrder).filter (· ∈ t.names) := by
    cases horder : settings.siblingOrder with
    | discovery =>
        exact (ht.within hwithin).walk_discovery_eq ht'
          (Hierarchy.names_ofModel_within hwithin (hlast horder) htree htree')
    | name =>
        refine (ht.within hwithin).walk_name_eq ht' fun name hname => ?_
        exact (hnames' name).mpr (hwithin.mem_names ((hnames name).mp hname))
  refine eq_of_names_eq ?_ fun u hu u' hu' hname =>
    hcomplete.code_eq hm hcomplete' hm' hwithin hu (List.mem_of_mem_filter hu') hname
  calc a.types.map TypeCode.name
      = (t'.walk settings.siblingOrder).filter (· ∈ t.names) := by rw [hwalk, hfilter]
    _ = (a'.types.map TypeCode.name).filter (· ∈ m.names) := by
        simp only [hwalk', hnames]
    _ = (a'.types.filter fun t => t.name ∈ m.names).map TypeCode.name := List.filter_map

/-- Whether a model is accepted is not a matter of the settings. -/
theorem exists_ofValue_of_settings {entries : Entries}
    (h : (ofValue settings (.object entries)).result = .ok a) (settings' : Settings) :
    ∃ a', (ofValue settings' (.object entries)).result = .ok a' := by
  have hends := ofValue_ends settings entries
  have hends' := ofValue_ends settings' entries
  rw [h] at hends
  cases hends with
  | accepted hread hchains =>
      generalize (ofValue settings' (.object entries)).result = result at hends' ⊢
      cases hends' with
      | invalidDefinition hrejected => exact absurd hrejected hread
      | brokenChain _ _ hbroken => exact absurd hbroken hchains
      | accepted _ _ => exact ⟨_, rfl⟩

/-! ## Definitions in another order -/

theorem ofModel_of_ofValue {value : Value} (hread : (Model.read value).result = .ok m)
    (h : (ofValue settings value).result = .ok a) : (ofModel settings m).result = .ok a :=
  (Traced.bind_ok hread _).symm.trans h

theorem ofValue_perm_ok (horder : settings.siblingOrder = .name) {entries entries' : Entries}
    (hkeys : (Table.keys entries).Nodup) (hperm : entries.Perm entries')
    (h : (ofValue settings (.object entries)).result = .ok a) :
    (ofValue settings (.object entries')).result = .ok a := by
  obtain ⟨_, m, hvalue, hread, hdefs, hm, hcomplete⟩ := ofValue_eq_ok h
  obtain rfl := Value.object.inj hvalue
  obtain ⟨m', hdefs', hwithin, hwithin'⟩ := exists_readDefinitions_perm hkeys hperm hdefs
  have hm' : m'.WellFormed := ⟨shaped_of_readDefinitions hdefs',
    fun henum => hm.inherits (hwithin'.extendsEnumeration henum)⟩
  have hbuild : (ofValue settings (.object entries')).result = (ofModel settings m').result :=
    Traced.bind_ok (read_of_readDefinitions hdefs' hm') _
  rw [hbuild]
  obtain ⟨a', hok, hcomplete'⟩ := ofModel_of_lineages settings hm' fun name hname =>
    (hcomplete.lineages name (hwithin'.mem_names hname)).imp fun _ => hwithin.lineage
  have hfilter := types_eq_filter hm hm' hwithin (by simp [horder])
    (ofModel_of_ofValue hread h) hcomplete hok hcomplete'
  have hall : ∀ t ∈ a'.types, decide (t.name ∈ m.names) = true := by
    intro t ht
    rw [decide_eq_true_eq]
    exact hwithin'.mem_names (hcomplete'.covers.mem_iff.mp (List.mem_map_of_mem ht))
  rw [List.filter_eq_self.mpr hall] at hfilter
  rw [hok, hcomplete.document, hcomplete'.document, hfilter]

/-- In the order of names, the order of the definitions in a model does not matter: it is accepted
in any order or in none, and has the same artifacts in all of them. -/
theorem ofValue_perm (horder : settings.siblingOrder = .name) {entries entries' : Entries}
    (hkeys : (Table.keys entries).Nodup) (hperm : entries.Perm entries') (a : Artifacts) :
    (ofValue settings (.object entries)).result = .ok a
      ↔ (ofValue settings (.object entries')).result = .ok a := by
  have hkeys' : (Table.keys entries').Nodup := (hperm.map Prod.fst).nodup_iff.mp hkeys
  exact ⟨ofValue_perm_ok horder hkeys hperm, ofValue_perm_ok horder hkeys' hperm.symm⟩

/-- The definitions of a club, the common one last. -/
def club : Entries := [
  ("Guest", .object [("extends", .text "Member")]),
  ("Board", .object [("extends", .text "Member"),
    ("fields", .object [("office", .text "Office")])]),
  ("Member", .object [("fields", .object [("name", .text "string")])])]

def byName : Settings := { siblingOrder := .name }

theorem club_reversed : byName.siblingOrder = .name ∧ (Table.keys club).Nodup
    ∧ club.Perm club.reverse
    ∧ ∃ a, (ofValue byName (.object club)).result = .ok a
      ∧ (ofValue byName (.object club.reverse)).result = .ok a := by
  obtain ⟨a, ha⟩ := @exists_ofValue_of_settings {} _ club rfl byName
  have hperm : club.Perm club.reverse := (List.reverse_perm club).symm
  exact ⟨rfl, by decide, hperm, a, ha, (ofValue_perm rfl (by decide) hperm a).mp ha⟩

/-! ## Definitions behind those of a model -/

/-- Definitions that are added behind those of a model leave its types as they are: each keeps its
code in the three targets, and they keep their order. -/
theorem ofValue_append {old new : Entries}
    (hdisjoint : ∀ key ∈ Table.keys old, key ∉ Table.keys new)
    (ha : (ofValue settings (.object old)).result = .ok a)
    (hb : (ofValue settings (.object (old ++ new))).result = .ok b) :
    a.types = (b.types.filter fun t => t.name ∈ Table.keys old)
      ∧ (a.types.map TypeCode.name).Sublist (b.types.map TypeCode.name) := by
  obtain ⟨_, m, hvalue, hread, hdefs, hm, hcomplete⟩ := ofValue_eq_ok ha
  obtain ⟨_, m', hvalue', hread', hdefs', hm', hcomplete'⟩ := ofValue_eq_ok hb
  obtain rfl := Value.object.inj hvalue
  obtain rfl := Value.object.inj hvalue'
  obtain ⟨hwithin, hfront⟩ := readDefinitions_append hdefs hdefs' hdisjoint
  have hfilter := types_eq_filter hm hm' hwithin (fun _ => hfront)
    (ofModel_of_ofValue hread ha) hcomplete (ofModel_of_ofValue hread' hb) hcomplete'
  simp only [mem_names_of_readDefinitions hdefs] at hfilter
  refine ⟨hfilter, ?_⟩
  rw [hfilter]
  exact List.filter_sublist.map _

/-- More definitions for the club: one below a guest, and one that a field of the board names. -/
def clubAdditions : Entries := [
  ("Envoy", .object [("extends", .text "Guest"), ("meta", .object [("dbBase", .bool true)])]),
  ("Office", .object [("values", .list [.text "CHAIR", .text "CASHIER"])])]

theorem club_extended : (∀ key ∈ Table.keys club, key ∉ Table.keys clubAdditions)
    ∧ ∃ a b, (ofValue {} (.object club)).result = .ok a
      ∧ (ofValue {} (.object (club ++ clubAdditions))).result = .ok b
      ∧ a.types = (b.types.filter fun t => t.name ∈ Table.keys club)
      ∧ (a.types.map TypeCode.name).Sublist (b.types.map TypeCode.name) := by
  have hdisjoint : ∀ key ∈ Table.keys club, key ∉ Table.keys clubAdditions := by decide
  obtain ⟨a, ha⟩ : ∃ a, (ofValue {} (.object club)).result = .ok a := ⟨_, rfl⟩
  obtain ⟨b, hb⟩ : ∃ b, (ofValue {} (.object (club ++ clubAdditions))).result = .ok b := ⟨_, rfl⟩
  exact ⟨hdisjoint, a, b, ha, hb, ofValue_append hdisjoint ha hb⟩

end Artifacts

end SchemaGen
