import SchemaGen.Proofs.Discovery
import SchemaGen.Proofs.Stability

/-!
# Models side by side

Two models without a common type can be listed one behind the other. Types of
one may be named by fields of the other, but no chain of parents leads across,
since each model is accepted on its own.

A build threads one tree and one registry through both. The tree that the
second model finds is not empty, yet it grows as it would from the start
(`foldlM_insert_beside`), and the walk goes through the two parts in turn
(`Grown.walk_beside`). The registry needs no such argument: the code of a type
is settled by its own chain, which lies in one of the two models
(`Complete.code_eq`).

`ofValue_beside` puts this together, for the order of discovery. In the order
of names, the roots of the two models would be shuffled.
-/

namespace SchemaGen

open SchemaGen.Model
open SchemaGen.Json (Value Entries)

namespace Hierarchy

variable {m : Model} {s t : Hierarchy}

/-- No type of one tree has a child in the other, so the walk goes through them in turn. -/
theorem Grown.walk_beside (ht : Grown m t) (hs : Grown m s)
    (hapart : ∀ name ∈ s.names, name ∉ t.names) :
    (t.beside s).walk .discovery = t.walk .discovery ++ s.walk .discovery := by
  have hchildless {t s : Hierarchy} (hs : Grown m s) (hapart : ∀ name ∈ s.names, name ∉ t.names)
      {name : String} (hname : name ∈ t.names) : s.children (some name) = [] := by
    refine List.eq_nil_iff_forall_not_mem.mpr fun child hchild => ?_
    obtain ⟨hmem, hext⟩ := hs.mem_children.mp hchild
    exact hapart name (hs.parent_mem hmem hext) hname
  obtain ⟨hfront, hfrontPerm⟩ := ht.walk_spec .discovery
  obtain ⟨hback, hbackPerm⟩ := hs.walk_spec .discovery
  refine ((ht.beside hs hapart).walk_spec .discovery).1.unique ?_
  show Preorder _ ((t.beside s).children none) _
  rw [children_beside]
  refine Preorder.append_iff.mpr ⟨_, _, rfl, hfront.congr fun name hname => ?_,
    hback.congr fun name hname => ?_⟩
  · have hnone := hchildless hs hapart (hfrontPerm.mem_iff.mp hname)
    show (t.beside s).children (some name) = t.children (some name)
    rw [children_beside, hnone, List.append_nil]
  · have hnone := hchildless ht (fun y hy hys => hapart y hys hy) (hbackPerm.mem_iff.mp hname)
    show (t.beside s).children (some name) = s.children (some name)
    rw [children_beside, hnone, List.nil_append]

end Hierarchy

namespace Model

variable {front back whole : Model} {old new : Entries} {name : String}

/-! ## Listing one model behind another -/

/-- `whole` lists the types of `front`, and behind them those of `back`. -/
def Lists (whole front back : Model) : Prop := whole.table = front.table ++ back.table

namespace Lists

theorem names_eq (h : whole.Lists front back) : whole.names = front.names ++ back.names := by
  rw [names, h, Table.keys_append]
  rfl

theorem apart (h : whole.Lists front back) : ∀ name ∈ back.names, name ∉ front.names := by
  have hdistinct : whole.names.Nodup := whole.distinct
  rw [h.names_eq] at hdistinct
  exact fun name hback hfront => (List.nodup_append.mp hdistinct).2.2 name hfront name hback rfl

theorem front_within (h : whole.Lists front back) : front.Within whole := by
  intro name d hget
  have hname : name ∉ back.names := fun hback => h.apart name hback (mem_names_of_get? hget)
  rw [get?, h, Table.get?_append_left hname]
  exact hget

theorem back_within (h : whole.Lists front back) : back.Within whole := by
  intro name d hget
  rw [get?, h, Table.get?_append_of_not_mem (h.apart name (mem_names_of_get? hget))]
  exact hget

/-- A chain of parents that is healthy in its own model is so in both. -/
theorem lineages (h : whole.Lists front back)
    (hfront : ∀ name ∈ front.names, ∃ above, front.Lineage name above)
    (hback : ∀ name ∈ back.names, ∃ above, back.Lineage name above) :
    ∀ name ∈ whole.names, ∃ above, whole.Lineage name above := by
  intro name hname
  rw [h.names_eq, List.mem_append] at hname
  rcases hname with hname | hname
  · exact (hfront name hname).imp fun _ hchain => h.front_within.lineage hchain
  · exact (hback name hname).imp fun _ hchain => h.back_within.lineage hchain

end Lists

/-- A record of a model whose chains are healthy extends an enumeration in a larger model only if
it does so in its own. -/
theorem Within.extendsEnumeration_of_mem {m m' : Model} (h : m.Within m')
    (hhealthy : ∀ name ∈ m.names, ∃ above, m.Lineage name above) {child parent : String}
    {e : Enumeration} (hchild : child ∈ m.names) (hext : m'.Extends child parent)
    (hparent : m'.get? parent = some (.enumeration e)) : m.ExtendsEnumeration := by
  have hext := (h.extends_iff hchild).mp hext
  obtain ⟨above, hchain⟩ := hhealthy child hchild
  have hmem : parent ∈ m.names :=
    hchain.mem_names_of_mem (hchain.mem_iff.mpr (Relation.TransGen.single hext))
  exact ⟨child, parent, e, hext, (h.get?_eq hmem).symm.trans hparent⟩

theorem Lists.not_extendsEnumeration (h : whole.Lists front back)
    (hfront : ∀ name ∈ front.names, ∃ above, front.Lineage name above)
    (hback : ∀ name ∈ back.names, ∃ above, back.Lineage name above)
    (hfrontInherits : ¬front.ExtendsEnumeration) (hbackInherits : ¬back.ExtendsEnumeration) :
    ¬whole.ExtendsEnumeration := by
  rintro ⟨child, parent, e, hext, hparent⟩
  have hchild := hext.mem_names
  rw [h.names_eq, List.mem_append] at hchild
  rcases hchild with hchild | hchild
  · exact hfrontInherits (h.front_within.extendsEnumeration_of_mem hfront hchild hext hparent)
  · exact hbackInherits (h.back_within.extendsEnumeration_of_mem hback hchild hext hparent)

/-! ## Reading -/

/-- Entries for new keys are read as they would be from the start. -/
theorem foldlM_read_beside {m s after : Model} {table : Table Definition}
    (hm : m.table = table ++ s.table) (hapart : ∀ key ∈ Table.keys new, key ∉ Table.keys table)
    (h : new.foldlM (fun m e => return m.set e.1 (← Definition.read e.1 e.2)) s = .ok after) :
    ∃ m', new.foldlM (fun m e => return m.set e.1 (← Definition.read e.1 e.2)) m = .ok m'
      ∧ m'.table = table ++ after.table := by
  induction new generalizing m s with
  | nil =>
      obtain rfl := Except.ok.inj h
      exact ⟨m, rfl, hm⟩
  | cons entry new ih =>
      obtain ⟨hkey, hkeys⟩ := List.forall_mem_cons.mp hapart
      rw [List.foldlM_cons] at h ⊢
      obtain ⟨next, hnext, hrest⟩ := bind_eq_ok h
      obtain ⟨d, hd, hset⟩ := bind_eq_ok hnext
      obtain rfl := Except.ok.inj hset
      have hfirst : (m.set entry.1 d).table = table ++ (s.set entry.1 d).table := by
        show Table.set m.table entry.1 d = table ++ Table.set s.table entry.1 d
        rw [hm, Table.set_append_of_not_mem hkey]
      rw [hd]
      exact ih hfirst hkeys hrest

theorem readDefinitions_lists (hfront : readDefinitions old = .ok front)
    (hback : readDefinitions new = .ok back)
    (hapart : ∀ key ∈ Table.keys old, key ∉ Table.keys new) :
    ∃ whole, readDefinitions (old ++ new) = .ok whole ∧ whole.Lists front back := by
  have hkeys : ∀ key ∈ Table.keys new, key ∉ Table.keys front.table := fun key hnew hold =>
    hapart key ((mem_names_of_readDefinitions hfront).mp hold) hnew
  obtain ⟨whole, hwhole, htable⟩ :=
    foldlM_read_beside (m := front) (List.append_nil _).symm hkeys hback
  refine ⟨whole, ?_, htable⟩
  rw [readDefinitions, List.foldlM_append]
  rw [readDefinitions] at hfront
  rw [hfront]
  exact hwhole

end Model

namespace Hierarchy

variable {front back whole : Model} {s t u : Hierarchy}

/-- The tree of both models is the tree of the first with that of the second behind it. -/
theorem ofModel_lists (h : whole.Lists front back) (ht : (ofModel front).result = .ok t)
    (hs : (ofModel back).result = .ok s) : (ofModel whole).result = .ok (t.beside s) := by
  obtain ⟨hgrown, hnames, -⟩ := ofModel_complete ht
  have hapart : ∀ name ∈ back.names, name ∉ t.names := fun name hback hmem =>
    h.apart name hback ((hnames name).mp hmem)
  have hrest := foldlM_insert_beside (hgrown.within h.front_within) .empty h.back_within hapart hs
  rw [beside_empty] at hrest
  rw [ofModel, h.names_eq, List.foldlM_append,
    Traced.bind_ok (foldlM_insert_within h.front_within ht)]
  exact hrest

theorem walk_lists (h : whole.Lists front back) (ht : (ofModel front).result = .ok t)
    (hs : (ofModel back).result = .ok s) (hu : (ofModel whole).result = .ok u) :
    u.walk .discovery = t.walk .discovery ++ s.walk .discovery := by
  obtain ⟨htgrown, htnames, -⟩ := ofModel_complete ht
  obtain ⟨hsgrown, hsnames, -⟩ := ofModel_complete hs
  obtain rfl := Except.ok.inj (hu.symm.trans (ofModel_lists h ht hs))
  refine (htgrown.within h.front_within).walk_beside (hsgrown.within h.back_within) ?_
  exact fun name hmem hmem' =>
    h.apart name ((hsnames name).mp hmem) ((htnames name).mp hmem')

end Hierarchy

namespace Artifacts

variable {settings : Settings} {old new : Entries} {a b : Artifacts}

/-- In the order of discovery, definitions listed behind those of another model, with which they
have no type in common, are built as if they stood alone: what comes out for both models is what
comes out for the first, followed by what comes out for the second. -/
theorem ofValue_beside (horder : settings.siblingOrder = .discovery)
    (hapart : ∀ key ∈ Table.keys old, key ∉ Table.keys new)
    (ha : (ofValue settings (.object old)).result = .ok a)
    (hb : (ofValue settings (.object new)).result = .ok b) :
    (ofValue settings (.object (old ++ new))).result
      = .ok (ofTypes settings (a.types ++ b.types)) := by
  obtain ⟨_, front, hvalue, hread, hdefs, hm, hcomplete⟩ := ofValue_eq_ok ha
  obtain ⟨_, back, hvalue', hread', hdefs', hm', hcomplete'⟩ := ofValue_eq_ok hb
  obtain rfl := Value.object.inj hvalue
  obtain rfl := Value.object.inj hvalue'
  obtain ⟨whole, hwhole, hlists⟩ := readDefinitions_lists hdefs hdefs' hapart
  have hwf : whole.WellFormed := ⟨shaped_of_readDefinitions hwhole,
    hlists.not_extendsEnumeration hcomplete.lineages hcomplete'.lineages hm.inherits hm'.inherits⟩
  have hbuild : (ofValue settings (.object (old ++ new))).result
      = (ofModel settings whole).result := Traced.bind_ok (read_of_readDefinitions hwhole hwf) _
  obtain ⟨c, hc, hall⟩ := ofModel_of_lineages settings hwf
    (hlists.lineages hcomplete.lineages hcomplete'.lineages)
  -- the types come in the order of the walk, and each has its code from one of the two models
  obtain ⟨t, ht, -, -, hwalk⟩ := ofModel_walk (ofModel_of_ofValue hread ha)
  obtain ⟨s, hs, -, -, hwalk'⟩ := ofModel_walk (ofModel_of_ofValue hread' hb)
  obtain ⟨u, hu, -, -, hwalks⟩ := ofModel_walk hc
  rw [horder] at hwalk hwalk' hwalks
  have hnames : (a.types ++ b.types).map TypeCode.name = c.types.map TypeCode.name := by
    rw [List.map_append, hwalk, hwalk', hwalks, Hierarchy.walk_lists hlists ht hs hu]
  have htypes : a.types ++ b.types = c.types := by
    refine eq_of_names_eq hnames fun t ht t' ht' hname => ?_
    rcases List.mem_append.mp ht with ht | ht
    · exact hcomplete.code_eq hm hall hwf hlists.front_within ht ht' hname
    · exact hcomplete'.code_eq hm' hall hwf hlists.back_within ht ht' hname
  rw [hbuild, hc, htypes, ← hall.document]

/-- The definitions of a library. -/
def shelves : Entries := [
  ("Book", .object [("extends", .text "Item"),
    ("fields", .object [("lentBy", .text "Clerk")])]),
  ("Item", .object [("fields", .object [("title", .text "string")])])]

/-- The definitions of those who work there, apart from the library but for the fields. -/
def clerks : Entries := [
  ("Clerk", .object [("extends", .text "Person"),
    ("fields", .object [("reads",
      .object [("type", .text "array"), ("arrayType", .text "Book")])])]),
  ("Person", .object [("meta", .object [("dbBase", .bool true)]),
    ("fields", .object [("name", .text "string")])])]

theorem shelves_beside_clerks : ({} : Settings).siblingOrder = .discovery
    ∧ (∀ key ∈ Table.keys shelves, key ∉ Table.keys clerks)
    ∧ ∃ a b, (ofValue {} (.object shelves)).result = .ok a
      ∧ (ofValue {} (.object clerks)).result = .ok b
      ∧ (ofValue {} (.object (shelves ++ clerks))).result
        = .ok (ofTypes {} (a.types ++ b.types)) := by
  have hapart : ∀ key ∈ Table.keys shelves, key ∉ Table.keys clerks := by decide
  obtain ⟨a, ha⟩ : ∃ a, (ofValue {} (.object shelves)).result = .ok a := ⟨_, rfl⟩
  obtain ⟨b, hb⟩ : ∃ b, (ofValue {} (.object clerks)).result = .ok b := ⟨_, rfl⟩
  exact ⟨rfl, hapart, a, b, ha, hb, ofValue_beside rfl hapart ha hb⟩

end Artifacts

end SchemaGen
