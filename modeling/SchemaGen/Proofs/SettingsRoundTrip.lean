import SchemaGen.Proofs.Tables
import SchemaGen.Settings

/-!
# Settings that are read and written

Settings are read entry by entry, each one changing what the ones before it
have left. Their result can be told without going through them: each setting
has the value that is given for it, and its default where none is given, in
the sections as well (`completed`). `assign_ends` is the step. It says what
one entry does to the values under all keys, and the induction over the
entries needs no more of it (`foldlM_assign_ends`).

So an object is refused only for a choice that is not known, and otherwise
settings are determined by `completed`. They are written as this object
(`write_of_proper`), which is shaped like any other, makes no unknown choice
and has nothing to fill in. This is the way back (`read_entries`). The order
of keys and the keys that mean nothing are lost in `completed`, and it makes
the same unknown choices, so that objects that differ in wording only are
read alike (`read_of_reworded`).

Nothing is asked of the values but what an object from a JSON text has, and
that the sections are objects and the header lines a list.
-/

namespace SchemaGen

open SchemaGen.Json (Value Entries)

/-- Defaults, with the values that are given in their stead. -/
def Table.over {α : Type} (defaults given : Table α) : Table α :=
  mapValues (fun key default => (get? given key).getD default) defaults

/-- A section as it is written. -/
def Section.value {α : Type} (write : α → Entries) : Section α → Value
  | .proper group => .object (write group)
  | .improper value => value

theorem SiblingOrder.word_injective {order other : SiblingOrder} (h : order.word = other.word) :
    order = other := by
  cases order <;> cases other <;> first | rfl | exact absurd h (by decide)

theorem OutputMode.word_injective {mode other : OutputMode} (h : mode.word = other.word) :
    mode = other := by
  cases mode <;> cases other <;> first | rfl | exact absurd h (by decide)

theorem FormatterSettings.write_injective {s t : FormatterSettings} (h : s.write = t.write) :
    s = t := by
  cases s
  cases t
  simp only [write, List.cons.injEq, Prod.mk.injEq, true_and, and_true] at h
  obtain ⟨rfl, rfl, rfl⟩ := h
  rfl

theorem OutputSettings.write_injective {s t : OutputSettings} (h : s.write = t.write) :
    s = t := by
  cases s
  cases t
  simp only [write, List.cons.injEq, Prod.mk.injEq, true_and, and_true, Value.text.injEq] at h
  obtain ⟨hmode, rfl⟩ := h
  obtain rfl := OutputMode.word_injective hmode
  rfl

theorem FormatterSettings.nodup_keys_write (s : FormatterSettings) :
    (Table.keys s.write).Nodup := by
  have hkeys : ["enabled", "print_width", "parser"].Nodup := by decide
  exact hkeys

theorem OutputSettings.nodup_keys_write (s : OutputSettings) : (Table.keys s.write).Nodup := by
  have hkeys : ["mode", "atomic_write"].Nodup := by decide
  exact hkeys

namespace Settings

variable {s t : Settings} {d d' : Entries} {e : String × Value}

/-! ## Settings as entries -/

/-- Settings as they are written, under their keys. -/
def entries (s : Settings) : Entries := [
  ("add_generation_comment", s.addGenerationComment),
  ("header_lines", s.headerLines),
  ("sibling_order", .text s.siblingOrder.word),
  ("orm_suffix", s.ormSuffix),
  ("sdl_export_name", s.sdlExportName),
  ("graphql_any_scalar", s.graphqlAnyScalar),
  ("mongoose_enforce_required", s.mongooseEnforceRequired),
  ("formatter", s.formatter.value FormatterSettings.write),
  ("output", s.output.value OutputSettings.write)]

/-- The default settings, under their keys. -/
def defaults : Entries := ({} : Settings).entries

/-- What a setting becomes by a value: a section is completed with its defaults. -/
def fill (default value : Value) : Value :=
  match default, value with
  | .object inner, .object given => .object (Table.over inner given)
  | _, value => value

/-- What is given, and the defaults of what is not. -/
def completed (d : Entries) : Entries :=
  Table.mapValues (fun key default => ((Table.get? d key).map (fill default)).getD default) defaults

/-- Settings with sections, and with header lines that are a list. -/
structure Proper (s : Settings) : Prop where
  headerLines : ∃ items, s.headerLines = .list items
  formatter : ∃ group, s.formatter = .proper group
  output : ∃ group, s.output = .proper group

theorem write_of_proper (h : s.Proper) : s.write = .ok (.object s.entries) := by
  obtain ⟨⟨items, hitems⟩, ⟨formatter, hformatter⟩, ⟨output, houtput⟩⟩ := h
  rw [write, headerParts, entries, hitems, hformatter, houtput]
  rfl

theorem eq_of_entries (hs : s.Proper) (ht : t.Proper) (h : s.entries = t.entries) : s = t := by
  obtain ⟨-, ⟨formatter, hformatter⟩, ⟨output, houtput⟩⟩ := hs
  obtain ⟨-, ⟨formatter', hformatter'⟩, ⟨output', houtput'⟩⟩ := ht
  obtain ⟨_, _, order, _, _, _, _, _, _⟩ := s
  obtain ⟨_, _, order', _, _, _, _, _, _⟩ := t
  subst hformatter houtput hformatter' houtput'
  simp only [entries, List.cons.injEq, Prod.mk.injEq, true_and, and_true, Value.text.injEq] at h
  obtain ⟨rfl, rfl, horder, rfl, rfl, rfl, rfl, hformatter, houtput⟩ := h
  obtain rfl := SiblingOrder.word_injective horder
  obtain rfl := FormatterSettings.write_injective (Value.object.inj hformatter)
  obtain rfl := OutputSettings.write_injective (Value.object.inj houtput)
  rfl

/-! ## One entry -/

/-- An entry for a choice that is not known. -/
inductive UnknownChoice : String × Value → Prop
  | siblingOrder {value : Value} : value ∉ [.text "discovery", .text "name"] →
      UnknownChoice ("sibling_order", value)
  | mode {group : Entries} {value : Value} : ("mode", value) ∈ group →
      value ∉ [.text "error", .text "force"] → UnknownChoice ("output", .object group)

theorem known_of_key {key : String} {value : Value} (h : key ≠ "sibling_order")
    (h' : key ≠ "output") : ¬UnknownChoice (key, value) := by
  generalize he : (key, value) = e
  rintro (_ | _)
  · exact h (congrArg Prod.fst he)
  · exact h' (congrArg Prod.fst he)

theorem unknownChoice_siblingOrder_iff {value : Value} :
    UnknownChoice ("sibling_order", value) ↔ value ∉ [.text "discovery", .text "name"] := by
  refine ⟨?_, .siblingOrder⟩
  generalize he : ("sibling_order", value) = e
  rintro (hvalue | _)
  · rwa [(Prod.mk.inj he).2]
  · exact absurd (Prod.mk.inj he).1 (by decide)

theorem unknownChoice_output_iff {group : Entries} :
    UnknownChoice ("output", .object group)
      ↔ ∃ value, ("mode", value) ∈ group ∧ value ∉ [.text "error", .text "force"] := by
  refine ⟨?_, fun ⟨_, hmode, hvalue⟩ => .mode hmode hvalue⟩
  generalize he : ("output", Value.object group) = e
  rintro (_ | ⟨hmode, hvalue⟩)
  · exact absurd (Prod.mk.inj he).1 (by decide)
  · obtain rfl := Value.object.inj (Prod.mk.inj he).2
    exact ⟨_, hmode, hvalue⟩

/-- An entry has the shape that is expected for its key, if there is one. -/
structure ShapedEntry (e : String × Value) : Prop where
  headerLines : e.1 = "header_lines" → ∃ items, e.2 = .list items
  formatter : e.1 = "formatter" → ∃ group : Entries, e.2 = .object group ∧ (Table.keys group).Nodup
  output : e.1 = "output" → ∃ group : Entries, e.2 = .object group ∧ (Table.keys group).Nodup

/-- The ways in which settings come out of entries: refused for an unknown choice, or with a value
under each key. -/
inductive Ends (unknown : Prop) (under : String → Option Value) : Except Fault Settings → Prop
  | refused {value : Value} {setting : String} : unknown →
      Ends unknown under (.error (.noChoice value setting))
  | taken {s : Settings} : ¬unknown → s.Proper → (∀ key, Table.get? s.entries key = under key) →
      Ends unknown under (.ok s)

/-- What is under each key after an entry. -/
def underAfter (s : Settings) (e : String × Value) (key : String) : Option Value :=
  if e.1 = key then (Table.get? defaults key).map (fill · e.2) else Table.get? s.entries key

theorem Ends.set {unknown : Prop} {key : String} {value filled : Value} (hknown : ¬unknown)
    (hproper : t.Proper) (hset : t.entries = Table.set s.entries key filled)
    (hfill : (Table.get? defaults key).map (fill · value) = some filled) :
    Ends unknown (s.underAfter (key, value)) (.ok t) := by
  refine .taken hknown hproper fun other => ?_
  rw [hset, Table.get?_set, underAfter]
  split
  · rename_i heq
    rw [← heq, hfill]
  · rfl

theorem assign_of_not_mem {key : String} (h : key ∉ Table.keys defaults) (s : Settings)
    (value : Value) : s.assign key value = .ok s := by
  unfold assign
  split <;> simp_all [defaults, entries]

theorem siblingOrder_ofValue_cases (value : Value) :
    (∃ order : SiblingOrder, value = .text order.word ∧ SiblingOrder.ofValue value = .ok order)
      ∨ value ∉ [.text "discovery", .text "name"]
        ∧ SiblingOrder.ofValue value = .error (.noChoice value "SiblingOrder") := by
  by_cases hdiscovery : value = .text "discovery"
  · exact Or.inl ⟨.discovery, hdiscovery, by rw [hdiscovery]; rfl⟩
  by_cases hname : value = .text "name"
  · exact Or.inl ⟨.name, hname, by rw [hname]; rfl⟩
  · refine Or.inr ⟨by simp [hdiscovery, hname], ?_⟩
    simp [SiblingOrder.ofValue, SiblingOrder.all, SiblingOrder.word, hdiscovery, hname]

theorem outputMode_ofValue_cases (value : Value) :
    (∃ mode : OutputMode, value = .text mode.word ∧ OutputMode.ofValue value = .ok mode)
      ∨ value ∉ [.text "error", .text "force"]
        ∧ OutputMode.ofValue value = .error (.noChoice value "OutputMode") := by
  by_cases herror : value = .text "error"
  · exact Or.inl ⟨.error, herror, by rw [herror]; rfl⟩
  by_cases hforce : value = .text "force"
  · exact Or.inl ⟨.force, hforce, by rw [hforce]; rfl⟩
  · refine Or.inr ⟨by simp [herror, hforce], ?_⟩
    simp [OutputMode.ofValue, OutputMode.all, OutputMode.word, herror, hforce]

theorem assign_siblingOrder (hs : s.Proper) (value : Value) :
    Ends (UnknownChoice ("sibling_order", value)) (s.underAfter ("sibling_order", value))
      (s.assign "sibling_order" value) := by
  have hassign : s.assign "sibling_order" value
      = (SiblingOrder.ofValue value).bind fun order => .ok { s with siblingOrder := order } := rfl
  rw [hassign]
  rcases siblingOrder_ofValue_cases value with ⟨order, rfl, heq⟩ | ⟨hunknown, heq⟩
  · rw [heq]
    refine .set ?_ ⟨hs.headerLines, hs.formatter, hs.output⟩ rfl rfl
    rw [unknownChoice_siblingOrder_iff]
    cases order <;> decide
  · rw [heq]
    exact .refused (.siblingOrder hunknown)

/-- The output settings are refused if their mode is not known. -/
theorem outputSettings_read_cases (group : Entries) :
    (∃ output, OutputSettings.read group = .ok output
        ∧ output.write = Table.over ({} : OutputSettings).write group
        ∧ ∀ value ∈ Table.get? group "mode", value ∈ [.text "error", .text "force"])
      ∨ ∃ value ∈ Table.get? group "mode", value ∉ [.text "error", .text "force"]
        ∧ OutputSettings.read group = .error (.noChoice value "OutputMode") := by
  rw [OutputSettings.read]
  cases hmode : Table.get? group "mode" with
  | none =>
      refine Or.inl ⟨_, rfl, ?_, by simp⟩
      simp [OutputSettings.write, Table.over, Table.mapValues, hmode]
  | some value =>
      rcases outputMode_ofValue_cases value with ⟨mode, rfl, heq⟩ | ⟨hunknown, heq⟩
      · refine Or.inl
          ⟨{ mode, atomicWrite := (Table.get? group "atomic_write").getD (.bool true) }, ?_, ?_, ?_⟩
        · simp only [heq]
          rfl
        · simp [OutputSettings.write, Table.over, Table.mapValues, hmode]
        · cases mode <;> simp [OutputMode.word]
      · refine Or.inr ⟨value, rfl, hunknown, ?_⟩
        simp only [heq]
        rfl

theorem assign_output (hs : s.Proper) {group : Entries} (h : (Table.keys group).Nodup) :
    Ends (UnknownChoice ("output", .object group)) (s.underAfter ("output", .object group))
      (s.assign "output" (.object group)) := by
  have hassign : s.assign "output" (.object group)
      = (OutputSettings.read group).bind fun output => .ok { s with output := .proper output } :=
    rfl
  rw [hassign]
  rcases outputSettings_read_cases group with
    ⟨output, hread, hwrite, hknown⟩ | ⟨value, hmode, hunknown, hread⟩
  · have hfill : (Table.get? defaults "output").map (fill · (.object group))
        = some (.object output.write) := by
      rw [hwrite]
      rfl
    rw [hread]
    refine .set ?_ ⟨hs.headerLines, hs.formatter, ⟨_, rfl⟩⟩ rfl hfill
    rw [unknownChoice_output_iff]
    rintro ⟨value, hmem, hvalue⟩
    exact hvalue (hknown value (Table.get?_of_mem h hmem))
  · rw [hread]
    exact .refused (.mode (Table.mem_of_get? hmode) hunknown)

/-- One entry is refused if it makes an unknown choice, and otherwise it changes the value under
its own key, if the key is known, and nothing else. -/
theorem assign_ends (hs : s.Proper) (he : ShapedEntry e) :
    Ends (UnknownChoice e) (s.underAfter e) (s.assign e.1 e.2) := by
  obtain ⟨key, value⟩ := e
  by_cases hkey : key ∈ Table.keys defaults
  · simp only [defaults, entries, Table.keys_cons, Table.keys_nil, List.mem_cons,
      List.not_mem_nil, or_false] at hkey
    rcases hkey with rfl | rfl | rfl | rfl | rfl | rfl | rfl | rfl | rfl
    -- five settings are taken as they are, and four have something of their own
    all_goals try
      exact .set (known_of_key (by decide) (by decide))
        ⟨hs.headerLines, hs.formatter, hs.output⟩ rfl rfl
    · obtain ⟨items, rfl⟩ := he.headerLines rfl
      exact .set (known_of_key (by decide) (by decide))
        ⟨⟨items, rfl⟩, hs.formatter, hs.output⟩ rfl rfl
    · exact assign_siblingOrder hs value
    · obtain ⟨group, rfl, -⟩ := he.formatter rfl
      exact .set (known_of_key (by decide) (by decide))
        ⟨hs.headerLines, ⟨_, rfl⟩, hs.output⟩ rfl rfl
    · obtain ⟨group, rfl, hnodup⟩ := he.output rfl
      exact assign_output hs hnodup
  · rw [assign_of_not_mem hkey]
    refine .taken (known_of_key ?_ ?_) hs fun other => ?_
    · rintro rfl
      exact hkey (by decide)
    · rintro rfl
      exact hkey (by decide)
    · rw [underAfter]
      split
      · rename_i heq
        subst heq
        rw [Table.get?_eq_none.mpr hkey, Option.map_none]
        exact Table.get?_eq_none.mpr hkey
      · rfl

/-! ## All entries -/

/-- What is under each key after some entries. -/
def underAll (s : Settings) (d : Entries) (key : String) : Option Value :=
  match Table.get? d key with
  | some value => (Table.get? defaults key).map (fill · value)
  | none => Table.get? s.entries key

theorem foldlM_assign_ends (hs : s.Proper) (hkeys : (Table.keys d).Nodup)
    (hd : ∀ e ∈ d, ShapedEntry e) :
    Ends (∃ e ∈ d, UnknownChoice e) (s.underAll d) (d.foldlM (fun s e => s.assign e.1 e.2) s) := by
  induction d generalizing s with
  | nil => exact .taken (by simp) hs fun _ => rfl
  | cons e d ih =>
      obtain ⟨hfresh, hkeys⟩ := List.nodup_cons.mp hkeys
      have hstep := assign_ends hs (hd e (List.mem_cons_self ..))
      rw [List.foldlM_cons]
      generalize s.assign e.1 e.2 = result at hstep ⊢
      cases hstep with
      | refused hunknown => exact .refused ⟨e, List.mem_cons_self .., hunknown⟩
      | @taken t hknown ht hunder =>
          have hrest := ih ht hkeys fun e' he' => hd e' (List.mem_cons_of_mem _ he')
          have hunknown : (∃ e' ∈ e :: d, UnknownChoice e') ↔ ∃ e' ∈ d, UnknownChoice e' := by
            simp [hknown]
          -- nothing in `d` has the key of `e`, so what `e` has set is there to the end
          have hunderAll : s.underAll (e :: d) = t.underAll d := by
            funext key
            rw [underAll, underAll, Table.get?, hunder, underAfter]
            by_cases hkey : e.1 = key
            · rw [if_pos hkey, if_pos hkey, ← hkey, Table.get?_eq_none.mpr hfresh]
            · rw [if_neg hkey, if_neg hkey]
          rw [hunknown, hunderAll]
          exact hrest

/-- An object whose keys are distinct, with entries of the expected shape. -/
structure Shaped (d : Entries) : Prop where
  keys : (Table.keys d).Nodup
  entries : ∀ e ∈ d, ShapedEntry e

theorem read_ends (h : Shaped d) :
    Ends (∃ e ∈ d, UnknownChoice e) (Table.get? (completed d)) (read (.object d)) := by
  have hdefaults : Proper {} := ⟨⟨_, rfl⟩, ⟨_, rfl⟩, ⟨_, rfl⟩⟩
  have hunder : underAll {} d = Table.get? (completed d) := by
    funext key
    rw [underAll, completed, Table.get?_mapValues]
    cases Table.get? d key with
    | none => exact Option.map_id'.symm
    | some value => rfl
  rw [← hunder]
  exact foldlM_assign_ends hdefaults h.keys h.entries

/-! ## The way back -/

theorem nodup_keys_entries (s : Settings) : (Table.keys s.entries).Nodup := by
  have hkeys : (Table.keys defaults).Nodup := by decide
  exact hkeys

theorem keys_completed (d : Entries) : Table.keys (completed d) = Table.keys defaults :=
  Table.keys_mapValues ..

theorem entries_eq_completed (h : ∀ key, Table.get? s.entries key = Table.get? (completed d) key) :
    s.entries = completed d :=
  Table.eq_of_get? (nodup_keys_entries s) (keys_completed d).symm fun key _ => h key

theorem get?_entries_of_mem {key : String} {value : Value} (h : (key, value) ∈ s.entries) :
    Table.get? s.entries key = some value :=
  Table.get?_of_mem (nodup_keys_entries s) h

theorem shaped_entries (hs : s.Proper) : Shaped s.entries := by
  refine ⟨nodup_keys_entries s, fun ⟨key, value⟩ he => ⟨?_, ?_, ?_⟩⟩
  · rintro rfl
    obtain rfl : s.headerLines = value := Option.some.inj (get?_entries_of_mem he)
    exact hs.headerLines
  · rintro rfl
    obtain ⟨formatter, hformatter⟩ := hs.formatter
    obtain rfl : s.formatter.value FormatterSettings.write = value :=
      Option.some.inj (get?_entries_of_mem he)
    exact ⟨formatter.write, by rw [hformatter]; rfl, formatter.nodup_keys_write⟩
  · rintro rfl
    obtain ⟨output, houtput⟩ := hs.output
    obtain rfl : s.output.value OutputSettings.write = value :=
      Option.some.inj (get?_entries_of_mem he)
    exact ⟨output.write, by rw [houtput]; rfl, output.nodup_keys_write⟩

theorem known_entries (hs : s.Proper) : ¬∃ e ∈ s.entries, UnknownChoice e := by
  rintro ⟨e, he, hvalue | ⟨hmode, hvalue⟩⟩
  · obtain rfl := Option.some.inj (get?_entries_of_mem he)
    revert hvalue
    cases s.siblingOrder <;> decide
  · obtain ⟨output, houtput⟩ := hs.output
    have hgroup := Option.some.inj (get?_entries_of_mem he)
    rw [houtput] at hgroup
    obtain rfl := Value.object.inj hgroup
    obtain rfl := Option.some.inj (Table.get?_of_mem output.nodup_keys_write hmode)
    revert hvalue
    cases output.mode <;> decide

theorem completed_entries (hs : s.Proper) : completed s.entries = s.entries := by
  obtain ⟨-, ⟨formatter, hformatter⟩, ⟨output, houtput⟩⟩ := hs
  rw [entries, hformatter, houtput]
  rfl

/-! ## Reading -/

theorem read_of_unknown (h : Shaped d) (hunknown : ∃ e ∈ d, UnknownChoice e) :
    ∃ value setting, read (.object d) = .error (.noChoice value setting) := by
  have hends := read_ends h
  generalize read (.object d) = result at hends ⊢
  cases hends with
  | refused _ => exact ⟨_, _, rfl⟩
  | taken hknown => exact absurd hunknown hknown

theorem read_of_known (h : Shaped d) (hknown : ¬∃ e ∈ d, UnknownChoice e) :
    ∃ s, read (.object d) = .ok s ∧ s.Proper ∧ s.entries = completed d := by
  have hends := read_ends h
  generalize read (.object d) = result at hends ⊢
  cases hends with
  | refused hunknown => exact absurd hunknown hknown
  | @taken s _ hs hunder => exact ⟨s, rfl, hs, entries_eq_completed hunder⟩

theorem read_entries (hs : s.Proper) : read (.object s.entries) = .ok s := by
  obtain ⟨t, ht, hproper, hentries⟩ := read_of_known (shaped_entries hs) (known_entries hs)
  rw [ht, eq_of_entries hproper hs (hentries.trans (completed_entries hs))]

/-! ## Wording -/

/-- The entries under some keys are the same, in any order. -/
def SameUnder (names : List String) (d d' : Entries) : Prop :=
  (d.filter fun e => names.contains e.1).Perm (d'.filter fun e => names.contains e.1)

/-- Two entries are the same but for order and unknown keys in a section. -/
inductive SameSetting : String × Value → String × Value → Prop
  | same {e : String × Value} : SameSetting e e
  | formatter {group group' : Entries} :
      SameUnder (Table.keys ({} : FormatterSettings).write) group group' →
      SameSetting ("formatter", .object group) ("formatter", .object group')
  | output {group group' : Entries} :
      SameUnder (Table.keys ({} : OutputSettings).write) group group' →
      SameSetting ("output", .object group) ("output", .object group')

/-- Two objects are the same but for order and unknown keys, here and in the sections. -/
def Reworded (d d' : Entries) : Prop :=
  ∃ middle, SameUnder (Table.keys defaults) d middle ∧ List.Forall₂ SameSetting middle d'

theorem get?_of_sameUnder {names : List String} {key : String} (hd : (Table.keys d).Nodup)
    (h : SameUnder names d d') (hkey : key ∈ names) : Table.get? d key = Table.get? d' key := by
  have hcontains : names.contains key = true := List.contains_iff_mem.mpr hkey
  rw [← Table.get?_filter names.contains hcontains,
    Table.get?_eq_of_perm (Table.nodup_keys_filter hd _) h,
    Table.get?_filter names.contains hcontains]

theorem over_of_sameUnder {inner group group' : Entries}
    (h : SameUnder (Table.keys inner) group group') (hgroup : (Table.keys group').Nodup) :
    Table.over inner group = Table.over inner group' := by
  refine Table.mapValues_congr fun e he => ?_
  rw [get?_of_sameUnder hgroup h.symm (List.mem_map_of_mem he)]

theorem fill_of_sameSetting {e e' : String × Value} {default : Value} (h : SameSetting e e')
    (he : ShapedEntry e') (hdefault : Table.get? defaults e'.1 = some default) :
    fill default e.2 = fill default e'.2 := by
  cases h with
  | same => rfl
  | formatter hgroup =>
      obtain rfl := Option.some.inj hdefault
      obtain ⟨_, heq, hnodup⟩ := he.formatter rfl
      obtain rfl := Value.object.inj heq
      exact congrArg Value.object (over_of_sameUnder hgroup hnodup)
  | output hgroup =>
      obtain rfl := Option.some.inj hdefault
      obtain ⟨_, heq, hnodup⟩ := he.output rfl
      obtain rfl := Value.object.inj heq
      exact congrArg Value.object (over_of_sameUnder hgroup hnodup)

theorem SameSetting.key {e e' : String × Value} (h : SameSetting e e') : e.1 = e'.1 := by
  cases h <;> rfl

theorem map_fill_of_forall₂ {key : String} {default : Value} (h : List.Forall₂ SameSetting d d')
    (hd' : ∀ e ∈ d', ShapedEntry e) (hdefault : Table.get? defaults key = some default) :
    (Table.get? d key).map (fill default) = (Table.get? d' key).map (fill default) := by
  induction h with
  | nil => rfl
  | @cons e e' d d' he _ ih =>
      rw [Table.get?, Table.get?, he.key]
      by_cases hkey : e'.1 = key
      · rw [if_pos hkey, if_pos hkey, Option.map_some, Option.map_some,
          fill_of_sameSetting he (hd' e' (List.mem_cons_self ..)) (hkey ▸ hdefault)]
      · rw [if_neg hkey, if_neg hkey, ih fun e he => hd' e (List.mem_cons_of_mem _ he)]

theorem completed_eq_of_reworded (hd : (Table.keys d).Nodup) (hd' : Shaped d')
    (h : Reworded d d') : completed d = completed d' := by
  obtain ⟨middle, hsame, hsections⟩ := h
  refine Table.mapValues_congr fun e he => ?_
  rw [get?_of_sameUnder hd hsame (List.mem_map_of_mem he),
    map_fill_of_forall₂ hsections hd'.entries (get?_entries_of_mem he)]

theorem get?_completed {key : String} {value default : Value} (h : Shaped d)
    (hmem : (key, value) ∈ d) (hdefault : Table.get? defaults key = some default) :
    Table.get? (completed d) key = some (fill default value) := by
  rw [completed, Table.get?_mapValues, hdefault, Table.get?_of_mem h.keys hmem]
  rfl

theorem unknown_completed (h : Shaped d) (hunknown : ∃ e ∈ d, UnknownChoice e) :
    ∃ e ∈ completed d, UnknownChoice e := by
  obtain ⟨e, he, hvalue | ⟨hmode, hvalue⟩⟩ := hunknown
  · exact ⟨_, Table.mem_of_get? (get?_completed h he rfl), .siblingOrder hvalue⟩
  · obtain ⟨group, heq, hnodup⟩ := (h.entries _ he).output rfl
    obtain rfl := Value.object.inj heq
    refine ⟨_, Table.mem_of_get? (get?_completed h he rfl), .mode (Table.mem_of_get? ?_) hvalue⟩
    rw [Table.over, Table.get?_mapValues, Table.get?_of_mem hnodup hmode]
    rfl

/-- Defaults make no unknown choice, and do not hide one. -/
theorem unknown_completed_iff (h : Shaped d) :
    (∃ e ∈ completed d, UnknownChoice e) ↔ ∃ e ∈ d, UnknownChoice e := by
  refine ⟨fun hcompleted => ?_, unknown_completed h⟩
  by_contra hknown
  obtain ⟨s, -, hs, hentries⟩ := read_of_known h hknown
  rw [← hentries] at hcompleted
  exact known_entries hs hcompleted

theorem read_of_reworded (h : Shaped d) (h' : Shaped d') (hreworded : Reworded d d') :
    (read (.object d')).toOption = (read (.object d)).toOption := by
  have hcompleted := completed_eq_of_reworded h.keys h' hreworded
  have hunknown : (∃ e ∈ d, UnknownChoice e) ↔ ∃ e ∈ d', UnknownChoice e := by
    rw [← unknown_completed_iff h, hcompleted, unknown_completed_iff h']
  by_cases hd : ∃ e ∈ d, UnknownChoice e
  · obtain ⟨_, _, hread⟩ := read_of_unknown h hd
    obtain ⟨_, _, hread'⟩ := read_of_unknown h' (hunknown.mp hd)
    rw [hread, hread']
    rfl
  · obtain ⟨s, hread, hs, hentries⟩ := read_of_known h hd
    obtain ⟨s', hread', hs', hentries'⟩ := read_of_known h' (hunknown.not.mp hd)
    rw [hread, hread', eq_of_entries hs hs' (by rw [hentries, hentries', hcompleted])]

/-- Reading is refused for an unknown choice and for nothing else. Otherwise settings are what is
given and the defaults of the rest, they come back from what is written, and how the object is
worded makes no difference. -/
theorem read_settles (h : Shaped d) :
    ((∃ value setting, read (.object d) = .error (.noChoice value setting))
        ↔ ∃ e ∈ d, UnknownChoice e)
      ∧ ((¬∃ e ∈ d, UnknownChoice e) → ∃ s, read (.object d) = .ok s
        ∧ s.write = .ok (.object (completed d)) ∧ read (.object (completed d)) = .ok s)
      ∧ ∀ d', Shaped d' → Reworded d d' →
        (read (.object d')).toOption = (read (.object d)).toOption := by
  refine ⟨⟨fun ⟨_, _, hrefused⟩ => ?_, read_of_unknown h⟩, fun hknown => ?_,
    fun d' h' hreworded => read_of_reworded h h' hreworded⟩
  · by_contra hknown
    obtain ⟨s, hread, -⟩ := read_of_known h hknown
    rw [hread] at hrefused
    cases hrefused
  · obtain ⟨s, hread, hs, hentries⟩ := read_of_known h hknown
    rw [← hentries]
    exact ⟨s, hread, write_of_proper hs, read_entries hs⟩

/-- Settings with some choices, with keys that are not known, too. -/
def chosen : Entries := [
  ("orm_suffix", .text "Schema"),
  ("output", .object [("atomic_write", .bool false), ("mode", .text "force")]),
  ("theme", .null),
  ("sibling_order", .text "name")]

/-- The same settings, worded otherwise. -/
def chosenReworded : Entries := [
  ("sibling_order", .text "name"),
  ("output", .object [("mode", .text "force"), ("colour", .int 3), ("atomic_write", .bool false)]),
  ("orm_suffix", .text "Schema")]

theorem chosen_shaped : Shaped chosen := by
  refine ⟨by decide, fun e he => ?_⟩
  simp only [chosen, List.mem_cons, List.not_mem_nil, or_false] at he
  rcases he with rfl | rfl | rfl | rfl <;> constructor <;> intro h <;>
    first | exact ⟨_, rfl, by decide⟩ | exact absurd h (by decide)

theorem chosenReworded_shaped : Shaped chosenReworded := by
  refine ⟨by decide, fun e he => ?_⟩
  simp only [chosenReworded, List.mem_cons, List.not_mem_nil, or_false] at he
  rcases he with rfl | rfl | rfl <;> constructor <;> intro h <;>
    first | exact ⟨_, rfl, by decide⟩ | exact absurd h (by decide)

theorem chosen_reworded : Reworded chosen chosenReworded := by
  refine ⟨[("sibling_order", .text "name"),
    ("output", .object [("atomic_write", .bool false), ("mode", .text "force")]),
    ("orm_suffix", .text "Schema")], by unfold SameUnder; decide, ?_⟩
  exact .cons .same (.cons (.output (by unfold SameUnder; decide)) (.cons .same .nil))

theorem chosen_known : ¬∃ e ∈ chosen, UnknownChoice e := by
  intro hunknown
  obtain ⟨_, _, hread⟩ := read_of_unknown chosen_shaped hunknown
  cases hread

theorem chosen_settles :
    Shaped chosen ∧ Shaped chosenReworded ∧ Reworded chosen chosenReworded
      ∧ (∃ s, read (.object chosen) = .ok s ∧ s.write = .ok (.object (completed chosen))
        ∧ read (.object (completed chosen)) = .ok s)
      ∧ (read (.object chosenReworded)).toOption = (read (.object chosen)).toOption := by
  obtain ⟨-, hback, hwording⟩ := read_settles chosen_shaped
  exact ⟨chosen_shaped, chosenReworded_shaped, chosen_reworded, hback chosen_known,
    hwording _ chosenReworded_shaped chosen_reworded⟩

end Settings

end SchemaGen
