import SchemaGen.Proofs.Growth

/-!
# Insertions do not depend on what came before

A tree is filled by calls that may fail or ask for a type that is there
already. `insertAll` is the tree after any list of calls. Such a tree is
grown (`grown_insertAll`), so it never holds a type without its whole
lineage, and this is what makes the outcome of a call independent of the
calls before it (`outcome_eq`): a climb that succeeds would do so from the
tree of no types, and a climb that fails meets no type of the tree on its
way, so the tree cannot cut it short.

From this the tree after a list of calls can be told from the list taken as
a set (`mem_names_insertAll`, `parent?_insertAll`).

Insertion attaches its whole chain at once. `insertInPlace` is the same
work as a change of a tree at hand, one type at a time, where every type
looks up its parent and would stop halfway if it were not there. That it
agrees with insertion (`insertInPlace_eq`) says that no chain is ever
attached in part.

`insertAll_historyFree` collects these facts.
-/

namespace SchemaGen

namespace Hierarchy

variable {m : Model} {t : Hierarchy} {name : String}

/-! ## Calls -/

def outcome (m : Model) (t : Hierarchy) (name : String) : Except Fault Unit :=
  (t.insert m name).result.map fun _ => ()

/-- The tree after a call. A call that fails gives back no tree, so the old one is still the tree
at hand. -/
def inserted (m : Model) (t : Hierarchy) (name : String) : Hierarchy :=
  match (t.insert m name).result with
  | .ok after => after
  | .error _ => t

/-- The tree after calls for the given names in order, the failing ones included. -/
def insertAll (m : Model) (calls : List String) : Hierarchy := calls.foldl (inserted m) empty

theorem insertAll_concat (calls : List String) :
    insertAll m (calls ++ [name]) = inserted m (insertAll m calls) name := by
  simp [insertAll]

/-! ## One call -/

theorem missing_unknown (ht : Grown m t) (hname : name ∉ m.names) :
    missing m t name = .error (.unknownType name) := by
  have hnew : ¬t.contains name = true := fun hmem => hname (ht.mem_model (contains_iff.mp hmem))
  have hget : m.get? name = none := Table.get?_eq_none.mpr hname
  rw [missing, climb, if_neg hnew]
  simp only [List.not_mem_nil, if_false, hget]

/-- The two ways in which the climb of a call ends. -/
theorem missing_cases (ht : Grown m t) (name : String) :
    (∃ above chain, m.Lineage name above ∧ Missing m t name chain
        ∧ missing m t name = .ok chain)
      ∨ (¬∃ above, m.Lineage name above) ∧ ∃ fault, missing m t name = .error fault := by
  by_cases hname : name ∈ m.names
  · have hends := @missing_ends m t name hname
    generalize missing m t name = result at hends ⊢
    cases hends with
    | arrived hmissing =>
        obtain ⟨above, hchain, -⟩ := hmissing.lineage ht
        exact Or.inl ⟨above, _, hchain, hmissing, rfl⟩
    | fell hfault =>
        refine Or.inr ⟨fun ⟨above, hchain⟩ => ?_, _, rfl⟩
        exact hfault.leaves_or_revisits.elim hchain.not_leavesModel hchain.not_revisits
  · exact Or.inr ⟨fun ⟨_, hchain⟩ => hname hchain.mem_names, _, missing_unknown ht hname⟩

theorem insert_cases (ht : Grown m t) (name : String) :
    (∃ above chain, m.Lineage name above ∧ Missing m t name chain
        ∧ (t.insert m name).result = .ok (t.attach m chain))
      ∨ (¬∃ above, m.Lineage name above)
        ∧ ∃ fault, (t.insert m name).result = .error fault := by
  simp only [insert_result]
  rcases missing_cases ht name with ⟨above, chain, hchain, hmissing, hok⟩ | ⟨hnone, fault, herror⟩
  · exact Or.inl ⟨above, chain, hchain, hmissing, by rw [hok]; rfl⟩
  · exact Or.inr ⟨hnone, fault, by rw [herror]; rfl⟩

theorem inserted_of_error {fault : Fault} (h : (t.insert m name).result = .error fault) :
    inserted m t name = t := by
  rw [inserted, h]

theorem inserted_of_ok {after : Hierarchy} (h : (t.insert m name).result = .ok after) :
    inserted m t name = after := by
  rw [inserted, h]

theorem insert_present (hmem : name ∈ t.names) : (t.insert m name).result = .ok t := by
  rw [insert_result, missing, climb, if_pos (contains_iff.mpr hmem)]
  simp [Except.map]

theorem Grown.inserted (ht : Grown m t) (name : String) : Grown m (inserted m t name) := by
  rcases insert_cases ht name with ⟨_, _, -, hmissing, hok⟩ | ⟨-, _, herror⟩
  · rw [inserted_of_ok hok]
    exact (hmissing.grown ht).1
  · rwa [inserted_of_error herror]

/-- A call that succeeds brings in the type with its lineage, and any other call nothing. -/
theorem mem_names_inserted (ht : Grown m t) {called : String} :
    name ∈ (inserted m t called).names
      ↔ name ∈ t.names ∨ ∃ above, m.Lineage called above ∧ name ∈ called :: above := by
  rcases insert_cases ht called with ⟨above, chain, hchain, hmissing, hok⟩ | ⟨hnone, _, herror⟩
  · obtain ⟨hgrown, hin⟩ := hmissing.grown ht
    obtain ⟨above', hchain', hpre⟩ := hmissing.lineage ht
    obtain rfl := hchain.unique hchain'
    rw [inserted_of_ok hok]
    constructor
    · intro hmem
      rw [names_attach, List.mem_append, List.mem_reverse] at hmem
      exact hmem.imp_right fun hnew => ⟨above, hchain, hpre.subset hnew⟩
    · rintro (hold | ⟨above', hchain', hmem⟩)
      · rw [names_attach]
        exact List.mem_append_left _ hold
      · obtain rfl := hchain.unique hchain'
        obtain ⟨above', hchain', hsub⟩ := hgrown.lineage hin
        obtain rfl := hchain.unique hchain'
        rcases List.mem_cons.mp hmem with rfl | hmem
        · exact hin
        · exact hsub hmem
  · rw [inserted_of_error herror]
    exact ⟨Or.inl, fun h => h.resolve_right fun ⟨above, hchain, _⟩ => hnone ⟨above, hchain⟩⟩

/-! ## The outcome without the tree -/

-- Induction on the fuel. A type without a lineage is not in the tree, and neither its parent nor
-- any type further up has a lineage, so the climb goes the same way from any tree.
theorem climb_eq_of_no_lineage (ht : Grown m t) (fuel : Nat) (climbed : List String)
    (current : String) (hnone : ¬∃ above, m.Lineage current above) :
    climb m t.contains fuel climbed current = climb m empty.contains fuel climbed current := by
  induction fuel generalizing climbed current with
  | zero => rfl
  | succ fuel ih =>
      have hnew : ¬t.contains current = true := by
        rw [contains_iff]
        intro hmem
        obtain ⟨above, hchain, -⟩ := ht.lineage hmem
        exact hnone ⟨above, hchain⟩
      have hnew' : ¬empty.contains current = true := by simp
      rw [climb, climb, if_neg hnew, if_neg hnew']
      by_cases hagain : current ∈ climbed
      · rw [if_pos hagain, if_pos hagain]
      rw [if_neg hagain, if_neg hagain]
      cases hget : m.get? current with
      | none => rfl
      | some d =>
          cases hp : d.parent? with
          | none => simp only [hp]
          | some parent =>
              simp only [hp]
              have hext : m.Extends current parent := (Model.modelParent_eq hget).trans hp
              rw [ih (climbed ++ [current]) parent fun ⟨above, hchain⟩ =>
                hnone ⟨parent :: above, .under hext hchain⟩]

/-- A call ends as it would on the tree of no types. -/
theorem outcome_eq (ht : Grown m t) (name : String) : outcome m t name = outcome m empty name := by
  by_cases hlineage : ∃ above, m.Lineage name above
  · have hsucceeds : ∀ {s : Hierarchy}, Grown m s → outcome m s name = .ok () := by
      intro s hs
      rcases insert_cases hs name with ⟨_, _, -, -, hok⟩ | ⟨hnone, -⟩
      · rw [outcome, hok]
        rfl
      · exact absurd hlineage hnone
    rw [hsucceeds ht, hsucceeds .empty]
  · have hclimb : missing m t name = missing m empty name :=
      climb_eq_of_no_lineage ht _ _ _ hlineage
    rw [outcome, outcome, insert_result, insert_result, hclimb]
    cases missing m empty name <;> rfl

theorem outcome_eq_ok_iff (ht : Grown m t) :
    outcome m t name = .ok () ↔ ∃ above, m.Lineage name above := by
  rcases insert_cases ht name with ⟨above, _, hchain, -, hok⟩ | ⟨hnone, _, herror⟩
  · rw [outcome, hok]
    exact ⟨fun _ => ⟨above, hchain⟩, fun _ => rfl⟩
  · rw [outcome, herror]
    exact ⟨nofun, fun h => absurd h hnone⟩

/-! ## Lists of calls -/

theorem grown_insertAll (calls : List String) : Grown m (insertAll m calls) := by
  induction calls using List.reverseRecOn with
  | nil => exact .empty
  | append_singleton calls name ih =>
      rw [insertAll_concat]
      exact ih.inserted name

/-- The types after a list of calls: those called for that have a lineage, with their lineages. -/
theorem mem_names_insertAll {calls : List String} :
    name ∈ (insertAll m calls).names
      ↔ ∃ called ∈ calls, ∃ above, m.Lineage called above ∧ name ∈ called :: above := by
  induction calls using List.reverseRecOn with
  | nil => simp [insertAll]
  | append_singleton calls last ih =>
      rw [insertAll_concat, mem_names_inserted (grown_insertAll calls), ih]
      simp only [List.mem_append, List.mem_singleton, or_and_right, exists_or, exists_eq_left]

/-- A call that was made before changes nothing: it either failed then, or its type is there. -/
theorem inserted_of_repeated {calls : List String} (hmem : name ∈ calls) :
    inserted m (insertAll m calls) name = insertAll m calls := by
  rcases insert_cases (grown_insertAll calls) name with ⟨above, _, hchain, -, -⟩ | ⟨-, _, herror⟩
  · have hpresent : name ∈ (insertAll m calls).names :=
      mem_names_insertAll.mpr ⟨name, hmem, above, hchain, List.mem_cons_self ..⟩
    exact inserted_of_ok (insert_present hpresent)
  · exact inserted_of_error herror

theorem inserted_of_failing {fault : Fault} (h : outcome m t name = .error fault) :
    inserted m t name = t := by
  rw [outcome] at h
  cases hresult : (t.insert m name).result with
  | error _ => exact inserted_of_error hresult
  | ok after =>
      rw [hresult] at h
      cases h

/-- The calls that neither fail nor repeat an earlier one, where `earlier` are the calls made
before. -/
def effective (m : Model) (earlier : List String) : List String → List String
  | [] => []
  | name :: calls =>
    if name ∈ earlier ∨ (outcome m (insertAll m earlier) name).isOk = false then
      effective m (earlier ++ [name]) calls
    else name :: effective m (earlier ++ [name]) calls

theorem foldl_effective (earlier calls : List String) :
    (effective m earlier calls).foldl (inserted m) (insertAll m earlier)
      = calls.foldl (inserted m) (insertAll m earlier) := by
  induction calls generalizing earlier with
  | nil => rfl
  | cons name calls ih =>
      have hrest := ih (earlier ++ [name])
      rw [insertAll_concat] at hrest
      rw [effective]
      split
      · rename_i hidle
        have hsame : inserted m (insertAll m earlier) name = insertAll m earlier := by
          rcases hidle with hrepeated | hfails
          · exact inserted_of_repeated hrepeated
          · cases houtcome : outcome m (insertAll m earlier) name with
            | ok _ =>
                rw [houtcome] at hfails
                cases hfails
            | error fault => exact inserted_of_failing houtcome
        rw [List.foldl_cons, hsame]
        rwa [hsame] at hrest
      · rw [List.foldl_cons, List.foldl_cons, hrest]

theorem Grown.parent?_eq (ht : Grown m t) (hmem : name ∈ t.names) :
    t.parent? name = some (modelParent m name) := by
  induction ht with
  | empty => cases hmem
  | @hang t new _ hnew _ _ ih =>
      by_cases heq : name = new
      · subst heq
        exact parent?_attach_of_mem hnew (List.mem_singleton_self _)
      · rw [parent?_attach_of_not_mem (by simpa using heq)]
        refine ih ?_
        simpa [heq] using hmem

theorem parent?_of_not_mem (h : name ∉ t.names) : t.parent? name = none :=
  Table.get?_eq_none.mpr h

theorem parent?_insertAll {calls calls' : List String}
    (hsame : ∀ called, called ∈ calls' ↔ called ∈ calls) (name : String) :
    (insertAll m calls').parent? name = (insertAll m calls).parent? name := by
  have hmem : name ∈ (insertAll m calls').names ↔ name ∈ (insertAll m calls).names := by
    simp only [mem_names_insertAll, hsame]
  by_cases hin : name ∈ (insertAll m calls).names
  · rw [(grown_insertAll calls).parent?_eq hin, (grown_insertAll calls').parent?_eq (hmem.mpr hin)]
  · rw [parent?_of_not_mem hin, parent?_of_not_mem fun h => hin (hmem.mp h)]

/-! ## Attaching one type at a time -/

/-- Hangs types one after the other, each under a parent that the tree at hand must hold. The tree
that comes back is the one reached when the work ends, in whatever way. -/
def hangEach (m : Model) : Hierarchy → List String → Hierarchy × Except Fault Unit
  | t, [] => (t, .ok ())
  | t, name :: names =>
    match modelParent m name with
    | none => hangEach m (t.attach m [name]) names
    | some parent =>
      if t.contains parent then hangEach m (t.attach m [name]) names
      else (t, .error (.unknownType parent))

/-- Insertion as a change of the tree at hand: a climb that leaves the tree alone, then the types
of the chain from the top down. -/
def insertInPlace (m : Model) (t : Hierarchy) (name : String) : Hierarchy × Except Fault Unit :=
  match missing m t name with
  | .error fault => (t, .error fault)
  | .ok chain => hangEach m t chain.reverse

theorem hangEach_append {t' : Hierarchy} {names more : List String}
    (h : hangEach m t names = (t', .ok ())) :
    hangEach m t (names ++ more) = hangEach m t' more := by
  induction names generalizing t with
  | nil =>
      obtain ⟨rfl, -⟩ := Prod.mk.inj h
      rfl
  | cons name names ih =>
      rw [List.cons_append, hangEach]
      rw [hangEach] at h
      cases hp : modelParent m name with
      | none =>
          rw [hp] at h
          exact ih h
      | some parent =>
          rw [hp] at h
          by_cases hin : t.contains parent = true
          · simp only [hin, if_true] at h ⊢
            exact ih h
          · simp only [hin] at h
            cases (Prod.mk.inj h).2

/-- Every type of a missing chain finds its parent in the tree when its turn comes. -/
theorem Missing.hangEach {chain : List String} (h : Missing m t name chain) (ht : Grown m t) :
    hangEach m t chain.reverse = (t.attach m chain, .ok ()) := by
  induction h with
  | present _ => rw [attach_nil]; rfl
  | top _ _ hnone => simp [Hierarchy.hangEach, hnone]
  | @under name parent chain _ hext hrest ih =>
      have hparent : (t.attach m chain).contains parent = true :=
        contains_iff.mpr (hrest.grown ht).2
      have hp : modelParent m name = some parent := hext
      rw [List.reverse_cons, hangEach_append ih, attach_cons]
      simp [Hierarchy.hangEach, hp, hparent]

/-- Attaching the chain one type at a time gives the tree and the outcome of an insertion: the
work never ends with a part of the chain attached. -/
theorem insertInPlace_eq (ht : Grown m t) (name : String) :
    insertInPlace m t name = (inserted m t name, outcome m t name) := by
  rw [insertInPlace, inserted, outcome, insert_result]
  rcases missing_cases ht name with ⟨_, chain, -, hmissing, hok⟩ | ⟨-, fault, herror⟩
  · rw [hok]
    exact hmissing.hangEach ht
  · rw [herror]
    rfl

/-! ## Histories -/

/-- What holds of insertion into the tree after a list of calls. -/
structure HistoryFree (m : Model) (calls : List String) : Prop where
  /-- A call succeeds, or fails with the same fault, as on the tree of no types. -/
  outcomes : ∀ name, outcome m (insertAll m calls) name = outcome m empty name
  /-- A name that the model does not have is a fault of its own. -/
  unknown : ∀ name, name ∉ m.names →
    outcome m (insertAll m calls) name = .error (.unknownType name)
  /-- Done one type at a time, a call changes the tree as a whole or not at all. -/
  atomic : ∀ name, insertInPlace m (insertAll m calls) name
    = (inserted m (insertAll m calls) name, outcome m (insertAll m calls) name)
  /-- A call that fails changes nothing. -/
  failing : ∀ name fault, outcome m (insertAll m calls) name = .error fault →
    inserted m (insertAll m calls) name = insertAll m calls
  /-- A call for a type that is there already succeeds and changes nothing. -/
  present : ∀ name ∈ (insertAll m calls).names,
    ((insertAll m calls).insert m name).result = .ok (insertAll m calls)
  /-- The tree holds the types of the successful calls and their ancestors, and no others. -/
  names : ∀ name, name ∈ (insertAll m calls).names
    ↔ ∃ before called after, calls = before ++ called :: after
      ∧ outcome m (insertAll m before) called = .ok () ∧ (name = called ∨ m.Ancestor called name)
  /-- The calls that fail or repeat an earlier one may be left out. -/
  effective : insertAll m (effective m [] calls) = insertAll m calls
  /-- Calls for the same names, in whatever order and number, give every type the same parent. -/
  sameNames : ∀ calls', (∀ called, called ∈ calls' ↔ called ∈ calls) →
    ∀ name, (insertAll m calls').parent? name = (insertAll m calls).parent? name

theorem mem_names_insertAll_iff_succeeds {calls : List String} :
    name ∈ (insertAll m calls).names
      ↔ ∃ before called after, calls = before ++ called :: after
        ∧ outcome m (insertAll m before) called = .ok ()
        ∧ (name = called ∨ m.Ancestor called name) := by
  simp only [mem_names_insertAll, outcome_eq_ok_iff (grown_insertAll _)]
  constructor
  · rintro ⟨called, hcalled, above, hchain, hmem⟩
    obtain ⟨before, after, rfl⟩ := List.append_of_mem hcalled
    refine ⟨before, called, after, rfl, ⟨above, hchain⟩, ?_⟩
    exact (List.mem_cons.mp hmem).imp_right hchain.mem_iff.mp
  · rintro ⟨before, called, after, rfl, ⟨above, hchain⟩, hname⟩
    refine ⟨called, by simp, above, hchain, ?_⟩
    exact List.mem_cons.mpr (hname.imp_right hchain.mem_iff.mpr)

/-- Insertion is independent of history: after any list of calls it ends as on the tree of no
types and changes the tree as a whole or not at all, and the tree itself depends on the names that
were called for and not on the order or the failures. -/
theorem insertAll_historyFree (m : Model) (calls : List String) : HistoryFree m calls where
  outcomes := outcome_eq (grown_insertAll calls)
  unknown name hname := by
    rw [outcome, insert_result, missing_unknown (grown_insertAll calls) hname]
    rfl
  atomic := insertInPlace_eq (grown_insertAll calls)
  failing _ _ := inserted_of_failing
  present _ := insert_present
  names _ := mem_names_insertAll_iff_succeeds
  effective := foldl_effective [] calls
  sameNames _ hsame := parent?_insertAll hsame

end Hierarchy

end SchemaGen
