import SchemaGen.Proofs.Generation

/-!
# Writing types in any order

The walk of a tree asks for the code of each type once, and for parents first.
Nothing forces another user to do so: definitions may come in any order, under
a name that was used before, with a parent that was not written, or with a
field type that has no counterpart. A call may then fail at the look-up of the
parent, at any field, or when the lines are to be kept.

`code` takes a registry and gives one back, so it cannot leave a registry half
changed. `writeInPlace` is the same work as a change of one registry at hand,
where whatever was done before a fault stays done; `call` runs it. That a
failing call leaves the registry alone (`call_eq`) says that keeping the lines
is the last step that can fail, and the first that changes anything.

What one call can do is said once, by `call_ends`. The registry only grows, by
entries under new names, so an entry never changes (`get?_afterCalls`). It
tells the lines of a record from those that the parent had at that moment, and
these are the lines that the parent has ever after (`calls_recorded`).
-/

namespace SchemaGen.GraphQL

open SchemaGen.Model (Record Enumeration Definition)

variable {settings : Settings} {kept start : FieldLines} {α β : Type}

/-! ## A registry at hand -/

/-- Work on a registry at hand. What was done before a fault stays done. -/
abbrev OnRegistry := ExceptT Fault (StateM FieldLines)

/-- The result of such work, and the registry when it ends. -/
def OnRegistry.runOn (x : OnRegistry α) (kept : FieldLines) : Except Fault α × FieldLines :=
  x.run.run kept

/-- A step that does not look at the registry. -/
def aside (e : Except Fault α) : OnRegistry α := ExceptT.mk (pure e)

/-- The lines that the registry at hand has for a type. -/
def lookUp (typeName : String) : OnRegistry (List String) := do
  aside (FieldLines.linesOf (← get) typeName)

/-- Keeps the lines of a type in the registry at hand. -/
def register (typeName : String) (lines : List String) : OnRegistry Unit := do
  set (← aside (FieldLines.keep (← get) typeName lines))

/-- The lines that a record takes over from its parent, from the registry at hand. -/
def inheritInPlace (r : Record) : OnRegistry (List String) :=
  match r.parent with
  | none => return []
  | some parent => return startMark parent :: (← lookUp parent) ++ [endMark parent]

/-- The lines of a record, from the registry at hand: the parent is looked up, and the fields are
translated one after the other. -/
def linesInPlace (settings : Settings) (r : Record) : OnRegistry (List String) := do
  let inherited ← inheritInPlace r
  let identity := if r.dbBase && !inherited.any declaresIdentity then [identityLine] else []
  let own ← r.fields.mapM fun field => aside (fieldLine settings field)
  return identity ++ inherited ++ own

/-- The code of a type, step by step. -/
def writeInPlace (settings : Settings) : Definition → OnRegistry String
  | .record r => do
    let lines ← linesInPlace settings r
    register r.name lines
    return typeCode r.name lines
  | .enumeration e => return enumCode e
  | .bare name => throw (.bareDefinition name)

/-- A call for the code of a type: what it gives, and the registry after it. -/
def call (settings : Settings) (kept : FieldLines) (d : Definition) :
    Except Fault String × FieldLines :=
  (writeInPlace settings d).runOn kept

/-- The registry after calls for the given definitions in order, the failing ones included. -/
def afterCalls (settings : Settings) (start : FieldLines) (calls : List Definition) : FieldLines :=
  calls.foldl (fun kept d => (call settings kept d).2) start

/-! ## One call -/

namespace OnRegistry

theorem runOn_bind (x : OnRegistry α) (f : α → OnRegistry β) (kept : FieldLines) :
    (x >>= f).runOn kept
      = match x.runOn kept with
        | (.ok a, after) => (f a).runOn after
        | (.error fault, after) => (.error fault, after) := by
  show (ExceptT.bindCont f (x.runOn kept).1).run (x.runOn kept).2 = _
  obtain ⟨result, after⟩ := x.runOn kept
  cases result <;> rfl

theorem runOn_aside (e : Except Fault α) (kept : FieldLines) :
    (aside e).runOn kept = (e, kept) := rfl

theorem runOn_lookUp (typeName : String) (kept : FieldLines) :
    (lookUp typeName).runOn kept = (FieldLines.linesOf kept typeName, kept) := rfl

theorem runOn_register (typeName : String) (lines : List String) (kept : FieldLines) :
    (register typeName lines).runOn kept
      = match FieldLines.keep kept typeName lines with
        | .ok after => (.ok (), after)
        | .error fault => (.error fault, kept) := by
  show (aside (FieldLines.keep kept typeName lines) >>= fun after => set after).runOn kept = _
  rw [runOn_bind, runOn_aside]
  cases FieldLines.keep kept typeName lines <;> rfl

end OnRegistry

open OnRegistry

theorem aside_bind (e : Except Fault α) (f : α → Except Fault β) :
    aside (e >>= f) = aside e >>= fun a => aside (f a) := by
  cases e <;> rfl

/-- Translating field by field is one step that does not look at the registry. -/
theorem mapM_aside (f : α → Except Fault β) (items : List α) :
    (items.mapM fun item => aside (f item)) = aside (items.mapM f) := by
  induction items with
  | nil => rfl
  | cons item items ih =>
      rw [List.mapM_cons, List.mapM_cons, ih, aside_bind]
      refine congrArg _ (funext fun b => ?_)
      rw [aside_bind]
      rfl

theorem runOn_inheritInPlace (r : Record) (kept : FieldLines) :
    (inheritInPlace r).runOn kept = (inheritedLines kept r, kept) := by
  unfold inheritInPlace inheritedLines
  cases r.parent with
  | none => rfl
  | some parent =>
      simp only [runOn_bind, runOn_lookUp]
      cases FieldLines.linesOf kept parent <;> rfl

/-- Putting the lines together leaves the registry alone, whether it succeeds or not. -/
theorem runOn_linesInPlace (settings : Settings) (r : Record) (kept : FieldLines) :
    (linesInPlace settings r).runOn kept = (recordLines settings kept r, kept) := by
  simp only [linesInPlace, recordLines, runOn_bind, runOn_inheritInPlace, mapM_aside, runOn_aside]
  cases inheritedLines kept r with
  | error fault => rfl
  | ok inherited => cases r.fields.mapM (fieldLine settings) <;> rfl

/-- A call gives the code of a type and leaves the registry with its lines, or it fails and leaves
the registry as it was. -/
theorem call_eq (settings : Settings) (kept : FieldLines) (d : Definition) :
    call settings kept d
      = match (code settings kept d).result with
        | .ok (text, after) => (.ok text, after)
        | .error fault => (.error fault, kept) := by
  cases d with
  | record r =>
      rw [code_record_result]
      simp only [call, writeInPlace, runOn_bind, runOn_linesInPlace, runOn_register]
      cases recordLines settings kept r with
      | error fault => rfl
      | ok lines =>
          simp only [bind, Except.bind]
          cases FieldLines.keep kept r.name lines <;> rfl
  | enumeration e => rfl
  | bare name => rfl

/-- What one call can do. -/
inductive CallEnds (settings : Settings) (kept : FieldLines) :
    Definition → Except Fault String × FieldLines → Prop
  | failed {d : Definition} {fault : Fault} : CallEnds settings kept d (.error fault, kept)
  | record {r : Record} {lines : List String} :
      recordLines settings kept r = .ok lines → r.name ∉ Table.keys kept →
      CallEnds settings kept (.record r)
        (.ok (typeCode r.name lines), kept ++ [(r.name, lines)])
  | enumeration {e : Enumeration} :
      CallEnds settings kept (.enumeration e) (.ok (enumCode e), kept)

theorem call_ends (settings : Settings) (kept : FieldLines) (d : Definition) :
    CallEnds settings kept d (call settings kept d) := by
  rw [call_eq]
  cases d with
  | record r =>
      rw [code_record_result]
      cases hlines : recordLines settings kept r with
      | error fault => exact .failed
      | ok lines =>
          simp only [bind, Except.bind, FieldLines.keep]
          by_cases hkept : Table.contains kept r.name = true
          · rw [if_pos hkept]
            exact .failed
          · rw [if_neg hkept]
            exact .record hlines (by rwa [Table.contains_iff] at hkept)
  | enumeration e => exact .enumeration
  | bare name => exact .failed

theorem call_error {d : Definition} {fault : Fault} (h : (call settings kept d).1 = .error fault) :
    (call settings kept d).2 = kept := by
  have hends := call_ends settings kept d
  generalize call settings kept d = result at hends h ⊢
  cases hends with
  | failed => rfl
  | record _ _ => cases h
  | enumeration => rfl

theorem call_record {r : Record} {text : String}
    (h : (call settings kept (.record r)).1 = .ok text) :
    ∃ lines, recordLines settings kept r = .ok lines ∧ r.name ∉ Table.keys kept
      ∧ (call settings kept (.record r)).2 = kept ++ [(r.name, lines)]
      ∧ text = typeCode r.name lines := by
  have hends := call_ends settings kept (.record r)
  generalize call settings kept (.record r) = result at hends h ⊢
  cases hends with
  | failed => cases h
  | record hlines hnew => exact ⟨_, hlines, hnew, rfl, (Except.ok.inj h).symm⟩

/-! ## The lines of a record -/

theorem recordLines_eq_ok {r : Record} {lines : List String}
    (h : recordLines settings kept r = .ok lines) :
    ∃ inherited own, inheritedLines kept r = .ok inherited
      ∧ r.fields.mapM (fieldLine settings) = .ok own
      ∧ lines = (if r.dbBase && !inherited.any declaresIdentity then [identityLine] else [])
          ++ inherited ++ own := by
  obtain ⟨inherited, hinherited, h⟩ := bind_eq_ok h
  obtain ⟨own, hown, h⟩ := bind_eq_ok h
  exact ⟨inherited, own, hinherited, hown, (Except.ok.inj h).symm⟩

theorem inheritedLines_eq_ok {r : Record} {parent : String} {inherited : List String}
    (hparent : r.parent = some parent) (h : inheritedLines kept r = .ok inherited) :
    ∃ above, Table.get? kept parent = some above
      ∧ inherited = startMark parent :: above ++ [endMark parent] := by
  rw [inheritedLines, hparent] at h
  obtain ⟨above, habove, rfl⟩ := map_eq_ok h
  refine ⟨above, ?_, rfl⟩
  unfold FieldLines.linesOf at habove
  split at habove
  · rename_i hget
    rw [hget, Except.ok.inj habove]
  · cases habove

/-- The marks around inherited lines declare nothing. -/
theorem any_declaresIdentity_marked (parent : String) (above : List String) :
    (startMark parent :: above ++ [endMark parent]).any declaresIdentity
      = above.any declaresIdentity := by
  simp [declaresIdentity_startMark, declaresIdentity_endMark]

theorem identity_eq (dbBase : Bool) (above : List String) :
    (if dbBase && !above.any declaresIdentity then [identityLine] else [])
      = if dbBase ∧ ∀ line ∈ above, ¬"_id:".toList <+: line.toList then ["_id: ID!"] else [] := by
  refine if_congr ?_ rfl rfl
  simp only [Bool.and_eq_true, Bool.not_eq_true', List.any_eq_false, declaresIdentity,
    List.isPrefixOf_iff_prefix]

/-! ## Any number of calls -/

theorem get?_call {name : String} {lines : List String} (h : Table.get? kept name = some lines)
    (d : Definition) : Table.get? (call settings kept d).2 name = some lines := by
  have hends := call_ends settings kept d
  generalize call settings kept d = result at hends ⊢
  cases hends with
  | failed => exact h
  | enumeration => exact h
  | @record r added _ hnew =>
      have hname : name ≠ r.name := by
        rintro rfl
        rw [Table.get?_eq_none.mpr hnew] at h
        cases h
      rw [Table.get?_append_left (by simpa using hname)]
      exact h

/-- No entry ever changes. -/
theorem get?_afterCalls {name : String} {lines : List String}
    (h : Table.get? kept name = some lines) (calls : List Definition) :
    Table.get? (afterCalls settings kept calls) name = some lines := by
  induction calls generalizing kept with
  | nil => exact h
  | cons d calls ih => exact ih (get?_call h d)

theorem afterCalls_append (calls more : List Definition) :
    afterCalls settings start (calls ++ more)
      = afterCalls settings (afterCalls settings start calls) more :=
  List.foldl_append

/-- A record that is written has its lines ever after. -/
theorem get?_written {before : List Definition} {r : Record} {text : String}
    (h : (call settings (afterCalls settings start before) (.record r)).1 = .ok text)
    (after : List Definition) :
    ∃ lines, recordLines settings (afterCalls settings start before) r = .ok lines
      ∧ Table.get? (afterCalls settings start (before ++ .record r :: after)) r.name
        = some lines := by
  obtain ⟨lines, hlines, hnew, hafter, -⟩ := call_record h
  have hwritten : Table.get? (call settings (afterCalls settings start before) (.record r)).2
      r.name = some lines := by
    rw [hafter, Table.get?_append_of_not_mem hnew]
    simp [Table.get?]
  refine ⟨lines, hlines, ?_⟩
  rw [afterCalls_append]
  exact get?_afterCalls hwritten after

/-- `own` has one line for each field, with the name of the field and its type. -/
def Translates (settings : Settings) (r : Record) (own : List String) : Prop :=
  List.Forall₂ (fun field line => ∃ text, typeText settings field.type = .ok text
    ∧ line = field.name ++ ": " ++ text) r.fields own

theorem translates_of_mapM {r : Record} {own : List String}
    (h : r.fields.mapM (fieldLine settings) = .ok own) : Translates settings r own := by
  refine (forall₂_of_mapM h).imp fun field line hline => ?_
  obtain ⟨text, htext, hline⟩ := map_eq_ok hline
  exact ⟨text, htext, hline.symm⟩

/-- What holds of a registry after a list of calls, and of the next call. -/
structure Recorded (settings : Settings) (start : FieldLines) (calls : List Definition) :
    Prop where
  /-- The next call gives the code of its type and leaves what is kept then, or its fault. -/
  agrees : ∀ d, call settings (afterCalls settings start calls) d
    = match (code settings (afterCalls settings start calls) d).result with
      | .ok (text, after) => (.ok text, after)
      | .error fault => (.error fault, afterCalls settings start calls)
  /-- If it fails, the registry is as before. -/
  failing : ∀ d fault, (call settings (afterCalls settings start calls) d).1 = .error fault →
    (call settings (afterCalls settings start calls) d).2 = afterCalls settings start calls
  /-- If it succeeds on a record, there is one more entry, under the name of the record, and its
  lines are those that the code shows. -/
  record : ∀ r text, (call settings (afterCalls settings start calls) (.record r)).1 = .ok text →
    r.name ∉ Table.keys (afterCalls settings start calls)
      ∧ ∃ lines, (call settings (afterCalls settings start calls) (.record r)).2
          = afterCalls settings start calls ++ [(r.name, lines)]
        ∧ text = "type " ++ r.name ++ " \x7b" ++ "\n"
          ++ String.join (lines.map fun line => "  " ++ line ++ "\n") ++ "\x7d"
  /-- If it succeeds on an enumeration, there is none. -/
  enumeration : ∀ e text,
    (call settings (afterCalls settings start calls) (.enumeration e)).1 = .ok text →
    (call settings (afterCalls settings start calls) (.enumeration e)).2
      = afterCalls settings start calls
  /-- An entry stays as it is, whatever is called for later. -/
  permanent : ∀ name lines, Table.get? (afterCalls settings start calls) name = some lines →
    ∀ more, Table.get? (afterCalls settings start (calls ++ more)) name = some lines
  /-- A record that was written under a parent has, between two marks, exactly the lines of the
  parent's entry, and then its own. On top is the identity line, if the record is a persisted base
  and its parent has no line for the identity. -/
  under : ∀ before r after parent text, calls = before ++ .record r :: after →
    (call settings (afterCalls settings start before) (.record r)).1 = .ok text →
    r.parent = some parent →
    ∃ above own, Table.get? (afterCalls settings start calls) parent = some above
      ∧ Translates settings r own
      ∧ Table.get? (afterCalls settings start calls) r.name
        = some ((if r.dbBase ∧ ∀ line ∈ above, ¬"_id:".toList <+: line.toList
              then ["_id: ID!"] else [])
            ++ (("# START Inherited from " ++ parent) :: above
              ++ ["# END Inherited from " ++ parent]) ++ own)
  /-- A record that was written without a parent has its own lines only, below the identity line if
  it is a persisted base. -/
  top : ∀ before r after text, calls = before ++ .record r :: after →
    (call settings (afterCalls settings start before) (.record r)).1 = .ok text →
    r.parent = none →
    ∃ own, Translates settings r own
      ∧ Table.get? (afterCalls settings start calls) r.name
        = some ((if r.dbBase then ["_id: ID!"] else []) ++ own)

/-- After any calls for code, in any order and with any definitions, the registry holds for every
record that was written the lines that its code shows, once and for all, and they are made of the
lines of its parent in the way in which types are flattened. -/
theorem calls_recorded (settings : Settings) (start : FieldLines) (calls : List Definition) :
    Recorded settings start calls where
  agrees := call_eq settings _
  failing _ _ := call_error
  record r text h := by
    obtain ⟨lines, -, hnew, hafter, htext⟩ := call_record h
    exact ⟨hnew, lines, hafter, htext⟩
  enumeration e _ _ := by
    rw [call_eq]
    rfl
  permanent name lines h more := by
    rw [afterCalls_append]
    exact get?_afterCalls h more
  under before r after parent text hcalls h hparent := by
    obtain ⟨lines, hlines, hentry⟩ := get?_written h after
    obtain ⟨inherited, own, hinherited, hown, rfl⟩ := recordLines_eq_ok hlines
    obtain ⟨above, habove, rfl⟩ := inheritedLines_eq_ok hparent hinherited
    refine ⟨above, own, ?_, translates_of_mapM hown, ?_⟩
    · rw [hcalls, afterCalls_append]
      exact get?_afterCalls habove _
    · rw [any_declaresIdentity_marked, identity_eq] at hentry
      rw [hcalls]
      exact hentry
  top before r after text hcalls h hparent := by
    obtain ⟨lines, hlines, hentry⟩ := get?_written h after
    obtain ⟨inherited, own, hinherited, hown, rfl⟩ := recordLines_eq_ok hlines
    obtain rfl : [] = inherited := by
      rw [inheritedLines, hparent] at hinherited
      exact Except.ok.inj hinherited
    refine ⟨own, translates_of_mapM hown, ?_⟩
    rw [hcalls, hentry]
    simp [identityLine]

/-- A type that is called for before its parent is written when it is called for again. -/
example :
    let pen : Definition := .record { name := "Pen", parent := some "Item" }
    let item : Definition := .record {
      name := "Item", fields := [⟨"owner", .required (.primitive "string")⟩], dbBase := true }
    afterCalls {} [] [pen, item, pen] = [
      ("Item", ["_id: ID!", "owner: String!"]),
      ("Pen", ["# START Inherited from Item", "_id: ID!", "owner: String!",
        "# END Inherited from Item"])] := by
  rfl

end SchemaGen.GraphQL
