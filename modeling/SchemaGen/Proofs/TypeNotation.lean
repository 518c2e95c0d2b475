import SchemaGen.Proofs.Translation

/-!
# Reading GraphQL types back

A mark of a required field is written behind a type, and another one behind
every item of an array, so the same sign stands for two things, at any depth
and any number of times in a row. Read from its end, a type has no ambiguity:
a closing bracket has the mark of the items before it, and every other mark is
that of a required field. `readBack` reads in this direction and counts the
brackets that are closed; what is left is a name behind as many open ones.

A text that is read as a type is the text of that type, whatever the names in
it (`typeValue_of_decodeType`). The other direction needs names that can be
told apart: they contain no sign (`Unsigned`), and neither a reference nor the
scalar for `any` is spelled like a primitive (`ToldApart`). Then every type is
read back from its text, and no two types have the same text.
-/

namespace SchemaGen.GraphQL

open SchemaGen.Model

variable {settings : Settings} {scalar : String} {type : FieldType}

/-! ## The decoder -/

/-- The type that a name stands for, with the scalar for `any`. -/
def typeNamed (scalar name : String) : FieldType :=
  if name = scalar then .primitive "any"
  else match primitives.find? (·.2 = name) with
    | some (primitive, _) => .primitive primitive
    | none => .reference name

/-- Reads a type from the end of its text, which is given in reverse, behind so many brackets that
are closed and not yet opened. -/
def readBack (scalar : String) : Nat → List Char → Option FieldType
  | closed, ']' :: '!' :: text => (readBack scalar (closed + 1) text).map .array
  | closed, '!' :: text => (readBack scalar closed text).map .required
  | closed, text =>
    if List.replicate closed '[' <+: text.reverse then
      some (typeNamed scalar (String.ofList (text.reverse.drop closed)))
    else none

/-- The field type that a GraphQL type is written for. -/
def decodeType (scalar text : String) : Option FieldType :=
  readBack scalar 0 text.toList.reverse

/-- A sign of arrays or required fields. -/
def isSign (c : Char) : Bool := c == '[' || c == ']' || c == '!'

/-- A name without such signs. -/
def Unsigned (name : String) : Prop := ∀ c ∈ name.toList, isSign c = false

instance (name : String) : Decidable (Unsigned name) :=
  decidable_of_iff (name.toList.all (!isSign ·) = true) (by simp [Unsigned])

/-- A type that can be written, whose references are not taken for anything else. -/
structure ToldApart (scalar : String) (type : FieldType) : Prop where
  written : type.Written
  unsigned : ∀ ref ∈ type.references, Unsigned ref
  apart : ∀ ref ∈ type.references, ref ∉ ["String", "Int", "Boolean", "ID"] ∧ ref ≠ scalar

theorem ToldApart.item {item : FieldType} (h : ToldApart scalar (.array item)) :
    ToldApart scalar item :=
  ⟨h.written, h.unsigned, h.apart⟩

theorem ToldApart.inner {inner : FieldType} (h : ToldApart scalar (.required inner)) :
    ToldApart scalar inner :=
  ⟨h.written, h.unsigned, h.apart⟩

/-! ## What is read is what was written -/

theorem typeValue_array {item : FieldType} {text : String}
    (h : typeValue settings item = .ok (.text text)) :
    typeValue settings (.array item) = .ok (.text ("[" ++ text ++ "!]")) := by
  rw [typeValue, h]
  rfl

theorem typeValue_required {inner : FieldType} {text : String}
    (h : typeValue settings inner = .ok (.text text)) :
    typeValue settings (.required inner) = .ok (.text (text ++ "!")) := by
  rw [typeValue, h]
  rfl

theorem primitiveIn_primitives :
    ∀ e ∈ primitives, e.1 ≠ "any" ∧ primitiveIn primitives e.1 = .ok e.2 := by
  decide

theorem typeValue_typeNamed (hany : settings.graphqlAnyScalar = .text scalar) (name : String) :
    typeValue settings (typeNamed scalar name) = .ok (.text name) := by
  unfold typeNamed
  split
  · rename_i hname
    rw [typeValue, if_pos rfl, hany, hname]
  · split
    · rename_i primitive counterpart hfind
      obtain ⟨hother, hcounterpart⟩ := primitiveIn_primitives _ (List.mem_of_find?_eq_some hfind)
      obtain rfl : counterpart = name := by simpa using List.find?_some hfind
      rw [typeValue, if_neg hother, hcounterpart]
      rfl
    · rfl

/-- The brackets that are closed behind a text stand open before it. -/
theorem typeValue_of_readBack (hany : settings.graphqlAnyScalar = .text scalar) {closed : Nat}
    {reversed : List Char} (h : readBack scalar closed reversed = some type) :
    ∃ text, typeValue settings type = .ok (.text text)
      ∧ reversed.reverse = List.replicate closed '[' ++ text.toList := by
  fun_induction readBack scalar closed reversed generalizing type with
  | case1 closed reversed ih =>
      obtain ⟨item, hitem, rfl⟩ := Option.map_eq_some_iff.mp h
      obtain ⟨text, htext, hreversed⟩ := ih hitem
      refine ⟨_, typeValue_array htext, ?_⟩
      simp [hreversed, List.replicate_succ']
  | case2 closed reversed ih =>
      obtain ⟨inner, hinner, rfl⟩ := Option.map_eq_some_iff.mp h
      obtain ⟨text, htext, hreversed⟩ := ih hinner
      refine ⟨_, typeValue_required htext, ?_⟩
      simp [hreversed]
  | case3 closed reversed _ _ hopened =>
      obtain rfl := Option.some.inj h
      refine ⟨_, typeValue_typeNamed hany _, ?_⟩
      obtain ⟨name, hname⟩ := hopened
      simp [← hname]
  | case4 => cases h

/-- A text is read only as a type that has this text. -/
theorem typeValue_of_decodeType (hany : settings.graphqlAnyScalar = .text scalar) {text : String}
    (h : decodeType scalar text = some type) : typeValue settings type = .ok (.text text) := by
  obtain ⟨written, hwritten, hreversed⟩ := typeValue_of_readBack hany h
  obtain rfl : text = written := String.toList_inj.mp (by simpa using hreversed)
  exact hwritten

/-! ## What is written is read -/

theorem counterparts_told_apart :
    ∀ e ∈ primitives, e.2 ∈ ["String", "Int", "Boolean", "ID"] ∧ Unsigned e.2 := by
  decide

theorem typeNamed_primitive {name counterpart : String} (h : (name, counterpart) ∈ primitives)
    (hscalar : counterpart ≠ scalar) : typeNamed scalar counterpart = .primitive name := by
  have hfind : ∀ e ∈ primitives, primitives.find? (·.2 = e.2) = some e := by decide
  rw [typeNamed, if_neg hscalar, hfind _ h]

theorem typeNamed_reference {name : String} (h : name ∉ ["String", "Int", "Boolean", "ID"])
    (hscalar : name ≠ scalar) : typeNamed scalar name = .reference name := by
  have hfind : primitives.find? (·.2 = name) = none := by
    refine List.find?_eq_none.mpr fun e he hname => h ?_
    exact of_decide_eq_true hname ▸ (counterparts_told_apart e he).1
  rw [typeNamed, if_neg hscalar, hfind]

/-- A name that is left is not taken for a sign, and the open brackets before it are taken off. -/
theorem readBack_name {name : String} (h : Unsigned name) (closed : Nat) :
    readBack scalar closed (name.toList.reverse ++ List.replicate closed '[')
      = some (typeNamed scalar name) := by
  have hsign : ∀ c, isSign c = true → c ≠ '[' →
      (name.toList.reverse ++ List.replicate closed '[').head? ≠ some c := by
    intro c hc hopen hhead
    rcases List.mem_append.mp (List.mem_of_head? hhead) with hmem | hmem
    · rw [h c (List.mem_reverse.mp hmem)] at hc
      cases hc
    · exact hopen (List.eq_of_mem_replicate hmem)
  unfold readBack
  split
  · rename_i heq
    exact absurd (congrArg List.head? heq) (hsign ']' rfl (by decide))
  · rename_i heq
    exact absurd (congrArg List.head? heq) (hsign '!' rfl (by decide))
  · simp

/-- The arrays around a type put their brackets before its text, and the item of an array is read
behind one more of them. -/
theorem readBack_typeValue (hany : settings.graphqlAnyScalar = .text scalar)
    (hunsigned : Unsigned scalar) (hscalar : scalar ∉ ["String", "Int", "Boolean", "ID"])
    (h : ToldApart scalar type) : ∃ text, typeValue settings type = .ok (.text text)
      ∧ ∀ closed, readBack scalar closed (text.toList.reverse ++ List.replicate closed '[')
        = some type := by
  induction type with
  | shapeless => exact h.written.elim
  | primitive name =>
      obtain ⟨value, hvalue⟩ := typeValue_ok settings h.written
      rcases typeValue_primitive hvalue with ⟨rfl, rfl⟩ | ⟨counterpart, hmem, rfl⟩
      · refine ⟨scalar, hvalue.trans (congrArg Except.ok hany), fun closed => ?_⟩
        rw [readBack_name hunsigned, typeNamed, if_pos rfl]
      · refine ⟨counterpart, hvalue, fun closed => ?_⟩
        obtain ⟨hother, hsigns⟩ := counterparts_told_apart _ hmem
        rw [readBack_name hsigns, typeNamed_primitive hmem (ne_of_mem_of_not_mem hother hscalar)]
  | reference name =>
      obtain ⟨hother, hname⟩ := h.apart name (List.mem_singleton_self _)
      refine ⟨name, rfl, fun closed => ?_⟩
      rw [readBack_name (h.unsigned name (List.mem_singleton_self _)),
        typeNamed_reference hother hname]
  | array item ih =>
      obtain ⟨text, htext, hread⟩ := ih h.item
      refine ⟨_, typeValue_array htext, fun closed => ?_⟩
      have hchars : ("[" ++ text ++ "!]").toList.reverse ++ List.replicate closed '['
          = ']' :: '!' :: (text.toList.reverse ++ List.replicate (closed + 1) '[') := by
        simp [List.replicate_succ]
      rw [hchars, readBack, hread]
      rfl
  | required inner ih =>
      obtain ⟨text, htext, hread⟩ := ih h.inner
      refine ⟨_, typeValue_required htext, fun closed => ?_⟩
      have hchars : (text ++ "!").toList.reverse ++ List.replicate closed '['
          = '!' :: (text.toList.reverse ++ List.replicate closed '[') := by
        simp
      rw [hchars, readBack, hread]
      rfl

/-- Any scalar and any references that can be told apart from the signs and from the primitives
let every type, however nested, be read back from its text. So no two types have the same text. -/
theorem decodeType_typeValue (hany : settings.graphqlAnyScalar = .text scalar)
    (hunsigned : Unsigned scalar) (hscalar : scalar ∉ ["String", "Int", "Boolean", "ID"]) :
    (∀ type, ToldApart scalar type →
      ∃ text, typeValue settings type = .ok (.text text) ∧ decodeType scalar text = some type)
      ∧ ∀ a b, ToldApart scalar a → ToldApart scalar b →
        typeValue settings a = typeValue settings b → a = b := by
  have hback : ∀ type, ToldApart scalar type →
      ∃ text, typeValue settings type = .ok (.text text) ∧ decodeType scalar text = some type := by
    intro type htype
    obtain ⟨text, htext, hread⟩ := readBack_typeValue hany hunsigned hscalar htype
    exact ⟨text, htext, by simpa [decodeType] using hread 0⟩
  refine ⟨hback, fun a b ha hb hsame => ?_⟩
  obtain ⟨text, htext, hread⟩ := hback a ha
  obtain ⟨other, hother, hreadOther⟩ := hback b hb
  obtain rfl : text = other := by
    rw [htext, hother] at hsame
    injection hsame with hsame
    injection hsame
  exact Option.some.inj (hread.symm.trans hreadOther)

/-- The mark of a required field is told apart from that of the items of an array. -/
theorem nested_types_told_apart :
    (∃ text, typeValue {} (.required (.array (.required (.array (.reference "Book")))))
        = .ok (.text text)
      ∧ decodeType "Any" text = some (.required (.array (.required (.array (.reference "Book"))))))
      ∧ typeValue {} (.array (.required (.reference "Book")))
        ≠ typeValue {} (.required (.array (.reference "Book"))) := by
  have hany : ({} : Settings).graphqlAnyScalar = .text "Any" := rfl
  have hreadable : ∀ type : FieldType, type.Written → type.references = ["Book"] →
      ToldApart "Any" type := by
    intro type hwritten hreferences
    refine ⟨hwritten, ?_, ?_⟩ <;> rw [hreferences] <;> decide
  obtain ⟨hback, hinj⟩ := decodeType_typeValue hany (by decide) (by decide)
  refine ⟨hback _ (hreadable _ trivial rfl), fun hsame => ?_⟩
  cases hinj _ _ (hreadable (.array (.required (.reference "Book"))) trivial rfl)
    (hreadable (.required (.array (.reference "Book"))) trivial rfl) hsame

end SchemaGen.GraphQL
