import SchemaGen.Artifacts
import SchemaGen.Proofs.Scanning

/-!
# Reading declarations back

For each target a reader that takes the code of one type and says what it
declares: the name, the name of the record whose fields are taken over, and
what the entries of the body hold. The readers know the forms of the three
targets and nothing of the model.

For each target and each kind of definition one theorem says that the code
reads back as what the definition holds: `declaration?_recordCode`,
`declaration?_typeCode` and `declaration?_enumCode`. The fields are compared
by the `Shows` relations, which keep the text of a type as the target writes
it. The names have to be identifiers and the field types spelled (`Legible`),
or the signs of the targets could be taken for parts of them.
-/

namespace SchemaGen

open SchemaGen.Model
open SchemaGen.Text (Word)

/-- What the code of a type declares: a record, with the name of the one whose fields it takes
over and with what is read of its own fields, or an enumeration, with what is read of its values.
-/
inductive Declaration (φ ν : Type) where
  | record (name : String) (parent : Option String) (fields : List φ)
  | enumeration (name : String) (values : List ν)

def Declaration.name {φ ν : Type} : Declaration φ ν → String
  | .record name _ _ => name
  | .enumeration name _ => name

/-! ## Records whose code can be read -/

/-- The name of a field and those in its type are identifiers, and the type was read. -/
structure Model.Field.Legible (field : Field) : Prop where
  name : Text.PlainIdentifier field.name
  type : field.type.Spelled
  references : ∀ ref ∈ field.type.references, Text.PlainIdentifier ref

theorem Model.Field.Legible.words {field : Field} (h : field.Legible) :
    ∀ ref ∈ field.type.unwrap.references, Word ref := by
  intro ref href
  rw [FieldType.references_unwrap] at href
  exact (h.references ref href).word

/-- The names that a record mentions are identifiers. -/
structure Model.Record.Legible (r : Record) : Prop where
  name : Text.PlainIdentifier r.name
  parent : ∀ parent, r.parent = some parent → Text.PlainIdentifier parent
  fields : ∀ field ∈ r.fields, field.Legible

theorem Model.Record.Legible.namedParent? {r : Record} (hr : r.Legible) :
    r.namedParent? = r.parent := by
  rw [Record.namedParent?]
  cases hp : r.parent with
  | none => rfl
  | some parent =>
      have hne : parent ≠ "" := by
        rintro rfl
        exact absurd (hr.parent "" hp).1 (by decide)
      simp [hne]

theorem exists_mapM_of_forall₂ {α β γ : Type} {R : α → β → Prop} {Q : α → γ → Prop}
    {read : β → Option γ} {items : List α} {made : List β} (h : List.Forall₂ R items made)
    (hread : ∀ a ∈ items, ∀ b, R a b → ∃ c, read b = some c ∧ Q a c) :
    ∃ cs, made.mapM read = some cs ∧ List.Forall₂ Q items cs := by
  induction h with
  | nil => exact ⟨[], rfl, .nil⟩
  | @cons a b items made hfirst _ ih =>
      obtain ⟨c, hc, hQ⟩ := hread a (List.mem_cons_self ..) b hfirst
      obtain ⟨cs, hcs, hall⟩ := ih fun other hother => hread other (List.mem_cons_of_mem _ hother)
      refine ⟨c :: cs, ?_, .cons hQ hall⟩
      rw [List.mapM_cons, hc, hcs]
      rfl

/-! ## TypeScript -/

namespace TypeScript

/-- What an interface says about a field. -/
structure Property where
  name : String
  optional : Bool
  type : String
  deriving DecidableEq, Repr

structure Member where
  name : String
  value : String
  deriving DecidableEq, Repr

/-- The property that an entry declares. -/
def property? (s : List Char) : Option Property :=
  let (name, rest) := Text.word s
  let (optional, rest) := match rest with
    | '?' :: rest => (true, rest)
    | _ => (false, rest)
  (Text.between? [':', ' '] [';'] rest).map fun type => ⟨name, optional, String.ofList type⟩

def member? (s : List Char) : Option Member :=
  let (name, rest) := Text.scan (· != ' ') s
  ((Text.between? [' ', '=', ' '] [','] rest).bind Json.decodedText?).map fun value =>
    ⟨name, value⟩

/-- The declaration of an alias, from what follows its name. -/
def alias? (name : String) (s : List Char) : Option (Declaration Property Member) :=
  (Text.between? [' ', '=', ' '] [';'] s).map fun parent =>
    .record name (some (String.ofList parent)) []

def interface? (name : String) (s : List Char) : Option (Declaration Property Member) :=
  let (parent, rest) := match s.dropPrefix? " extends ".toList with
    | some rest => ((Text.word rest).1, (Text.word rest).2)
    | none => (none, s)
  (Text.body? [' ', '\x7b'] ['\x7d'] property? rest).map fun fields => .record name parent fields

def enum? (name : String) (s : List Char) : Option (Declaration Property Member) :=
  (Text.body? [' ', '\x7b'] ['\x7d'] member? s).map fun members => .enumeration name members

/-- The declaration that a piece of code makes. -/
def declaration? (code : String) : Option (Declaration Property Member) :=
  match Text.exported? code.toList with
  | some ("type", name, rest) => alias? name rest
  | some ("interface", name, rest) => interface? name rest
  | some ("enum", name, rest) => enum? name rest
  | _ => none

/-- `p` is the property of a field. -/
def Property.Shows (field : Field) (p : Property) : Prop :=
  p.name = field.name ∧ p.optional = !field.type.isRequired
    ∧ TypeScript.typeText field.type = .ok p.type

theorem property?_fieldLine {field : Field} (hfield : field.Legible) {line : String}
    (h : fieldLine field = .ok line) :
    ∃ p, property? line.toList = some p ∧ p.Shows field := by
  obtain ⟨text, htext, rfl⟩ := map_eq_ok h
  refine ⟨⟨field.name, !field.type.isRequired, text⟩, ?_, rfl, rfl, htext⟩
  have htype : Text.between? [':', ' '] [';'] (':' :: ' ' :: (text.toList ++ [';']))
      = some text.toList := Text.between?_append [':', ' '] [';'] text.toList
  rw [Json.propertyName, if_pos hfield.name.1]
  cases field.type.isRequired with
  | true =>
      have hline : (field.name ++ "" ++ ": " ++ text ++ ";").toList
          = field.name.toList ++ ':' :: ' ' :: (text.toList ++ [';']) := by simp
      simp only [if_true, hline]
      rw [property?, Text.word_append hfield.name.word (by decide)]
      simp [htype]
  | false =>
      have hline : (field.name ++ "?" ++ ": " ++ text ++ ";").toList
          = field.name.toList ++ '?' :: ':' :: ' ' :: (text.toList ++ [';']) := by simp
      simp only [Bool.false_eq_true, if_false, hline]
      rw [property?, Text.word_append hfield.name.word (by decide)]
      simp [htype]

theorem fieldLine_not_mem {field : Field} (hfield : field.Legible) {line : String}
    (h : fieldLine field = .ok line) : '\n' ∉ line.toList := by
  obtain ⟨text, htext, rfl⟩ := map_eq_ok h
  obtain ⟨w, hword, hw⟩ := typeText_shape hfield.type.unwrap_shape hfield.words
  obtain rfl := Except.ok.inj (htext.symm.trans ((typeText_unwrap _).symm.trans hw))
  rw [Json.propertyName, if_pos hfield.name.1]
  split_ifs <;> simp [hfield.name.2, hword.feed_not_mem]

theorem interface?_base {name : String} {rest : List Char} {properties : List Property}
    (h : Text.body? [' ', '\x7b'] ['\x7d'] property? (' ' :: '\x7b' :: rest) = some properties) :
    interface? name (' ' :: '\x7b' :: rest) = some (.record name none properties) := by
  have hbase : (' ' :: '\x7b' :: rest).dropPrefix? " extends ".toList = none := rfl
  rw [interface?, hbase]
  simp only [h, Option.map_some]

theorem interface?_extends {name parent : String} {rest : List Char} {properties : List Property}
    (hparent : Word parent)
    (h : Text.body? [' ', '\x7b'] ['\x7d'] property? (' ' :: '\x7b' :: rest) = some properties) :
    interface? name (" extends ".toList ++ (parent.toList ++ ' ' :: '\x7b' :: rest))
      = some (.record name (some parent) properties) := by
  rw [interface?, Text.dropPrefix?_append]
  simp only [Text.word_append hparent (show Text.isWordChar ' ' = false by decide), h,
    Option.map_some]

theorem declaration?_alias {name : String} (hname : Word name) (parent : String) :
    declaration? ("export type " ++ name ++ " = " ++ parent ++ ";")
      = some (.record name (some parent) []) := by
  have htext : ("export type " ++ name ++ " = " ++ parent ++ ";").toList
      = "export ".toList ++ ("type".toList ++ ' ' :: (name.toList
        ++ ' ' :: ('=' :: ' ' :: (parent.toList ++ [';'])))) := by simp
  have hparent : Text.between? [' ', '=', ' '] [';']
        (' ' :: '=' :: ' ' :: (parent.toList ++ [';']))
      = some parent.toList := Text.between?_append [' ', '=', ' '] [';'] parent.toList
  rw [declaration?, htext, Text.exported?_append (by decide) hname (by decide)]
  show alias? _ _ = _
  rw [alias?, hparent, Option.map_some, String.ofList_toList]

theorem declaration?_interface {name extension : String} {parent : Option String}
    (hextension : extension = match parent with
      | some p => " extends " ++ p
      | none => "")
    (hname : Word name) (hparent : ∀ p, parent = some p → Word p)
    {lines : List String} (hlines : ∀ line ∈ lines, '\n' ∉ line.toList)
    {properties : List Property}
    (hread : (lines.map String.toList).mapM property? = some properties) :
    declaration? (Text.block ("export interface " ++ name ++ extension ++ " \x7b") lines "\x7d")
      = some (.record name parent properties) := by
  have hbody : Text.body? [' ', '\x7b'] ['\x7d'] property?
      (' ' :: '\x7b' :: Text.blockRest lines ['\x7d']) = some properties :=
    (Text.body?_append [' ', '\x7b'] ['\x7d'] property? fun line hline =>
      Text.unbroken_of_not_mem (hlines line hline)).trans hread
  rw [declaration?, Text.toList_block, hextension]
  cases parent with
  | none =>
      have hhead : ("export interface " ++ name ++ "" ++ " \x7b").toList
          ++ Text.blockRest lines "\x7d".toList
          = "export ".toList ++ ("interface".toList ++ ' ' :: (name.toList
            ++ ' ' :: ('\x7b' :: Text.blockRest lines ['\x7d']))) := by simp
      rw [hhead, Text.exported?_append (by decide) hname (by decide)]
      exact interface?_base hbody
  | some p =>
      have hhead : ("export interface " ++ name ++ (" extends " ++ p) ++ " \x7b").toList
          ++ Text.blockRest lines "\x7d".toList
          = "export ".toList ++ ("interface".toList ++ ' ' :: (name.toList
            ++ ' ' :: ("extends ".toList ++ (p.toList
              ++ ' ' :: ('\x7b' :: Text.blockRest lines ['\x7d']))))) := by simp
      rw [hhead, Text.exported?_append (by decide) hname (by decide)]
      exact interface?_extends (hparent p rfl) hbody

theorem declaration?_recordCode {r : Record} (hr : r.Legible) {text : String}
    (h : recordCode r = .ok text) :
    ∃ properties, declaration? text = some (.record r.name r.parent properties)
      ∧ List.Forall₂ Property.Shows r.fields properties := by
  unfold recordCode at h
  split at h
  · rename_i parent hfields hparent
    obtain rfl := Except.ok.inj h
    rw [hfields, hparent]
    exact ⟨[], declaration?_alias hr.name.word parent, .nil⟩
  · obtain ⟨lines, hlines, h⟩ := bind_eq_ok h
    obtain rfl := Except.ok.inj h
    obtain ⟨properties, hread, hall⟩ := exists_mapM_of_forall₂ (forall₂_of_mapM hlines)
      fun field hfield line hline => property?_fieldLine (hr.fields field hfield) hline
    have hunbroken : ∀ line ∈ lines, '\n' ∉ line.toList := by
      intro line hline
      obtain ⟨field, hfield, hline⟩ := exists_of_mem_mapM hlines line hline
      exact fieldLine_not_mem (hr.fields field hfield) hline
    refine ⟨properties, ?_, hall⟩
    rw [hr.namedParent?]
    exact declaration?_interface rfl hr.name.word (fun p hp => (hr.parent p hp).word) hunbroken
      (List.mapM_map.trans hread)

example : declaration? "export interface B extends A \x7b\n  x?: string[];\n\x7d"
    = some (.record "B" (some "A") [⟨"x", true, "string[]"⟩]) := by
  rfl

theorem member?_memberLine {value : String} (hvalue : Text.isGraphQLName value = true) :
    member? (memberLine value).toList = some ⟨value, value⟩ := by
  have hblank : ∀ c ∈ value.toList, (c != ' ') = true := by
    intro c hc
    rcases Text.mem_of_isGraphQLName hvalue hc with hchar | rfl
    · refine bne_iff_ne.mpr ?_
      rintro rfl
      exact absurd hchar (by decide)
    · decide
  have hline : (memberLine value).toList = value.toList
      ++ ' ' :: ('=' :: ' ' :: ((Json.stringLiteral value).toList ++ [','])) := by
    rw [memberLine, Json.propertyName, if_pos (Text.isIdentifier_of_isGraphQLName hvalue)]
    simp
  have hliteral := Text.between?_append [' ', '=', ' '] [','] (Json.stringLiteral value).toList
  simp only [List.cons_append, List.nil_append] at hliteral
  rw [member?, hline, Text.scan_append hblank rfl]
  simp only [hliteral, Option.bind_some, Json.decodedText?_stringLiteral, Option.map_some]

theorem memberLine_unbroken {value : String} (hvalue : Text.isGraphQLName value = true) :
    Text.Unbroken (memberLine value).toList := by
  have hliteral : '\n' ∉ (Json.stringLiteral value).toList := fun hmem =>
    absurd (Json.printed_of_mem_stringLiteral hmem).1 (by decide)
  rw [memberLine, Json.propertyName, if_pos (Text.isIdentifier_of_isGraphQLName hvalue)]
  rcases Text.isGraphQLName_cases hvalue with hfeed | ⟨word, hword, hfeed⟩
  · refine Text.unbroken_of_not_mem ?_
    simp [hfeed, hliteral]
  · have hline : (value ++ " = " ++ Json.stringLiteral value ++ ",").toList
        = word ++ '\n' :: (' ' :: '=' :: ' ' :: ((Json.stringLiteral value).toList ++ [','])) := by
      simp [hword]
    rw [hline]
    exact Text.unbroken_around hfeed (by simp [hliteral]) (by simp)

theorem declaration?_enumCode {e : Enumeration} (hname : Word e.name)
    (hvalues : ∀ value ∈ e.values, Text.isGraphQLName value = true) :
    declaration? (enumCode e)
      = some (.enumeration e.name (e.values.map fun value => ⟨value, value⟩)) := by
  have hhead : ("export enum " ++ e.name ++ " \x7b").toList
        ++ Text.blockRest (e.values.map memberLine) "\x7d".toList
      = "export ".toList ++ ("enum".toList ++ ' ' :: (e.name.toList
        ++ ' ' :: ('\x7b' :: Text.blockRest (e.values.map memberLine) ['\x7d']))) := by simp
  have hunbroken : ∀ line ∈ e.values.map memberLine, Text.Unbroken line.toList := by
    intro line hline
    obtain ⟨value, hvalue, rfl⟩ := List.mem_map.mp hline
    exact memberLine_unbroken (hvalues value hvalue)
  have hbody : Text.body? [' ', '\x7b'] ['\x7d'] member?
        (' ' :: '\x7b' :: Text.blockRest (e.values.map memberLine) ['\x7d'])
      = some (e.values.map fun value => ⟨value, value⟩) := by
    have hmembers : ∀ value ∈ e.values,
        (member? ∘ String.toList ∘ memberLine) value = some ⟨value, value⟩ := by
      intro value hvalue
      rw [Function.comp_apply, Function.comp_apply]
      exact member?_memberLine (hvalues value hvalue)
    refine (Text.body?_append [' ', '\x7b'] ['\x7d'] member? hunbroken).trans ?_
    rw [List.map_map, List.mapM_map]
    exact mapM_eq_some_map hmembers
  rw [declaration?, enumCode, Text.toList_block, hhead,
    Text.exported?_append (by decide) hname (by decide)]
  show enum? _ _ = _
  rw [enum?, hbody, Option.map_some]

end TypeScript

/-! ## Mongoose -/

namespace Mongoose

/-- A path of a schema definition. -/
structure Path where
  name : String
  type : String
  required : Bool
  deriving DecidableEq, Repr

/-- The type that the value of a path gives, and whether it makes the path required. -/
def value? (s : List Char) : Option (String × Bool) :=
  match s.dropPrefix? "\x7b type: ".toList with
  | none => some (String.ofList s, false)
  | some options =>
    match options.dropSuffix? ", required: true \x7d".toList with
    | some type => some (String.ofList type, true)
    | none => (options.dropSuffix? " \x7d".toList).map fun type => (String.ofList type, false)

def path? (s : List Char) : Option Path :=
  let (name, rest) := Text.word s
  ((Text.between? [':', ' '] [','] rest).bind value?).map fun (type, required) =>
    ⟨name, type, required⟩

/-- The declaration of an object, from its entries. The first of them may spread another one. -/
def object? (name : String) : List (List Char) → Option (Declaration Path String)
  | [] => some (.record name none [])
  | first :: rest =>
    match Text.between? ['.', '.', '.'] [','] first with
    | some parent =>
      (rest.mapM path?).map fun paths => .record name (some (String.ofList parent)) paths
    | none => ((first :: rest).mapM path?).map fun paths => .record name none paths

def constant? (name : String) (value : List Char) : Option (Declaration Path String) :=
  match Text.between? "\x7b type: String, enum: ".toList " \x7d;".toList value with
  | some literal => (Json.decodedTexts? literal).map fun values => .enumeration name values
  | none =>
    match value.dropPrefix? "\x7b".toList with
    | some rest => (Text.entries? "\x7d;".toList rest).bind (object? name)
    | none =>
      (value.dropSuffix? ";".toList).map fun parent => .record name (some (String.ofList parent)) []

/-- The declaration that a piece of code makes. The names are those of the constants. -/
def declaration? (code : String) : Option (Declaration Path String) :=
  match Text.exported? code.toList with
  | some ("const", name, rest) =>
    (rest.dropPrefix? ": SchemaDefinition = ".toList).bind (constant? name)
  | _ => none

variable {settings : Settings}

/-- `p` is the path of a field. -/
def Path.Shows (settings : Settings) (field : Field) (p : Path) : Prop :=
  p.name = field.name ∧ p.required = enforced settings field.type
    ∧ Mongoose.typeText settings field.type.unwrap = .ok p.type

theorem value?_enforced (text : String) :
    value? ("\x7b type: " ++ text ++ ", required: true \x7d").toList = some (text, true) := by
  rw [value?, String.toList_append, String.toList_append, List.append_assoc,
    Text.dropPrefix?_append]
  simp only [Text.dropSuffix?_append, String.ofList_toList]

theorem value?_array (word : String) :
    value? ("\x7b type: " ++ ("[" ++ word ++ "]") ++ " \x7d").toList
      = some ("[" ++ word ++ "]", false) := by
  have hoptional : (("[" ++ word ++ "]").toList ++ " \x7d".toList).dropSuffix?
      ", required: true \x7d".toList = none := by
    rw [Option.eq_none_iff_forall_ne_some]
    intro type htype
    obtain ⟨back, heq, hback⟩ := List.dropSuffix?_eq_some_iff.mp htype
    obtain rfl := eq_of_beq hback
    -- the bracket stands where the required option would have its last letter
    have hends : (type ++ ", required: tru".toList) ++ ['e', ' ', '\x7d']
        = ('[' :: word.toList) ++ [']', ' ', '\x7d'] := by
      rw [List.append_assoc]
      exact heq.symm.trans (by simp)
    exact absurd (List.append_inj_right' hends rfl) (by decide)
  rw [value?, String.toList_append, String.toList_append, List.append_assoc,
    Text.dropPrefix?_append]
  simp only [hoptional, Text.dropSuffix?_append, String.ofList_toList, Option.map_some]

theorem value?_plain {word : String} (hword : Word word ∨ word = "\x7b\x7d") :
    value? word.toList = some (word, false) := by
  have hblank : ' ' ∉ word.toList := by
    rcases hword with hword | rfl
    · exact hword.blank_not_mem
    · decide
  rw [value?, Text.dropPrefix?_eq_none (by decide) hblank, String.ofList_toList]

theorem value?_pathValue (hsuffix : Word settings.ormSuffix.display) {field : Field}
    (hfield : field.Legible) {value : String} (h : pathValue settings field.type = .ok value) :
    ∃ text, typeText settings field.type.unwrap = .ok text
      ∧ value? value.toList = some (text, enforced settings field.type) := by
  obtain ⟨text, htext, rfl⟩ := map_eq_ok h
  refine ⟨text, htext, ?_⟩
  obtain ⟨w, hword, hw⟩ := typeText_shape hsuffix hfield.type.unwrap_shape hfield.words
  obtain rfl := Except.ok.inj (htext.symm.trans hw)
  cases enforced settings field.type with
  | true => exact value?_enforced _
  | false =>
      cases field.type.unwrap.isArray with
      | true => exact value?_array w
      | false => exact value?_plain hword

theorem path?_fieldLine (hsuffix : Word settings.ormSuffix.display) {field : Field}
    (hfield : field.Legible) {line : String} (h : fieldLine settings field = .ok line) :
    ∃ p, path? line.toList = some p ∧ p.Shows settings field := by
  obtain ⟨value, hvalue, rfl⟩ := map_eq_ok h
  obtain ⟨text, htext, hread⟩ := value?_pathValue hsuffix hfield hvalue
  refine ⟨⟨field.name, text, enforced settings field.type⟩, ?_, rfl, rfl, htext⟩
  have hline : (field.name ++ ": " ++ value ++ ",").toList
      = field.name.toList ++ ':' :: (' ' :: (value.toList ++ [','])) := by simp
  have hbetween : Text.between? [':', ' '] [','] (':' :: ' ' :: (value.toList ++ [',']))
      = some value.toList := Text.between?_append [':', ' '] [','] value.toList
  rw [Json.propertyName, if_pos hfield.name.1, hline, path?,
    Text.word_append hfield.name.word (by decide)]
  simp only [hbetween, Option.bind_some, hread, Option.map_some]

theorem fieldLine_not_mem (hsuffix : Word settings.ormSuffix.display) {field : Field}
    (hfield : field.Legible) {line : String} (h : fieldLine settings field = .ok line) {c : Char}
    (hc : c = '\n' ∨ c = '.') : c ∉ line.toList := by
  obtain ⟨value, hvalue, rfl⟩ := map_eq_ok h
  obtain ⟨text, htext, rfl⟩ := map_eq_ok hvalue
  obtain ⟨w, hword, hw⟩ := typeText_shape hsuffix hfield.type.unwrap_shape hfield.words
  obtain rfl := Except.ok.inj (htext.symm.trans hw)
  have hname : c ∉ field.name.toList :=
    hfield.name.word.not_mem (by rcases hc with rfl | rfl <;> decide)
  have htype : c ∉ w.toList := by
    rcases hword with hword | rfl
    · exact hword.not_mem (by rcases hc with rfl | rfl <;> decide)
    · rcases hc with rfl | rfl <;> decide
  rw [Json.propertyName, if_pos hfield.name.1]
  rcases hc with rfl | rfl <;> split_ifs <;> simp [hname, htype]

theorem constantName_word (hsuffix : Word settings.ormSuffix.display) {typeName : String}
    (h : Word typeName) : Word (constantName settings typeName) := h.append hsuffix

theorem declaration?_opening {typeName : String} (hname : Word (constantName settings typeName))
    (value : String) :
    declaration? (opening settings typeName ++ value)
      = constant? (constantName settings typeName) value.toList := by
  have hopening : (opening settings typeName ++ value).toList
      = "export ".toList ++ ("const".toList ++ ' ' :: ((constantName settings typeName).toList
        ++ ':' :: (" SchemaDefinition = ".toList ++ value.toList))) := by
    have hconst : "export const ".toList = "export ".toList ++ ("const".toList ++ [' ']) := rfl
    have hcolon : ": SchemaDefinition = ".toList = ':' :: " SchemaDefinition = ".toList := rfl
    simp only [opening, String.toList_append, hconst, hcolon, List.append_assoc, List.cons_append,
      List.nil_append]
  have hvalue : (':' :: (" SchemaDefinition = ".toList ++ value.toList)).dropPrefix?
      ": SchemaDefinition = ".toList = some value.toList :=
    Text.dropPrefix?_append ": SchemaDefinition = ".toList value.toList
  rw [declaration?, hopening, Text.exported?_append (by decide) hname (by decide)]
  simp only [hvalue, Option.bind_some]

theorem constant?_alias {name parent : String} (hparent : Word parent) :
    constant? name (parent ++ ";").toList = some (.record name (some parent) []) := by
  have hblank : ' ' ∉ (parent ++ ";").toList := by
    simp [hparent.blank_not_mem]
  have hbrace : '\x7b' ∉ (parent ++ ";").toList := by
    simp [hparent.not_mem (show Text.isWordChar '\x7b' = false by decide)]
  have henum : Text.between? "\x7b type: String, enum: ".toList " \x7d;".toList
      (parent ++ ";").toList = none := by
    rw [Text.between?, Text.dropPrefix?_eq_none (by decide) hblank, Option.bind_none]
  rw [constant?, henum, Text.dropPrefix?_eq_none (by decide) hbrace, String.toList_append]
  simp only [Text.dropSuffix?_append, Option.map_some, String.ofList_toList]

theorem constant?_object {name : String} {lines : List String}
    (hlines : ∀ line ∈ lines, '\n' ∉ line.toList) :
    constant? name (Text.block "\x7b" lines "\x7d;").toList
      = object? name (lines.map String.toList) := by
  have hentries := Text.entries?_blockRest "\x7d;".toList fun line hline =>
    Text.unbroken_of_not_mem (hlines line hline)
  have henum : Text.between? "\x7b type: String, enum: ".toList " \x7d;".toList
      ("\x7b".toList ++ Text.blockRest lines "\x7d;".toList) = none := by
    obtain ⟨rest, hrest⟩ : ∃ rest, Text.blockRest lines "\x7d;".toList = '\n' :: rest := by
      cases lines <;> exact ⟨_, rfl⟩
    rw [hrest]
    rfl
  rw [constant?, Text.toList_block, henum, Text.dropPrefix?_append]
  simp only [hentries, Option.bind_some]

theorem object?_base {name : String} {lines : List String} {paths : List Path}
    (hlines : ∀ line ∈ lines, '.' ∉ line.toList)
    (hread : (lines.map String.toList).mapM path? = some paths) :
    object? name (lines.map String.toList) = some (.record name none paths) := by
  cases lines with
  | nil =>
      obtain rfl := Option.some.inj hread
      rfl
  | cons first lines =>
      have hspread : Text.between? ['.', '.', '.'] [','] first.toList = none := by
        rw [Text.between?, Text.dropPrefix?_eq_none (by decide)
          (hlines first (List.mem_cons_self ..)), Option.bind_none]
      rw [List.map_cons, object?, hspread, ← List.map_cons]
      simp only [hread, Option.map_some]

theorem object?_spread {name parent : String} {lines : List String} {paths : List Path}
    (hread : (lines.map String.toList).mapM path? = some paths) :
    object? name ((("..." ++ parent ++ ",") :: lines).map String.toList)
      = some (.record name (some parent) paths) := by
  have hspread : ("..." ++ parent ++ ",").toList = ['.', '.', '.'] ++ (parent.toList ++ [',']) := by
    simp
  rw [List.map_cons, object?, hspread, Text.between?_append]
  simp only [hread, Option.map_some, String.ofList_toList]

theorem declaration?_object {name : String} {parent : Option String} {spread : List String}
    (hspread : spread = match parent with
      | some p => ["..." ++ constantName settings p ++ ","]
      | none => [])
    (hname : Word (constantName settings name))
    (hparent : ∀ p, parent = some p → Word (constantName settings p))
    {lines : List String} (hlines : ∀ line ∈ lines, '\n' ∉ line.toList ∧ '.' ∉ line.toList)
    {paths : List Path} (hread : (lines.map String.toList).mapM path? = some paths) :
    declaration? (Text.block (opening settings name ++ "\x7b") (spread ++ lines) "\x7d;")
      = some (.record (constantName settings name) (parent.map (constantName settings)) paths) := by
  have hblock : Text.block (opening settings name ++ "\x7b") (spread ++ lines) "\x7d;"
      = opening settings name ++ Text.block "\x7b" (spread ++ lines) "\x7d;" := by
    simp only [Text.block, String.append_assoc]
  rw [hblock, declaration?_opening hname, hspread]
  cases parent with
  | none =>
      rw [List.nil_append, constant?_object fun line hline => (hlines line hline).1]
      exact object?_base (fun line hline => (hlines line hline).2) hread
  | some p =>
      have hfirst : '\n' ∉ ("..." ++ constantName settings p ++ ",").toList := by
        simp [(hparent p rfl).feed_not_mem]
      rw [List.singleton_append, constant?_object (List.forall_mem_cons.mpr ⟨hfirst,
        fun line hline => (hlines line hline).1⟩)]
      exact object?_spread hread

/-- The constant of a record reads back as its name, that of its parent's constant and its
paths. -/
theorem declaration?_recordCode (hsuffix : Word settings.ormSuffix.display) {r : Record}
    (hr : r.Legible) {text : String} (h : recordCode settings r = .ok text) :
    ∃ paths, declaration? text = some (.record (constantName settings r.name)
        (r.parent.map (constantName settings)) paths)
      ∧ List.Forall₂ (Path.Shows settings) r.fields paths := by
  have hname := constantName_word hsuffix hr.name.word
  have hparent : ∀ p, r.parent = some p → Word (constantName settings p) :=
    fun p hp => constantName_word hsuffix (hr.parent p hp).word
  unfold recordCode at h
  split at h
  · rename_i parent hfields hp
    obtain rfl := Except.ok.inj h
    refine ⟨[], ?_, hfields ▸ .nil⟩
    rw [String.append_assoc, declaration?_opening hname, constant?_alias (hparent parent hp), hp]
    rfl
  · obtain ⟨lines, hlines, h⟩ := bind_eq_ok h
    obtain rfl := Except.ok.inj h
    obtain ⟨paths, hread, hall⟩ := exists_mapM_of_forall₂ (forall₂_of_mapM hlines)
      fun field hfield line hline => path?_fieldLine hsuffix (hr.fields field hfield) hline
    have hplain : ∀ line ∈ lines, '\n' ∉ line.toList ∧ '.' ∉ line.toList := by
      intro line hline
      obtain ⟨field, hfield, hline⟩ := exists_of_mem_mapM hlines line hline
      have hlegible := hr.fields field hfield
      exact ⟨fieldLine_not_mem hsuffix hlegible hline (Or.inl rfl),
        fieldLine_not_mem hsuffix hlegible hline (Or.inr rfl)⟩
    refine ⟨paths, ?_, hall⟩
    rw [hr.namedParent?]
    exact declaration?_object rfl hname hparent hplain (List.mapM_map.trans hread)

example : declaration?
      ("export const BDef: SchemaDefinition = \x7b\n  ...ADef,\n"
        ++ "  x: \x7b type: [String] \x7d,\n\x7d;")
    = some (.record "BDef" (some "ADef") [⟨"x", "[String]", false⟩]) := by
  rfl

theorem declaration?_enumCode {e : Enumeration} (hname : Word (constantName settings e.name)) :
    declaration? (enumCode settings e)
      = some (.enumeration (constantName settings e.name) e.values) := by
  have hvalue : ("\x7b type: String, enum: "
        ++ (Json.stringListLiteral e.values ++ " \x7d;")).toList
      = "\x7b type: String, enum: ".toList
        ++ ((Json.stringListLiteral e.values).toList ++ " \x7d;".toList) := by
    rw [String.toList_append, String.toList_append]
  rw [enumCode, String.append_assoc, String.append_assoc, declaration?_opening hname, hvalue,
    constant?, Text.between?_append]
  simp only [Json.decodedTexts?_stringListLiteral, Option.map_some]

end Mongoose

/-! ## GraphQL -/

namespace GraphQL

structure Line where
  name : String
  type : String
  deriving DecidableEq, Repr

def line? (s : List Char) : Option Line :=
  let (name, rest) := Text.word s
  (rest.dropPrefix? [':', ' ']).map fun type => ⟨name, String.ofList type⟩

/-- Whether an entry is neither a comment nor the line of the identity field. -/
def isDeclared (s : List Char) : Bool := s.head? != some '#' && s != identityLine.toList

/-- The declaration that a piece of code makes. A type repeats the fields of its ancestors, so it
takes over none. -/
def declaration? (code : String) : Option (Declaration Line String) :=
  match Text.heading? code.toList with
  | some ("type", name, rest) =>
    (rest.dropPrefix? [' ', '\x7b']).bind fun rest =>
      (Text.entries? ['\x7d'] rest).bind fun entries =>
        ((entries.filter isDeclared).mapM line?).map fun lines => .record name none lines
  | some ("enum", name, rest) =>
    (Text.body? [' ', '\x7b'] ['\x7d'] (fun s => some (String.ofList s)) rest).map fun values =>
      .enumeration name values
  | _ => none

/-- `l` is the line of a field. -/
def Line.Shows (settings : Settings) (field : Field) (l : Line) : Prop :=
  l.name = field.name ∧ GraphQL.typeText settings field.type = .ok l.type

theorem line?_append {name : String} (hname : Word name) (type : String) :
    line? (name ++ ": " ++ type).toList = some ⟨name, type⟩ := by
  have hline : (name ++ ": " ++ type).toList = name.toList ++ ':' :: (' ' :: type.toList) := by simp
  have htype := Text.dropPrefix?_append [':', ' '] type.toList
  simp only [List.cons_append, List.nil_append] at htype
  rw [line?, hline, Text.word_append hname (by decide)]
  simp only [htype, Option.map_some, String.ofList_toList]

/-- A type reads back as its name and its declared fields. -/
theorem declaration?_typeCode {name : String} (hname : Word name) {lines : List String}
    {fields : List Line} (hlines : ∀ line ∈ lines, '\n' ∉ line.toList)
    (hread : ((lines.map String.toList).filter isDeclared).mapM line? = some fields) :
    declaration? (typeCode name lines) = some (.record name none fields) := by
  have hhead : ("type " ++ name ++ " \x7b").toList ++ Text.blockRest lines "\x7d".toList
      = "type".toList ++ ' ' :: (name.toList
        ++ ' ' :: ('\x7b' :: Text.blockRest lines ['\x7d'])) := by simp
  have hopening := Text.dropPrefix?_append [' ', '\x7b'] (Text.blockRest lines ['\x7d'])
  simp only [List.cons_append, List.nil_append] at hopening
  rw [declaration?, typeCode, Text.toList_block, hhead,
    Text.heading?_append (by decide) hname (by decide)]
  simp only [hopening, Option.bind_some, Text.entries?_blockRest ['\x7d'] fun line hline =>
    Text.unbroken_of_not_mem (hlines line hline), hread, Option.map_some]

example : declaration? "type B \x7b\n  # START Inherited from A\n  _id: ID!\n  x: [String!]\n\x7d"
    = some (.record "B" none [⟨"x", "[String!]"⟩]) := by
  rfl

theorem value_unbroken {value : String} (hvalue : Text.isGraphQLName value = true) :
    Text.Unbroken value.toList := by
  rcases Text.isGraphQLName_cases hvalue with hfeed | ⟨word, hword, hfeed⟩
  · exact Text.unbroken_of_not_mem hfeed
  · rw [hword]
    exact Text.unbroken_around hfeed (by simp) (by simp)

theorem declaration?_enumCode {e : Enumeration} (hname : Word e.name)
    (hvalues : ∀ value ∈ e.values, Text.isGraphQLName value = true) :
    declaration? (enumCode e) = some (.enumeration e.name e.values) := by
  have hhead : ("enum " ++ e.name ++ " \x7b").toList ++ Text.blockRest e.values "\x7d".toList
      = "enum".toList ++ ' ' :: (e.name.toList
        ++ ' ' :: ('\x7b' :: Text.blockRest e.values ['\x7d'])) := by simp
  have hbody := Text.body?_append [' ', '\x7b'] ['\x7d'] (fun s => some (String.ofList s))
    fun value hvalue => value_unbroken (hvalues value hvalue)
  have hself : (e.values.map String.toList).mapM (fun s => some (String.ofList s))
      = some e.values := by
    rw [List.mapM_map]
    refine (mapM_eq_some_map fun value _ => ?_).trans (congrArg some (List.map_id e.values))
    exact congrArg some (String.ofList_toList)
  simp only [List.cons_append, List.nil_append, hself] at hbody
  rw [declaration?, enumCode, Text.toList_block, hhead,
    Text.heading?_append (by decide) hname (by decide)]
  simp only [hbody, Option.map_some]

end GraphQL
end SchemaGen
