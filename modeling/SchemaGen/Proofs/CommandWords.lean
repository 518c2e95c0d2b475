import Mathlib.Data.List.Nodup
import SchemaGen.Command.Run
import SchemaGen.Proofs.BlankLines
import SchemaGen.Proofs.Places

/-!
# What a command line tells

The line by which a command was called is rebuilt from the values of its
parameters: the words of the arguments, then those of the options, with spaces
between them. What it shows can be read back. Words without spaces are told
apart by the spaces (`spaced_inj`), options from arguments and from values by
the dash at their start (`append_inj_of_dashes`), and options from each other
by their spellings. `optionWords_eq_of_flatMap_eq` reads the options off one by
one, which is an induction on the parameters: a word with a dash is the
spelling of the next option that is shown, and a value, if there is one, ends
before the next dash.

No order and no number of parameters is assumed, and an option that is left
out leaves no trace. So two lines are the same when they show the same.
-/

namespace SchemaGen

open SchemaGen.Json (Value)

namespace Command

/-! ## What is shown of a parameter -/

theorem Setting.isAbsent_iff {s : Setting} :
    s.isAbsent = true ↔ s = .plain .null ∨ s = .plain (.bool false) := by
  cases s with
  | plain value =>
      cases value with
      | bool b => cases b <;> simp [isAbsent]
      | _ => simp [isAbsent]
  | choice _ _ => simp [isAbsent]

namespace Parameter

variable {values : Table Setting} {p : Parameter}

/-- A parameter that does not show: it has no value, null or false, or it is an option with a value
like its default. -/
inductive Omitted (values : Table Setting) (p : Parameter) : Prop
  | missing : (∀ s, Table.get? values p.name = some s →
      s = .plain .null ∨ s = .plain (.bool false)) → Omitted values p
  | default {default s : Setting} : p.kind = .option default →
      Table.get? values p.name = some s → s.alike default = true → Omitted values p

/-- The text of the value that a parameter was given. A flag has none. -/
def text? (values : Table Setting) (p : Parameter) : Option String :=
  if p.kind = .flag then none else (p.given? values).map (·.shown p.isPath)

theorem given?_eq_none_iff : p.given? values = none ↔ ∀ s, Table.get? values p.name = some s →
    s = .plain .null ∨ s = .plain (.bool false) := by
  rw [given?, Option.filter_eq_none_iff]
  simp only [Bool.not_eq_true', Bool.not_eq_false, Setting.isAbsent_iff]

theorem get?_of_given? {s : Setting} (h : p.given? values = some s) :
    Table.get? values p.name = some s :=
  (Option.filter_eq_some_iff.mp h).1

theorem optionWords_of_argument (hkind : p.kind = .argument) : p.optionWords values = [] := by
  rw [optionWords, hkind]

theorem optionWords_of_omitted (h : p.Omitted values) : p.optionWords values = [] := by
  cases h with
  | missing h =>
      rw [optionWords, given?_eq_none_iff.mpr h]
      cases p.kind <;> rfl
  | default hkind hget halike =>
      rw [optionWords, hkind]
      cases hgiven : p.given? values with
      | none => rfl
      | some s =>
          obtain rfl := Option.some.inj (hget.symm.trans (get?_of_given? hgiven))
          exact if_pos halike

theorem optionWords_of_shown (hkind : p.kind ≠ .argument) (h : ¬p.Omitted values) :
    p.optionWords values = p.spelling :: (p.text? values).toList := by
  cases hgiven : p.given? values with
  | none => exact absurd (.missing (given?_eq_none_iff.mp hgiven)) h
  | some s =>
      rw [optionWords, text?, hgiven]
      cases hshape : p.kind with
      | argument => exact absurd hshape hkind
      | flag => rfl
      | option default =>
          have hother : ¬s.alike default = true := fun halike =>
            h (.default hshape (get?_of_given? hgiven) halike)
          simp [hother]

end Parameter

/-- The texts of the arguments that were given, in the order of the parameters. -/
def argumentTexts (parameters : List Parameter) (values : Table Setting) : List String :=
  (parameters.filter (·.kind = .argument)).filterMap (·.text? values)

theorem flatMap_argumentWords (parameters : List Parameter) (values : Table Setting) :
    parameters.flatMap (·.argumentWords values) = argumentTexts parameters values := by
  induction parameters with
  | nil => rfl
  | cons p parameters ih =>
      rw [List.flatMap_cons, ih, argumentTexts, argumentTexts, List.filter_cons]
      cases hkind : p.kind with
      | argument =>
          rw [if_pos (decide_eq_true rfl), List.filterMap_cons, Parameter.text?, hkind,
            if_neg (by simp), Parameter.argumentWords, hkind]
          cases p.given? values <;> rfl
      | flag => simp [Parameter.argumentWords, hkind]
      | option default => simp [Parameter.argumentWords, hkind]

/-! ## Words and lines -/

/-- The words behind the program. -/
def words (parameters : List Parameter) (values : Table Setting) : List String :=
  argumentTexts parameters values ++ parameters.flatMap (·.optionWords values)

theorem words_nil (parameters : List Parameter) : words parameters [] = [] := by
  refine List.append_eq_nil_iff.mpr ⟨List.filterMap_eq_nil_iff.mpr fun p _ => ?_,
    List.flatMap_eq_nil_iff.mpr fun p _ => ?_⟩
  · rw [Parameter.text?, Parameter.given?, Table.get?]
    split <;> rfl
  · refine Parameter.optionWords_of_omitted (.missing fun s hs => ?_)
    cases hs

theorem invocation_eq (program : String) (parameters : List Parameter) (values : Table Setting) :
    invocation program parameters (some values)
      = " ".intercalate (program :: words parameters values) := by
  unfold invocation
  dsimp only
  split
  · rename_i hempty
    obtain rfl := List.isEmpty_iff.mp hempty
    rw [words_nil, String.intercalate_singleton]
  · rw [flatMap_argumentWords]
    rfl

/-- The words of a line can be told apart when there are no spaces in them. -/
theorem spaced_inj {program : String} {ws ws' : List String} (hws : ∀ w ∈ ws, ' ' ∉ w.toList)
    (hws' : ∀ w ∈ ws', ' ' ∉ w.toList)
    (h : " ".intercalate (program :: ws) = " ".intercalate (program :: ws')) : ws = ws' := by
  have hread : ∀ us : List String, (∀ w ∈ us, ' ' ∉ w.toList) →
      (" ".intercalate ("" :: us)).toList.splitOn ' ' = ("" :: us).map String.toList := by
    intro us hus
    rw [String.toList_intercalate]
    refine List.splitOn_intercalate ' ' ?_ (by simp)
    intro word hword
    obtain ⟨w, hw, rfl⟩ := List.mem_map.mp hword
    rcases List.mem_cons.mp hw with rfl | hw
    · simp
    · exact hus w hw
  have hfront : ∀ us : List String,
      " ".intercalate (program :: us) = program ++ " ".intercalate ("" :: us) := by
    intro us
    have hcons := @Text.intercalate_append_first " " program "" us
    rwa [String.append_empty] at hcons
  -- the program itself may have spaces, so it is taken off before splitting
  rw [hfront, hfront, String.append_right_inj] at h
  have hsplit := congrArg (fun line => line.toList.splitOn ' ') h
  rw [hread ws hws, hread ws' hws'] at hsplit
  have hwords := List.map_injective_iff.mpr (fun _ _ => String.toList_inj.mp) hsplit
  exact (List.cons.inj hwords).2

/-- A word that starts with a dash. -/
def Dashed (word : String) : Prop := word.toList.head? = some '-'

instance (word : String) : Decidable (Dashed word) :=
  inferInstanceAs (Decidable (word.toList.head? = some '-'))

/-- Words in front of the first dash can be told from those behind. -/
theorem append_inj_of_dashes {front front' back back' : List String}
    (hfront : ∀ w ∈ front, ¬Dashed w) (hfront' : ∀ w ∈ front', ¬Dashed w)
    (hback : ∀ w ∈ back.head?, Dashed w) (hback' : ∀ w ∈ back'.head?, Dashed w)
    (h : front ++ back = front' ++ back') : front = front' ∧ back = back' := by
  induction front generalizing front' with
  | nil =>
      cases front' with
      | nil => exact ⟨rfl, h⟩
      | cons w front' =>
          have hdashed : Dashed w := hback w (by rw [← List.nil_append back, h]; rfl)
          exact absurd hdashed (hfront' w (List.mem_cons_self ..))
  | cons w front ih =>
      obtain ⟨hw, hfront⟩ := List.forall_mem_cons.mp hfront
      cases front' with
      | nil =>
          have hdashed : Dashed w := hback' w (by rw [← List.nil_append back', ← h]; rfl)
          exact absurd hdashed hw
      | cons w' front' =>
          obtain ⟨rfl, hrest⟩ := List.cons.inj h
          obtain ⟨rfl, hback⟩ := ih hfront (List.forall_mem_cons.mp hfront').2 hrest
          exact ⟨rfl, hback⟩

/-! ## Reading the options off -/

/-- The options are called up by words with a dash at the start, each by its own. -/
structure SpelledApart (parameters : List Parameter) : Prop where
  dashed : ∀ p ∈ parameters, p.kind ≠ .argument → Dashed p.spelling
  spaceless : ∀ p ∈ parameters, p.kind ≠ .argument → ' ' ∉ p.spelling.toList
  distinct : ((parameters.filter (·.kind ≠ .argument)).map Parameter.spelling).Nodup

/-- The values that are shown are words without a dash at the start. -/
structure Legible (parameters : List Parameter) (values : Table Setting) : Prop where
  undashed : ∀ p ∈ parameters, ¬p.Omitted values → ∀ text ∈ p.text? values, ¬Dashed text
  spaceless : ∀ p ∈ parameters, ¬p.Omitted values → ∀ text ∈ p.text? values, ' ' ∉ text.toList

variable {parameters : List Parameter} {p : Parameter} {values values' : Table Setting}

theorem SpelledApart.tail (h : SpelledApart (p :: parameters)) : SpelledApart parameters where
  dashed q hq := h.dashed q (List.mem_cons_of_mem _ hq)
  spaceless q hq := h.spaceless q (List.mem_cons_of_mem _ hq)
  distinct := h.distinct.sublist (((List.sublist_cons_self ..).filter _).map _)

theorem Legible.tail (h : Legible (p :: parameters) values) : Legible parameters values where
  undashed q hq := h.undashed q (List.mem_cons_of_mem _ hq)
  spaceless q hq := h.spaceless q (List.mem_cons_of_mem _ hq)

/-- An option shows its spelling and its value. -/
theorem mem_optionWords {word : String} (h : word ∈ p.optionWords values) :
    p.kind ≠ .argument ∧ ¬p.Omitted values
      ∧ (word = p.spelling ∨ word ∈ p.text? values) := by
  have hkind : p.kind ≠ .argument := by
    intro hkind
    rw [Parameter.optionWords_of_argument hkind] at h
    cases h
  have hshown : ¬p.Omitted values := by
    intro homitted
    rw [Parameter.optionWords_of_omitted homitted] at h
    cases h
  rw [Parameter.optionWords_of_shown hkind hshown] at h
  exact ⟨hkind, hshown, (List.mem_cons.mp h).imp_right Option.mem_toList.mp⟩

/-- The first word of the options is a spelling. -/
theorem SpelledApart.dashed_head (hs : SpelledApart parameters) :
    ∀ w ∈ (parameters.flatMap (·.optionWords values)).head?, Dashed w := by
  induction parameters with
  | nil => simp
  | cons p parameters ih =>
      intro w hw
      rw [List.flatMap_cons] at hw
      cases hwords : p.optionWords values with
      | nil =>
          rw [hwords] at hw
          exact ih hs.tail w hw
      | cons first rest =>
          obtain ⟨hkind, hshown, -⟩ := mem_optionWords (hwords ▸ List.mem_cons_self ..)
          rw [Parameter.optionWords_of_shown hkind hshown] at hw
          obtain rfl := Option.some.inj hw
          exact hs.dashed p (List.mem_cons_self ..) hkind

/-- No later option shows the spelling of the first. -/
theorem SpelledApart.spelling_not_mem (hs : SpelledApart (p :: parameters))
    (hv : Legible parameters values) (hkind : p.kind ≠ .argument) :
    p.spelling ∉ parameters.flatMap (·.optionWords values) := by
  intro hmem
  obtain ⟨q, hq, hmem⟩ := List.mem_flatMap.mp hmem
  obtain ⟨hqkind, hshown, heq | htext⟩ := mem_optionWords hmem
  · have hdistinct := hs.distinct
    rw [List.filter_cons_of_pos (by simpa using hkind), List.map_cons] at hdistinct
    refine (List.nodup_cons.mp hdistinct).1 (heq ▸ List.mem_map_of_mem ?_)
    exact List.mem_filter.mpr ⟨hq, by simpa using hqkind⟩
  · exact hv.undashed q hq hshown _ htext (hs.dashed p (List.mem_cons_self ..) hkind)

/-- The words of the options determine those of each option. -/
theorem optionWords_eq_of_flatMap_eq (hs : SpelledApart parameters) (hv : Legible parameters values)
    (hv' : Legible parameters values')
    (h : parameters.flatMap (·.optionWords values) = parameters.flatMap (·.optionWords values')) :
    ∀ p ∈ parameters, p.optionWords values = p.optionWords values' := by
  induction parameters with
  | nil => simp
  | cons p parameters ih =>
      rw [List.flatMap_cons, List.flatMap_cons] at h
      have hfirst : p.optionWords values = p.optionWords values'
          ∧ parameters.flatMap (·.optionWords values)
            = parameters.flatMap (·.optionWords values') := by
        by_cases hkind : p.kind = .argument
        · rw [Parameter.optionWords_of_argument hkind,
            Parameter.optionWords_of_argument hkind] at h ⊢
          exact ⟨rfl, h⟩
        -- if only one of the two shows it, the other has its spelling among the later words
        have hlater := hs.spelling_not_mem hv.tail hkind
        have hlater' := hs.spelling_not_mem hv'.tail hkind
        by_cases homitted : p.Omitted values
        · by_cases homitted' : p.Omitted values'
          · rw [Parameter.optionWords_of_omitted homitted,
              Parameter.optionWords_of_omitted homitted'] at h ⊢
            exact ⟨rfl, h⟩
          · rw [Parameter.optionWords_of_omitted homitted,
              Parameter.optionWords_of_shown hkind homitted', List.nil_append] at h
            exact absurd (h ▸ List.mem_cons_self ..) hlater
        · by_cases homitted' : p.Omitted values'
          · rw [Parameter.optionWords_of_omitted homitted',
              Parameter.optionWords_of_shown hkind homitted, List.nil_append] at h
            exact absurd (h ▸ List.mem_cons_self ..) hlater'
          · rw [Parameter.optionWords_of_shown hkind homitted,
              Parameter.optionWords_of_shown hkind homitted'] at h ⊢
            have hp : p ∈ p :: parameters := List.mem_cons_self ..
            obtain ⟨htext, hrest⟩ := append_inj_of_dashes
              (fun w hw => hv.undashed p hp homitted w (Option.mem_toList.mp hw))
              (fun w hw => hv'.undashed p hp homitted' w (Option.mem_toList.mp hw))
              hs.tail.dashed_head hs.tail.dashed_head (List.cons.inj h).2
            exact ⟨congrArg _ htext, hrest⟩
      exact List.forall_mem_cons.mpr ⟨hfirst.1, ih hs.tail hv.tail hv'.tail hfirst.2⟩

/-! ## Reading the line -/

theorem Parameter.optionWords_eq_iff (hkind : p.kind ≠ .argument) :
    p.optionWords values = p.optionWords values'
      ↔ p.Omitted values ∧ p.Omitted values'
        ∨ ¬p.Omitted values ∧ ¬p.Omitted values' ∧ p.text? values = p.text? values' := by
  by_cases homitted : p.Omitted values <;> by_cases homitted' : p.Omitted values'
  · simp [homitted, homitted', optionWords_of_omitted]
  · simp [homitted, homitted', optionWords_of_omitted, optionWords_of_shown hkind homitted']
  · simp [homitted, homitted', optionWords_of_omitted, optionWords_of_shown hkind homitted]
  · rw [optionWords_of_shown hkind homitted, optionWords_of_shown hkind homitted']
    cases p.text? values <;> cases p.text? values' <;> simp [homitted, homitted']

theorem mem_argumentTexts {word : String} (h : word ∈ argumentTexts parameters values) :
    ∃ p ∈ parameters, ¬p.Omitted values ∧ word ∈ p.text? values := by
  obtain ⟨p, hp, htext⟩ := List.mem_filterMap.mp h
  obtain ⟨hp, hkind⟩ := List.mem_filter.mp hp
  have hkind : p.kind = .argument := of_decide_eq_true hkind
  refine ⟨p, hp, fun homitted => ?_, htext⟩
  cases homitted with
  | missing hmissing =>
      rw [Parameter.text?, Parameter.given?_eq_none_iff.mpr hmissing] at htext
      split at htext <;> cases htext
  | default hoption _ _ => cases hkind.symm.trans hoption

theorem Legible.spaceless_words (hs : SpelledApart parameters) (hv : Legible parameters values) :
    ∀ w ∈ words parameters values, ' ' ∉ w.toList := by
  intro w hw
  rcases List.mem_append.mp hw with hw | hw
  · obtain ⟨p, hp, hshown, htext⟩ := mem_argumentTexts hw
    exact hv.spaceless p hp hshown w htext
  · obtain ⟨p, hp, hw⟩ := List.mem_flatMap.mp hw
    obtain ⟨hkind, hshown, rfl | htext⟩ := mem_optionWords hw
    · exact hs.spaceless p hp hkind
    · exact hv.spaceless p hp hshown w htext

/-- The spelling of an option is a word of the line when the option is shown. -/
theorem Legible.spelling_mem_iff (hs : SpelledApart parameters) (hv : Legible parameters values)
    (hp : p ∈ parameters) (hkind : p.kind ≠ .argument) :
    p.spelling ∈ words parameters values ↔ ¬p.Omitted values := by
  have hdashed : Dashed p.spelling := hs.dashed p hp hkind
  constructor
  · intro hmem
    rcases List.mem_append.mp hmem with hmem | hmem
    · obtain ⟨q, hq, hshown, htext⟩ := mem_argumentTexts hmem
      exact absurd hdashed (hv.undashed q hq hshown _ htext)
    · obtain ⟨q, hq, hmem⟩ := List.mem_flatMap.mp hmem
      obtain ⟨hqkind, hshown, heq | htext⟩ := mem_optionWords hmem
      · have hsame : p = q := List.inj_on_of_nodup_map hs.distinct
          (List.mem_filter.mpr ⟨hp, decide_eq_true hkind⟩)
          (List.mem_filter.mpr ⟨hq, decide_eq_true hqkind⟩) heq
        exact hsame ▸ hshown
      · exact absurd hdashed (hv.undashed q hq hshown _ htext)
  · intro hshown
    refine List.mem_append_right _ (List.mem_flatMap.mpr ⟨p, hp, ?_⟩)
    rw [Parameter.optionWords_of_shown hkind hshown]
    exact List.mem_cons_self ..

theorem words_eq_iff (hs : SpelledApart parameters) (hv : Legible parameters values)
    (hv' : Legible parameters values') :
    words parameters values = words parameters values'
      ↔ argumentTexts parameters values = argumentTexts parameters values'
        ∧ ∀ p ∈ parameters, p.optionWords values = p.optionWords values' := by
  constructor
  · intro h
    have hundashed : ∀ {values : Table Setting}, Legible parameters values →
        ∀ w ∈ argumentTexts parameters values, ¬Dashed w := by
      intro values hv w hw
      obtain ⟨p, hp, hshown, htext⟩ := mem_argumentTexts hw
      exact hv.undashed p hp hshown w htext
    obtain ⟨harguments, hoptions⟩ := append_inj_of_dashes (hundashed hv) (hundashed hv')
      hs.dashed_head hs.dashed_head h
    exact ⟨harguments, optionWords_eq_of_flatMap_eq hs hv hv' hoptions⟩
  · rintro ⟨harguments, hoptions⟩
    rw [words, words, harguments, List.flatMap_congr hoptions]

/-- Two lines of a command are the same when the arguments read the same and every option is left
out of both or shown with the same value. The options that are left out are those whose spelling
is no word of the line. A path is shown by its last name and a choice by its value. -/
theorem invocation_eq_iff (program : String) (hs : SpelledApart parameters)
    (hv : Legible parameters values) (hv' : Legible parameters values') :
    (invocation program parameters (some values) = invocation program parameters (some values')
        ↔ argumentTexts parameters values = argumentTexts parameters values'
          ∧ ∀ p ∈ parameters, p.kind ≠ .argument →
              p.Omitted values ∧ p.Omitted values'
                ∨ ¬p.Omitted values ∧ ¬p.Omitted values' ∧ p.text? values = p.text? values')
      ∧ (∃ shown, invocation program parameters (some values)
            = " ".intercalate (program :: shown)
          ∧ (∀ w ∈ shown, ' ' ∉ w.toList)
          ∧ ∀ p ∈ parameters, p.kind ≠ .argument → (p.spelling ∉ shown ↔ p.Omitted values))
      ∧ ∀ p ∈ parameters, ∀ s : Setting, p.kind ≠ .flag → p.given? values = some s →
          (∀ dir base : String, p.isPath = true → base ≠ "" → base ≠ "." → '/' ∉ base.toList →
              s.label = base ∨ s.label = dir ++ "/" ++ base → p.text? values = some base)
            ∧ ∀ (label : String) (value : Value), p.isPath = false → s = .choice label value →
              p.text? values = some value.display := by
  refine ⟨?_, ⟨words parameters values, invocation_eq .., hv.spaceless_words hs,
    fun p hp hkind => (hv.spelling_mem_iff hs hp hkind).not_left⟩, fun p _ s hkind hgiven => ?_⟩
  · rw [invocation_eq, invocation_eq]
    have hwords : " ".intercalate (program :: words parameters values)
          = " ".intercalate (program :: words parameters values')
        ↔ words parameters values = words parameters values' :=
      ⟨spaced_inj (hv.spaceless_words hs) (hv'.spaceless_words hs), fun h => h ▸ rfl⟩
    rw [hwords, words_eq_iff hs hv hv']
    refine and_congr_right fun _ => forall₂_congr fun p hp => ?_
    by_cases hkind : p.kind = .argument
    · simp [hkind, Parameter.optionWords_of_argument]
    · rw [Parameter.optionWords_eq_iff hkind]
      exact ⟨fun h _ => h, fun h => h hkind⟩
  · have htext : p.text? values = some (s.shown p.isPath) := by
      rw [Parameter.text?, if_neg hkind, hgiven, Option.map_some]
    rw [htext]
    constructor
    · intro dir base hpath hne hdot hslash hlabel
      have hlast : Files.lastName s.label = base := by
        rcases hlabel with hlabel | hlabel
        · rw [hlabel, Files.lastName_of_name hne hdot hslash]
        · rw [hlabel, Files.lastName_append hne hdot hslash]
      rw [hpath]
      exact congrArg some hlast
    · rintro label value hpath rfl
      rw [hpath]
      rfl

namespace Request

/-- Asks for the schema of a shop, with the output overwritten. -/
def shop : Request :=
  { model := some ["home", "shop.json"], output := some ["home", "shop.ts"], force := true }

/-- Asks for the same elsewhere. -/
def branch : Request :=
  { model := some ["srv", "eu", "shop.json"], output := some ["tmp", "shop.ts"], force := true }

/-- Asks for the same without overwriting. -/
def opening : Request := { shop with force := false }

theorem shop_commandLine : shop.commandLine = branch.commandLine
    ∧ argumentTexts Request.parameters shop.settings
      = argumentTexts Request.parameters branch.settings
    ∧ shop.commandLine ≠ opening.commandLine := by
  have hspelled : SpelledApart Request.parameters := ⟨by decide, by decide, by decide⟩
  have hread : ∀ r ∈ [shop, branch, opening], ∀ p ∈ Request.parameters,
      ∀ text ∈ p.text? r.settings, ¬Dashed text ∧ ' ' ∉ text.toList := by decide
  have hlegible : ∀ r ∈ [shop, branch, opening], Legible Request.parameters r.settings :=
    fun r hr => ⟨fun p hp _ text htext => (hread r hr p hp text htext).1,
      fun p hp _ text htext => (hread r hr p hp text htext).2⟩
  have hshop := hlegible shop (by simp)
  have hbranch := hlegible branch (by simp)
  have hopening := hlegible opening (by simp)
  have hsame : shop.commandLine = branch.commandLine := by decide
  refine ⟨hsame, ((invocation_eq_iff programName hspelled hshop hbranch).1.mp hsame).1, ?_⟩
  intro heq
  obtain ⟨-, hoptions⟩ := (invocation_eq_iff programName hspelled hshop hopening).1.mp heq
  have hforce : { kind := .flag, name := "force", spellings := ["--force", "-f"] }
      ∈ Request.parameters := List.mem_cons_of_mem _ (List.mem_cons_self ..)
  rcases hoptions _ hforce (by simp) with ⟨homitted, -⟩ | ⟨-, hshown, -⟩
  · cases homitted with
    | missing hmissing => exact absurd (hmissing _ rfl) (by decide)
    | default hkind _ _ => cases hkind
  · refine hshown (.missing fun s hs => Or.inr ?_)
    exact (Option.some.inj hs).symm

end Request

end Command

end SchemaGen
