import Mathlib.Data.List.TakeWhile
import SchemaGen.Files.OutputFile
import SchemaGen.ModuleText
import SchemaGen.Proofs.Fragments

/-!
# Generated modules pass their check

The check of a module knows nothing about where the text came from: it looks
for an export, and counts braces and backticks. The generator in turn never
looks at the whole text. Both agree on modules from plain names and settings
(`generate_passes_check`): the parts balance one by one, the heading does by
assumption, and the last part is always an export.

The heading is the only text that is not balanced piece by piece. Header
lines may open a brace in one line and close it in another, so the condition
is on all lines together with the comment about the command.
-/

namespace SchemaGen

open SchemaGen.Model
open SchemaGen.Json (Value)
open SchemaGen.Text (Balanced Unmarked)

/-! ## The heading -/

theorem Text.count_dropEndWhile {p : Char → Bool} {c : Char} (hc : p c = false) (l : List Char) :
    (Text.dropEndWhile p l).count c = l.count c := by
  have hdropped : (l.reverse.takeWhile p).count c = 0 := by
    refine List.count_eq_zero.mpr fun hmem => ?_
    have hp := List.mem_takeWhile_imp hmem
    rw [hc] at hp
    cases hp
  have hsplit := congrArg (List.count c) (@List.takeWhile_append_dropWhile _ p l.reverse)
  rw [List.count_append, hdropped, List.count_reverse] at hsplit
  rw [Text.dropEndWhile, List.count_reverse]
  omega

/-- A text balances like another one with the same counted characters. -/
theorem Text.Balanced.congr {s t : String}
    (h : ∀ c ∈ Text.marks, s.toList.count c = t.toList.count c) (ht : Balanced t) : Balanced s := by
  refine ⟨?_, ?_⟩
  · rw [h '\x7b' (by decide), h '\x7d' (by decide)]
    exact ht.braces
  · rw [h (Char.ofNat 0x60) (by decide)]
    exact ht.ticks

theorem Text.Balanced.trimFinalNewlines {s : String} (h : Balanced s) :
    Balanced (Text.trimFinalNewlines s) := by
  refine h.congr fun c hc => ?_
  rw [Text.trimFinalNewlines, String.toList_ofList]
  refine Text.count_dropEndWhile ?_ _
  rw [beq_eq_false_iff_ne]
  rintro rfl
  exact absurd hc (by decide)

/-- Ending every line with a line feed changes nothing that counts. -/
theorem Text.Balanced.lines {texts : List String} (h : Balanced (String.join texts)) :
    Balanced (String.join (texts.map (· ++ "\n"))) := by
  refine h.congr fun c hc => ?_
  have hfeed : ("\n".toList).count c = 0 := by
    refine List.count_eq_zero.mpr fun hmem => ?_
    rw [show "\n".toList = ['\n'] from rfl, List.mem_singleton] at hmem
    rw [hmem] at hc
    exact absurd hc (by decide)
  clear h hc
  induction texts with
  | nil => rfl
  | cons s texts ih =>
      simp only [List.map_cons, String.join_cons, String.toList_append, List.count_append, ih,
        hfeed]
      omega

/-- The heading can be made, and its comment and lines balance together. -/
def ModuleText.HeadingBalances (settings : Settings) (commandLine : String) : Prop :=
  ∃ parts, settings.headerParts = .ok parts
    ∧ Balanced (String.join
        (ModuleText.generationComment settings commandLine :: parts.map Value.display))

theorem ModuleText.heading_balanced {settings : Settings} {commandLine : String}
    (h : ModuleText.HeadingBalances settings commandLine) :
    ∃ text, ModuleText.heading settings commandLine = .ok text ∧ Balanced text := by
  obtain ⟨parts, hparts, hjoin⟩ := h
  rw [String.join_cons] at hjoin
  unfold ModuleText.heading
  rw [hparts]
  refine ⟨_, rfl, .trimFinalNewlines (.lines ?_)⟩
  have hwarning : Balanced "// DO NOT EDIT. Generated file" := by decide
  rw [List.cons_append, String.join_cons]
  split
  · rename_i hempty
    rw [hempty] at hjoin
    exact hwarning.append (by simpa using hjoin)
  · rw [List.singleton_append, String.join_cons, String.append_assoc]
    exact hwarning.append (Balanced.append (by decide) hjoin)

/-! ## The check -/

theorem Files.holds_iff {part text : List Char} :
    Files.holds part text = true ↔ part <:+: text := by
  induction text with
  | nil => simp [Files.holds]
  | cons c text ih =>
      rw [Files.holds, Bool.or_eq_true, ih, List.isPrefixOf_iff_prefix, List.infix_cons_iff]

theorem Text.infix_append_left (front s : String) : s.toList <:+: (front ++ s).toList := by
  rw [String.toList_append]
  exact (List.suffix_append _ _).isInfix

theorem Text.infix_append_right (s back : String) : s.toList <:+: (s ++ back).toList := by
  rw [String.toList_append]
  exact (List.prefix_append _ _).isInfix

theorem Text.infix_intercalate {sep s : String} {texts : List String} (h : s ∈ texts) :
    s.toList <:+: (sep.intercalate texts).toList := by
  induction texts with
  | nil => cases h
  | cons t texts ih =>
      cases texts with
      | nil =>
          have hone : s.toList = (sep.intercalate [t]).toList := by
            rw [List.mem_singleton.mp h, String.intercalate_singleton]
          exact hone ▸ List.infix_rfl
      | cons u texts =>
          rw [String.intercalate_cons_cons]
          rcases List.mem_cons.mp h with rfl | h
          · rw [String.append_assoc]
            exact infix_append_right ..
          · exact (ih h).trans (infix_append_left ..)

/-- Balance and an export are all that the check asks for. -/
theorem Files.checkModule_eq_ok {content : String} (hexport : "export ".toList <:+: content.toList)
    (h : Balanced content) : Files.checkModule content = .ok () := by
  unfold Files.checkModule
  simp only [Files.holds_iff.mpr hexport, h.braces, h.ticks]
  simp

/-- Replacing a file fails with a check only when the content fails it. -/
theorem Files.replaceFile_check {s : Files.Store} {path : Files.Path} {content : Text.RawText}
    {checked : Bool} {fault : Files.CheckFault}
    (h : (Files.replaceFile s path content checked).2 = .error (.check fault)) :
    Files.checkModule content.shown = .error fault := by
  have hverdict : ∀ moved : Except Files.StoreFault Files.Store,
      (do if checked then (Files.checkModule content.shown).mapError Fault.check
          moved.mapError Fault.store : Except Fault Files.Store) = .error (.check fault) →
      Files.checkModule content.shown = .error fault := by
    intro moved hmoved
    cases checked with
    | false =>
        cases moved with
        | error refused => cases hmoved
        | ok after => cases hmoved
    | true =>
        cases hcheck : Files.checkModule content.shown with
        | error failed =>
            rw [hcheck] at hmoved
            cases hmoved
            rfl
        | ok _ =>
            rw [hcheck] at hmoved
            cases moved with
            | error refused => cases hmoved
            | ok after => cases hmoved
  unfold Files.replaceFile at h
  split at h
  · cases h
  split at h
  · cases h
  dsimp only at h
  split at h
  · cases h
  split at h
  · cases h
  · rename_i failed heq
    obtain rfl := Except.error.inj h
    exact hverdict _ heq

/-! ## Generated modules -/

theorem ModuleText.assemble_balanced {heading : String} {fragments : List String}
    (hheading : Balanced heading) (h : ∀ text ∈ fragments, Balanced text) :
    Balanced (ModuleText.assemble heading fragments) := by
  have hparts : Balanced ("\n\n".intercalate fragments) := .intercalate (by decide) h
  exact ((hheading.append (by decide)).append hparts).append (by decide)

/-- The GraphQL document is exported, so every module has an export. -/
theorem ModuleText.export_infix_assemble {settings : Settings} {m : Model} {a : Artifacts}
    (ha : a.Complete settings m) (heading : String) :
    "export ".toList <:+: (ModuleText.assemble heading a.fragments).toList := by
  have hdocument : a.sdlDocument ∈ a.fragments :=
    List.mem_append_right _ (List.mem_singleton_self _)
  have hexport : "export ".toList <+: a.sdlDocument.toList := by
    have hopening : "export ".toList <+: "export const ".toList := by decide
    rw [ha.document]
    unfold Artifacts.ofTypes GraphQL.document
    rw [String.append_assoc, String.append_assoc, String.append_assoc, String.toList_append]
    exact hopening.trans (List.prefix_append _ _)
  have hlast : a.sdlDocument.toList <:+: ("\n\n".intercalate a.fragments).toList :=
    Text.infix_intercalate hdocument
  have hparts := hexport.isInfix.trans hlast
  rw [ModuleText.assemble]
  exact (hparts.trans (Text.infix_append_left ..)).trans (Text.infix_append_right ..)

theorem ModuleText.generate_result {settings : Settings} {commandLine : String} {machine : Machine}
    {value : Value} {a : Artifacts} {text : String} {formatter : FormatterSettings}
    (ha : (Artifacts.ofValue settings value).result = .ok a)
    (hheading : ModuleText.heading settings commandLine = .ok text)
    (hformatter : settings.formatter.get "enabled" = .ok formatter)
    (hoff : formatter.enabled.truthy = false) :
    (ModuleText.generate settings commandLine machine value).result
      = .ok (ModuleText.assemble text a.fragments) := by
  refine (Traced.bind_ok ha _).trans ?_
  refine (Traced.lift_ok hheading _).trans ?_
  refine (Traced.lift_ok hformatter _).trans ?_
  rw [hoff]
  rfl

/-- From a model and settings with unmarked names, under a heading that balances, the generated
module passes its check, and so replacing a file by it never fails for the content. -/
theorem ModuleText.generate_passes_check {settings : Settings} {commandLine : String}
    {machine : Machine} {value : Value} {a : Artifacts} {m : Model} {formatter : FormatterSettings}
    (haccepted : (Artifacts.ofValue settings value).result = .ok a)
    (hread : (Model.read value).result = .ok m)
    (hplain : Artifacts.Plain settings m)
    (hheading : ModuleText.HeadingBalances settings commandLine)
    (hformatter : settings.formatter.get "enabled" = .ok formatter)
    (hoff : formatter.enabled.truthy = false) :
    ∃ text, (ModuleText.generate settings commandLine machine value).result = .ok text
      ∧ Files.checkModule text = .ok ()
      ∧ ∀ s path fault, (Files.replaceFile s path text true).2 ≠ .error (.check fault) := by
  obtain ⟨_, m', -, hread', -, hm, hcomplete⟩ := Artifacts.ofValue_eq_ok haccepted
  obtain rfl := Except.ok.inj (hread.symm.trans hread')
  obtain ⟨heading, hmade, hbalanced⟩ := ModuleText.heading_balanced hheading
  have hparts := Artifacts.fragments_balanced hplain hm hcomplete
  have htext := ModuleText.assemble_balanced hbalanced hparts
  have hcheck := Files.checkModule_eq_ok (ModuleText.export_infix_assemble hcomplete heading) htext
  refine ⟨_, ModuleText.generate_result haccepted hmade hformatter hoff, hcheck, ?_⟩
  intro s path fault hfault
  have hfails := Files.replaceFile_check hfault
  rw [Text.RawText.shown_ofString] at hfails
  cases hcheck.symm.trans hfails

theorem Artifacts.staff_definitions {m : Model}
    (h : (Model.read Artifacts.staff).result = .ok m) :
    m.definitions = [
      .record ⟨"Admin", [⟨"role", .reference "Role"⟩], some "User", true⟩,
      .record ⟨"User", [⟨"mail", .required (.primitive "string")⟩], some "Named", true⟩,
      .record ⟨"Named", [⟨"name", .primitive "string"⟩], none, false⟩,
      .enumeration ⟨"Role", ["OWNER", "GUEST"]⟩] := by
  have hread : (Model.read Artifacts.staff).result.map Model.definitions = .ok [_, _, _, _] := rfl
  rw [h] at hread
  exact Except.ok.inj hread

theorem Artifacts.staff_plain {m : Model} (h : (Model.read Artifacts.staff).result = .ok m) :
    Artifacts.Plain {} m := by
  obtain ⟨entries, hvalue, hdefs, hm⟩ := read_eq_ok h
  obtain rfl := Value.object.inj hvalue
  refine ⟨fun name hname => ?_, fun name r hr => ?_, by decide, by decide, by decide⟩
  · have hall : ∀ name ∈ ["Admin", "User", "Named", "Role"], Unmarked name := by decide
    exact hall name ((mem_names_of_readDefinitions hdefs).mp hname)
  · have hmem : Definition.record r ∈ m.definitions := mem_definitions.mpr ⟨name, hr⟩
    rw [staff_definitions h] at hmem
    simp only [List.mem_cons, Definition.record.injEq, reduceCtorEq, List.not_mem_nil,
      or_false] at hmem
    rcases hmem with rfl | rfl | rfl <;> decide

theorem ModuleText.staff_passes_check :
    ∃ text, (ModuleText.generate {} "typedefs_to_code staff.json" Machine.bare
        Artifacts.staff).result = .ok text
      ∧ Files.checkModule text = .ok () := by
  obtain ⟨a, haccepted⟩ : ∃ a, (Artifacts.ofValue {} Artifacts.staff).result = .ok a := ⟨_, rfl⟩
  obtain ⟨m, hread⟩ : ∃ m, (Model.read Artifacts.staff).result = .ok m := ⟨_, rfl⟩
  have hheading : ModuleText.HeadingBalances {} "typedefs_to_code staff.json" :=
    ⟨_, rfl, by decide +kernel⟩
  obtain ⟨text, htext, hcheck, -⟩ := ModuleText.generate_passes_check haccepted hread
    (Artifacts.staff_plain hread) hheading rfl rfl
  exact ⟨text, htext, hcheck⟩

end SchemaGen
