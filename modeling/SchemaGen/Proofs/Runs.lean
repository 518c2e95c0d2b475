import SchemaGen.Command.Run
import SchemaGen.Proofs.Replacement

/-!
# What a run leaves in the files

A run reads its settings and its model, generates the module and saves it, and
each of these may refuse. Only saving touches the store. It comes last, so a
refusal before it leaves the store as it was, and a refusal by it leaves no
more than directories on the way to the output (`RequestEnds.failed`). In the
other case the module was generated from what the store held before, and its
text is in the one file that changed (`RequestEnds.finished`). Seen from its
end, a run with success is no more than the saving of a generated text
(`Request.run_finished`).

`run_files` reads both cases off the exit code, for every store, every machine
and all words. Whether the output is written in one step or in place, and
whether it may replace a file, is up to the settings and not told apart.
-/

namespace SchemaGen.Command

open SchemaGen.Files (Store Path Location)
open SchemaGen.Files.Store (Grows Writes)

variable {r : Request} {s s' : Store} {machine : Machine} {settings : Settings}

/-! ## Exit codes -/

theorem exitCode_settingsEnding (place : Location) (fault : Fault) :
    (settingsEnding place fault).exitCode = 1 := by
  unfold settingsEnding
  split <;> rfl

theorem exitCode_generationEnding (fault : Fault) : (generationEnding fault).exitCode = 1 := by
  unfold generationEnding
  split <;> rfl

/-! ## Words -/

/-- The request that understood words make. -/
def Given.request (given : Given) (s : Store) (siblingOrder : Option SiblingOrder) : Request where
  config := placeOf s (Table.get? given.values "config")
  force := given.flags.contains "force"
  format := given.flags.contains "format"
  siblingOrder := siblingOrder
  verbose := given.flags.contains "verbose"
  model := placeOf s given.arguments[0]?
  output := placeOf s given.arguments[1]?

theorem understand_eq_request_iff {words : List String} :
    understand s words = .request r ↔
      ∃ given order, Given.ofWords words = some given ∧ "help" ∉ given.flags
        ∧ orderOfWord? (Table.get? given.values "sibling_order") = some order
        ∧ given.request s order = r ∧ given.arguments.length ≤ 2
        ∧ presentOrAbsent s r.config = true ∧ presentOrAbsent s r.model = true := by
  constructor
  · intro h
    unfold understand at h
    split at h
    · cases h
    rename_i given hgiven
    split at h
    · cases h
    rename_i hhelp
    split at h
    · cases h
    rename_i order horder
    dsimp only at h
    split at h
    · rename_i hpresent
      simp only [Bool.and_eq_true, decide_eq_true_eq] at hpresent
      obtain ⟨⟨hconfig, hmodel⟩, hcount⟩ := hpresent
      obtain rfl := Understood.request.inj h
      exact ⟨given, order, hgiven, hhelp, horder, rfl, hcount, hconfig, hmodel⟩
    · cases h
  · rintro ⟨given, order, hgiven, hhelp, horder, rfl, hcount, hconfig, hmodel⟩
    have hpresent : (presentOrAbsent s (given.request s order).config
        && presentOrAbsent s (given.request s order).model
        && decide (given.arguments.length ≤ 2)) = true := by
      rw [hconfig, hmodel, decide_eq_true hcount]
      rfl
    rw [understand, hgiven]
    dsimp only
    rw [if_neg hhelp, horder]
    exact if_pos hpresent

/-! ## Runs of a request -/

/-- The settings that a request works with: those in its file, or else the defaults, with what its
options override. -/
def Request.effectiveSettings (r : Request) (s : Store) : Except Fault Settings :=
  (match r.config with
    | none => .ok {}
    | some place => readSettings s place) >>= r.override

/-- The ways in which the run of a request ends. -/
inductive RequestEnds (r : Request) (s : Store) (machine : Machine) : Store → Ending → Prop
  | failed {s' : Store} {ending : Ending} : ending.exitCode = 1 →
      (s' = s ∨ ∃ output, r.output = some output ∧ Grows (Path.ofLocation output).parent s s') →
      RequestEnds r s machine s' ending
  | finished {s' : Store} {place output : Location} {settings : Settings} {model : Json.Value}
      {text : String} : r.model = some place → r.output = some output →
      r.effectiveSettings s = .ok settings →
      (Files.readModel s (Path.ofLocation place)).result = .ok model →
      (ModuleText.generate settings r.commandLine machine model).result = .ok text →
      Writes (Path.ofLocation output) (Text.Utf8.encode text) s s' →
      RequestEnds r s machine s' .finished

theorem givenPath_eq_ok {place : Option Location} {path : Path} (h : givenPath place = .ok path) :
    ∃ location, place = some location ∧ path = Path.ofLocation location := by
  unfold givenPath at h
  split at h
  · rename_i location
    exact ⟨location, rfl, (Except.ok.inj h).symm⟩
  · cases h

theorem Request.generate_eq_ok {text : String}
    (h : (r.generate s settings machine).result = .ok text) :
    ∃ place model, r.model = some place
      ∧ (Files.readModel s (Path.ofLocation place)).result = .ok model
      ∧ (ModuleText.generate settings r.commandLine machine model).result = .ok text := by
  simp only [Request.generate, Traced.bind_result] at h
  obtain ⟨path, hgiven, h⟩ := bind_eq_ok h
  obtain ⟨model, hread, htext⟩ := bind_eq_ok h
  obtain ⟨place, hplace, rfl⟩ := givenPath_eq_ok hgiven
  exact ⟨place, model, hplace, hread, htext⟩

theorem Request.generate_ok {place : Location} {model : Json.Value} {text : String}
    (hplace : r.model = some place)
    (hread : (Files.readModel s (Path.ofLocation place)).result = .ok model)
    (htext : (ModuleText.generate settings r.commandLine machine model).result = .ok text) :
    (r.generate s settings machine).result = .ok text := by
  rw [Request.generate, hplace]
  exact (Traced.lift_ok rfl _).trans ((Traced.bind_ok hread _).trans htext)

/-- Without settings a run ends at once. -/
theorem Request.run_of_fault {fault : Fault} (h : r.effectiveSettings s = .error fault) :
    ∃ ending, ending.exitCode = 1
      ∧ r.run s machine = { store := s, verbose := r.verbose, events := [], ending } := by
  have hstart : ∀ base : Settings, r.override base = .error fault →
      (r.override base).mapError Ending.crashed = .error (.crashed fault) := by
    intro base hbase
    rw [hbase]
    rfl
  unfold Request.effectiveSettings at h
  unfold Request.run
  cases hconfig : r.config with
  | none =>
      rw [hconfig] at h
      have hoverride := hstart {} h
      simp only [Except.bind, hoverride]
      exact ⟨.crashed fault, rfl, rfl⟩
  | some place =>
      rw [hconfig] at h
      cases hread : readSettings s place with
      | error unread =>
          simp only [hread]
          exact ⟨settingsEnding place unread, exitCode_settingsEnding place unread, rfl⟩
      | ok base =>
          simp only [hread] at h
          have hoverride := hstart base h
          simp only [hread, Except.mapError, Except.bind] at hoverride ⊢
          rw [hoverride]
          exact ⟨.crashed fault, rfl, rfl⟩

/-- With its settings known, a run is the making of the module. -/
theorem Request.run_of_settings (h : r.effectiveSettings s = .ok settings) :
    r.run s machine = {
      store := (r.produce s settings machine).1
      verbose := r.verbose
      events := (r.produce s settings machine).2.events
      ending := match (r.produce s settings machine).2.result with
        | .ok () => .finished
        | .error fault => generationEnding fault } := by
  have hsettled : Except.bind (match r.config with
        | none => Except.ok ({} : Settings)
        | some place => (readSettings s place).mapError (settingsEnding place))
      (fun base => (r.override base).mapError Ending.crashed) = .ok settings := by
    unfold Request.effectiveSettings at h
    cases hconfig : r.config with
    | none =>
        rw [hconfig] at h
        exact congrArg (Except.mapError Ending.crashed) h
    | some place =>
        rw [hconfig] at h
        obtain ⟨base, hread, hoverride⟩ := bind_eq_ok h
        have hbase : (readSettings s place).mapError (settingsEnding place) = .ok base :=
          congrArg (Except.mapError (settingsEnding place)) hread
        show Except.bind ((readSettings s place).mapError (settingsEnding place)) _ = _
        rw [hbase]
        exact congrArg (Except.mapError Ending.crashed) hoverride
  unfold Request.run
  dsimp only
  split
  · rename_i ending hrefused
    cases hrefused.symm.trans hsettled
  · rename_i found hfound
    obtain rfl := Except.ok.inj (hfound.symm.trans hsettled)
    rfl

/-- What becomes of a request whose settings are known. -/
theorem Request.produce_ends (hsettings : r.effectiveSettings s = .ok settings) :
    RequestEnds r s machine (r.produce s settings machine).1
      (match (r.produce s settings machine).2.result with
        | .ok () => .finished
        | .error fault => generationEnding fault) := by
  unfold Request.produce
  dsimp only
  split
  · exact .failed (exitCode_generationEnding _) (Or.inl rfl)
  · rename_i text path hgenerated
    obtain ⟨text', htext, hpath⟩ := bind_eq_ok hgenerated
    obtain ⟨path', hgiven, heq⟩ := map_eq_ok hpath
    obtain ⟨rfl, rfl⟩ := Prod.mk.inj heq
    obtain ⟨place, model, hmodel, hread, htext⟩ := Request.generate_eq_ok htext
    obtain ⟨output, houtput, rfl⟩ := givenPath_eq_ok hgiven
    have hsaved := Files.saveOutput_ends s (Path.ofLocation output) text' settings.output
    generalize Files.saveOutput s (Path.ofLocation output) text' settings.output = saved at hsaved ⊢
    obtain ⟨after, events, result⟩ := saved
    dsimp only at hsaved ⊢
    cases hsaved with
    | written hputs => exact .finished hmodel houtput hsettings hread htext hputs.writes
    | refused hgrows =>
        exact .failed (exitCode_generationEnding _) (Or.inr ⟨output, houtput, hgrows⟩)

theorem Request.run_ends (r : Request) (s : Store) (machine : Machine) :
    RequestEnds r s machine (r.run s machine).store (r.run s machine).ending := by
  cases hsettings : r.effectiveSettings s with
  | error fault =>
      obtain ⟨ending, hcode, hrun⟩ := Request.run_of_fault hsettings
      rw [hrun]
      exact .failed hcode (Or.inl rfl)
  | ok settings =>
      rw [Request.run_of_settings hsettings]
      exact Request.produce_ends hsettings

/-- With its settings known and its module generated, a run is the saving of that module. -/
theorem Request.run_of_generated {output : Location} {text : String}
    (hsettings : r.effectiveSettings s = .ok settings)
    (htext : (r.generate s settings machine).result = .ok text) (houtput : r.output = some output) :
    (r.run s machine).store
        = (Files.saveOutput s (Path.ofLocation output) text settings.output).1
      ∧ (r.run s machine).ending
        = match (Files.saveOutput s (Path.ofLocation output) text settings.output).2.result with
          | .ok () => .finished
          | .error fault => generationEnding fault := by
  have hwritten : (r.generate s settings machine).result.bind
      (fun text => (givenPath r.output).map fun path => (text, path))
        = .ok (text, Path.ofLocation output) := by
    rw [htext, houtput]
    rfl
  rw [Request.run_of_settings hsettings]
  unfold Request.produce
  dsimp only
  rw [hwritten]
  exact ⟨rfl, rfl⟩

/-- A request that is run with success has its module generated and saved. -/
theorem Request.run_finished (h : (r.run s machine).ending.exitCode = 0) :
    ∃ output settings text, r.output = some output ∧ r.effectiveSettings s = .ok settings
      ∧ (r.generate s settings machine).result = .ok text
      ∧ (Files.saveOutput s (Path.ofLocation output) text settings.output).2.result = .ok ()
      ∧ (r.run s machine).store
        = (Files.saveOutput s (Path.ofLocation output) text settings.output).1 := by
  have hends := r.run_ends s machine
  generalize hstore : (r.run s machine).store = after at hends
  generalize hending : (r.run s machine).ending = ending at hends h
  cases hends with
  | failed hcode _ => exact absurd (hcode.symm.trans h) (by decide)
  | @finished _ output settings _ text hmodel houtput hsettings hread htext _ =>
      have hgenerated := Request.generate_ok hmodel hread htext
      obtain ⟨hsaved, hfinished⟩ := r.run_of_generated hsettings hgenerated houtput
      refine ⟨output, settings, text, houtput, hsettings, hgenerated, ?_, hstore ▸ hsaved⟩
      cases hresult :
          (Files.saveOutput s (Path.ofLocation output) text settings.output).2.result with
      | ok _ => rfl
      | error fault =>
          rw [hresult, hending] at hfinished
          have hcode := congrArg Ending.exitCode hfinished
          exact absurd (hcode.trans (exitCode_generationEnding fault)) (by decide)

/-! ## Runs of the command -/

/-- A run leaves the files alone, or writes its module and nothing else. With another exit code
than zero all files are as before and no new ones are there; at most, directories were made on the
way to the output. With zero the help was asked for and nothing changed, or the output holds the
text that was generated, and all other files are as before. -/
theorem run_files (s : Store) (machine : Machine) (words : List String) :
    ((run s machine words).ending.exitCode ≠ 0 →
        (∀ location content, (run s machine words).store.at? location = some (.file content)
          ↔ s.at? location = some (.file content))
        ∧ ((run s machine words).store = s
          ∨ ∃ request output, understand s words = .request request
            ∧ request.output = some output
            ∧ Grows (Path.ofLocation output).parent s (run s machine words).store))
      ∧ ((run s machine words).ending.exitCode = 0 →
        (understand s words = .help ∧ (run s machine words).store = s)
        ∨ ∃ request place output settings model text,
          understand s words = .request request
          ∧ request.model = some place ∧ request.output = some output
          ∧ request.effectiveSettings s = .ok settings
          ∧ (Files.readModel s (Path.ofLocation place)).result = .ok model
          ∧ (ModuleText.generate settings request.commandLine machine model).result = .ok text
          ∧ (run s machine words).store.read (Path.ofLocation output)
            = .ok (Text.Utf8.encode text)
          ∧ ∀ location, (run s machine words).store.locate (Path.ofLocation output) ≠ .ok location →
            ∀ content, (run s machine words).store.at? location = some (.file content)
              ↔ s.at? location = some (.file content)) := by
  cases hwords : understand s words with
  | wrong =>
      have hrun : run s machine words
          = { store := s, verbose := false, events := [], ending := .misused } := by
        rw [run, hwords]
      rw [hrun]
      exact ⟨fun _ => ⟨fun _ _ => Iff.rfl, Or.inl rfl⟩,
        fun h => absurd h (show Ending.misused.exitCode ≠ 0 by decide)⟩
  | help =>
      have hrun : run s machine words
          = { store := s, verbose := false, events := [], ending := .helped } := by
        rw [run, hwords]
      rw [hrun]
      exact ⟨fun h => absurd rfl h, fun _ => Or.inl ⟨rfl, rfl⟩⟩
  | request request =>
      have hrun : run s machine words = request.run s machine := by rw [run, hwords]
      have hends := request.run_ends s machine
      rw [hrun]
      generalize request.run s machine = ran at hends ⊢
      obtain ⟨after, verbose, events, ending⟩ := ran
      dsimp only at hends ⊢
      cases hends with
      | failed hcode hstore =>
          refine ⟨fun _ => ⟨?_, ?_⟩, fun h => absurd (hcode.symm.trans h) (by decide)⟩
          · rcases hstore with rfl | ⟨output, -, hgrows⟩
            · exact fun _ _ => Iff.rfl
            · exact fun location content => (hgrows.kept location).file_iff
          · rcases hstore with hsame | ⟨output, houtput, hgrows⟩
            · exact Or.inl hsame
            · exact Or.inr ⟨request, output, rfl, houtput, hgrows⟩
      | finished hmodel houtput hsettings hread htext hwrites =>
          refine ⟨fun h => absurd rfl h, fun _ => Or.inr ⟨request, _, _, _, _, _, rfl, hmodel,
            houtput, hsettings, hread, htext, hwrites.read, fun location hother content => ?_⟩⟩
          obtain ⟨place, hplace, -, hrest⟩ := hwrites
          have hne : location ≠ place := by
            rintro rfl
            exact hother hplace
          exact (hrest location hne).file_iff

/-- A working directory with a model without types. -/
def shelf : Store :=
  ((Store.empty ["shelf"]).put ["shelf"] .directory).put ["shelf", "m.json"] (.file [0x7b, 0x7d])

-- the output is there already
example : (run shelf Machine.bare ["m.json", "m.json"]).ending.exitCode = 1 := by
  decide +kernel

end SchemaGen.Command
