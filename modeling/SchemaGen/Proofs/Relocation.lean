import SchemaGen.Proofs.Merging
import SchemaGen.Proofs.Places
import SchemaGen.Proofs.Runs

/-!
# The output does not depend on where the files lie

The same files at other places, under another working directory, give the same
output (`run_relocated`). Three things lead from the file store to the output
text. The settings and the model come from what their files hold, and nothing
else of the files reaches them. The command line in the heading is where the
places themselves are shown. It takes the last name of each, so requests that
are `Alike` have one command line, wherever their places are
(`Request.Alike.commandLine_eq`). How the output is written does not matter,
since any run with success ends with the text in the file.
-/

namespace SchemaGen

/-! ## Machines without the formatter -/

theorem Formatter.format_uninstalled {machine : Machine} (h : machine.installed = false)
    (code : String) (settings : FormatterSettings) :
    (format { machine } code settings).1 = ⟨[.formatterMissing "prettier"], .ok code⟩ := by
  simp [format, isAvailable, h]

/-- Where the formatter is not installed, nothing else about the machine counts. -/
theorem ModuleText.generate_uninstalled {machine machine' : Machine}
    (h : machine.installed = false) (h' : machine'.installed = false) (settings : Settings)
    (commandLine : String) (value : Json.Value) :
    generate settings commandLine machine value = generate settings commandLine machine' value := by
  unfold generate
  simp only [Formatter.format_uninstalled h, Formatter.format_uninstalled h']

namespace Command

open SchemaGen.Files (Store Path Location Proper)

variable {s s' : Store} {r r' : Request} {place place' : Option Location}

/-! ## The command line -/

/-- Requests with the same options, and with places of the same last names. -/
structure Request.Alike (r r' : Request) : Prop where
  force : r.force = r'.force
  format : r.format = r'.format
  siblingOrder : r.siblingOrder = r'.siblingOrder
  verbose : r.verbose = r'.verbose
  config : r.config.map List.getLast? = r'.config.map List.getLast?
  model : r.model.map List.getLast? = r'.model.map List.getLast?
  output : r.output.map List.getLast? = r'.output.map List.getLast?

/-- The places of a request are made of names. -/
structure Request.Placed (r : Request) : Prop where
  config : ∀ location, r.config = some location → Proper location
  model : ∀ location, r.model = some location → Proper location
  output : ∀ location, r.output = some location → Proper location

theorem proper_placeOf (hcwd : Proper s.cwd) {word : Option String} {location : Location}
    (h : placeOf s word = some location) : Proper location := by
  obtain ⟨text, -, rfl⟩ := Option.map_eq_some_iff.mp h
  exact Files.proper_resolve hcwd text

theorem placed_of_understand {words : List String} (hcwd : Proper s.cwd)
    (h : understand s words = .request r) : r.Placed := by
  obtain ⟨given, order, -, -, -, rfl, -⟩ := understand_eq_request_iff.mp h
  exact ⟨fun _ => proper_placeOf hcwd, fun _ => proper_placeOf hcwd, fun _ => proper_placeOf hcwd⟩

namespace Parameter

variable {p : Parameter} {values values' : Table Setting}

theorem words_of_get? (h : Table.get? values p.name = Table.get? values' p.name) :
    p.argumentWords values = p.argumentWords values'
      ∧ p.optionWords values = p.optionWords values' := by
  unfold argumentWords optionWords given?
  rw [h]
  exact ⟨rfl, rfl⟩

theorem given?_place (h : Table.get? values p.name = some (Request.placeSetting place)) :
    p.given? values
      = place.map fun location => .plain (.text (Path.ofLocation location).display) := by
  unfold given?
  rw [h]
  cases place <;> rfl

/-- Of a place a parameter shows the last name only. -/
theorem words_of_place (hpath : p.isPath = true)
    (hkind : p.kind = .argument ∨ p.kind = .option (.plain .null))
    (hvalue : Table.get? values p.name = some (Request.placeSetting place))
    (hvalue' : Table.get? values' p.name = some (Request.placeSetting place'))
    (hproper : ∀ location, place = some location → Proper location)
    (hproper' : ∀ location, place' = some location → Proper location)
    (hlast : place.map List.getLast? = place'.map List.getLast?) :
    p.argumentWords values = p.argumentWords values'
      ∧ p.optionWords values = p.optionWords values' := by
  have hgiven := given?_place hvalue
  have hgiven' := given?_place hvalue'
  cases place with
  | none =>
      obtain rfl : place' = none := by simpa using hlast.symm
      unfold argumentWords optionWords
      rw [hgiven, hgiven']
      exact ⟨rfl, rfl⟩
  | some location =>
      obtain ⟨location', rfl, hnames⟩ := Option.map_eq_some_iff.mp hlast.symm
      have hshown : Setting.shown true (.plain (.text (Path.ofLocation location).display))
          = Setting.shown true (.plain (.text (Path.ofLocation location').display)) := by
        show Files.lastName (Path.ofLocation location).display
          = Files.lastName (Path.ofLocation location').display
        rw [Files.lastName_display (hproper location rfl),
          Files.lastName_display (hproper' location' rfl), hnames]
      unfold argumentWords optionWords
      rw [hgiven, hgiven', hpath]
      rcases hkind with hkind | hkind
      · rw [hkind]
        exact ⟨congrArg (fun text => [text]) hshown, rfl⟩
      · rw [hkind]
        exact ⟨rfl, congrArg (fun text => [p.spelling, text]) hshown⟩

end Parameter

theorem Request.Alike.words (h : r.Alike r') (hr : r.Placed) (hr' : r'.Placed) :
    ∀ p ∈ parameters, p.argumentWords r.settings = p.argumentWords r'.settings
      ∧ p.optionWords r.settings = p.optionWords r'.settings := by
  have hforce : Table.get? r.settings "force" = Table.get? r'.settings "force" :=
    congrArg (fun force => Table.get? ({ force } : Request).settings "force") h.force
  have hformat : Table.get? r.settings "format_output" = Table.get? r'.settings "format_output" :=
    congrArg (fun format => Table.get? ({ format } : Request).settings "format_output") h.format
  have horder : Table.get? r.settings "sibling_order" = Table.get? r'.settings "sibling_order" :=
    congrArg (fun siblingOrder => Table.get? ({ siblingOrder } : Request).settings "sibling_order")
      h.siblingOrder
  have hverbose : Table.get? r.settings "verbose" = Table.get? r'.settings "verbose" :=
    congrArg (fun verbose => Table.get? ({ verbose } : Request).settings "verbose") h.verbose
  simp only [parameters, List.forall_mem_cons]
  refine ⟨?config, Parameter.words_of_get? hforce, Parameter.words_of_get? hformat,
    Parameter.words_of_get? horder, Parameter.words_of_get? hverbose, ?path, ?output, by simp⟩
  case config =>
    exact Parameter.words_of_place rfl (Or.inr rfl) rfl rfl hr.config hr'.config h.config
  case path =>
    exact Parameter.words_of_place rfl (Or.inl rfl) rfl rfl hr.model hr'.model h.model
  case output =>
    exact Parameter.words_of_place rfl (Or.inl rfl) rfl rfl hr.output hr'.output h.output

theorem Request.Alike.commandLine_eq (h : r.Alike r') (hr : r.Placed) (hr' : r'.Placed) :
    r.commandLine = r'.commandLine := by
  have hwords := h.words hr hr'
  have harguments := List.flatMap_congr fun p hp => (hwords p hp).1
  have hoptions := List.flatMap_congr fun p hp => (hwords p hp).2
  show " ".intercalate (programName :: parameters.flatMap (·.argumentWords r.settings)
      ++ parameters.flatMap (·.optionWords r.settings)) = _
  rw [harguments, hoptions]
  rfl

/-! ## Settings and models -/

theorem Request.Alike.override_eq (h : r.Alike r') : r.override = r'.override := by
  funext settings
  unfold Request.override
  rw [h.force, h.format, h.siblingOrder]

theorem readSettings_congr {location location' : Location}
    (h : Files.readValue s (Path.ofLocation location)
      = Files.readValue s' (Path.ofLocation location')) :
    readSettings s location = readSettings s' location' := by
  unfold readSettings
  rw [h]

/-- What the settings of a request are is a matter of the value in its settings file. -/
theorem Request.Alike.effectiveSettings_eq (h : r.Alike r')
    (hconfig : ∀ location location', r.config = some location → r'.config = some location' →
      ∃ value, Files.readValue s (Path.ofLocation location) = .ok value
        ∧ Files.readValue s' (Path.ofLocation location') = .ok value) :
    r.effectiveSettings s = r'.effectiveSettings s' := by
  unfold Request.effectiveSettings
  rw [h.override_eq]
  have hnames := h.config
  cases hplace : r.config with
  | none =>
      rw [hplace] at hnames
      have hnone : r'.config = none := by simpa using hnames.symm
      rw [hnone]
  | some location =>
      rw [hplace] at hnames
      obtain ⟨location', hplace', -⟩ := Option.map_eq_some_iff.mp hnames.symm
      obtain ⟨value, hvalue, hvalue'⟩ := hconfig location location' hplace hplace'
      rw [hplace']
      dsimp only
      rw [readSettings_congr (hvalue.trans hvalue'.symm)]

/-- Models of which the files hold the same values are the same. -/
theorem readModel_eq_of_values {path path' : Path} {values : List Json.Value} {v v' : Json.Value}
    (hvalues : Files.modelValues s path = .ok values)
    (hvalues' : Files.modelValues s' path' = .ok values)
    (hread : (Files.readModel s path).result = .ok v)
    (hread' : (Files.readModel s' path').result = .ok v') : v = v' := by
  rw [Files.readModel_result] at hread hread'
  obtain ⟨files, hfiles, rfl⟩ := map_eq_ok hread
  obtain ⟨files', hfiles', rfl⟩ := map_eq_ok hread'
  have hsame := (Files.modelValues_of_modelEntries hfiles).symm.trans hvalues
  have hsame' := (Files.modelValues_of_modelEntries hfiles').symm.trans hvalues'
  have hobjects := Except.ok.inj (hsame.trans hsame'.symm)
  rw [List.map_injective_iff.mpr (fun _ _ => Json.Value.object.inj) hobjects]

/-! ## Runs -/

/-- Two runs with success leave the same text in their outputs, if they are asked for with the same
options, if the places that are given have the same last names, and if the files hold the same
values. Where the files lie does not matter. -/
theorem run_relocated {machine machine' : Machine} {words words' : List String}
    (hcwd : Proper s.cwd) (hcwd' : Proper s'.cwd)
    (hwords : understand s words = .request r) (hwords' : understand s' words' = .request r')
    (halike : r.Alike r')
    (hconfig : ∀ location location', r.config = some location → r'.config = some location' →
      ∃ value, Files.readValue s (Path.ofLocation location) = .ok value
        ∧ Files.readValue s' (Path.ofLocation location') = .ok value)
    (hmodel : ∀ location location', r.model = some location → r'.model = some location' →
      ∃ values, Files.modelValues s (Path.ofLocation location) = .ok values
        ∧ Files.modelValues s' (Path.ofLocation location') = .ok values)
    (hmachine : machine.installed = false) (hmachine' : machine'.installed = false)
    (hexit : (run s machine words).ending.exitCode = 0)
    (hexit' : (run s' machine' words').ending.exitCode = 0) :
    ∃ output output' content, r.output = some output ∧ r'.output = some output'
      ∧ (run s machine words).store.read (Path.ofLocation output) = .ok content
      ∧ (run s' machine' words').store.read (Path.ofLocation output') = .ok content := by
  have hrun : run s machine words = r.run s machine := by rw [run, hwords]
  have hrun' : run s' machine' words' = r'.run s' machine' := by rw [run, hwords']
  rw [hrun] at hexit ⊢
  rw [hrun'] at hexit' ⊢
  obtain ⟨output, settings, text, houtput, hsettings, htext, hsaved, hstore⟩ :=
    Request.run_finished hexit
  obtain ⟨output', settings', text', houtput', hsettings', htext', hsaved', hstore'⟩ :=
    Request.run_finished hexit'
  obtain ⟨place, model, hplace, hread, hgenerated⟩ := Request.generate_eq_ok htext
  obtain ⟨place', model', hplace', hread', hgenerated'⟩ := Request.generate_eq_ok htext'
  have hsame : settings = settings' := by
    rw [halike.effectiveSettings_eq hconfig] at hsettings
    exact Except.ok.inj (hsettings.symm.trans hsettings')
  have hvalue : model = model' := by
    obtain ⟨values, hvalues, hvalues'⟩ := hmodel place place' hplace hplace'
    exact readModel_eq_of_values hvalues hvalues' hread hread'
  have hline : r.commandLine = r'.commandLine :=
    halike.commandLine_eq (placed_of_understand hcwd hwords) (placed_of_understand hcwd' hwords')
  have htexts : text = text' := by
    rw [hsame, hvalue, hline, ModuleText.generate_uninstalled hmachine hmachine'] at hgenerated
    exact Except.ok.inj (hgenerated.symm.trans hgenerated')
  refine ⟨output, output', Text.Utf8.encode text, houtput, houtput', ?_, ?_⟩
  · rw [hstore]
    exact (Files.saveOutput_puts hsaved).writes.read
  · rw [hstore', htexts]
    exact (Files.saveOutput_puts hsaved').writes.read

/-- The content of a settings file. -/
def headless : List UInt8 := Text.Utf8.encode "\x7b\"header_lines\": []\x7d"

/-- A directory of the name of a model file, with one model file in it, beside a settings file. -/
def crate : Store :=
  ((((Store.empty ["barn"]).put ["barn"] .directory).put ["barn", "c.json"] (.file headless)).put
    ["barn", "m.json"] .directory).put ["barn", "m.json", "a.json"] (.file [0x7b, 0x20, 0x7d])

theorem shelf_crate_relocated :
    ∃ content, (run (shelf.put ["c.json"] (.file headless)) Machine.bare
          ["-c", "/c.json", "m.json", "o.ts"]).store.read
        (Path.ofLocation ["shelf", "o.ts"]) = .ok content
      ∧ (run crate Machine.bare ["/barn/m.json", "new/o.ts", "--config=c.json"]).store.read
        (Path.ofLocation ["barn", "new", "o.ts"]) = .ok content := by
  have hwords : understand (shelf.put ["c.json"] (.file headless))
      ["-c", "/c.json", "m.json", "o.ts"] = .request
      { config := some ["c.json"], model := some ["shelf", "m.json"],
        output := some ["shelf", "o.ts"] } := by
    decide +kernel
  have hwords' : understand crate ["/barn/m.json", "new/o.ts", "--config=c.json"] = .request
      { config := some ["barn", "c.json"], model := some ["barn", "m.json"],
        output := some ["barn", "new", "o.ts"] } := by
    decide +kernel
  obtain ⟨output, output', content, houtput, houtput', hread, hread'⟩ :=
    run_relocated (by decide) (by decide) hwords hwords'
      ⟨rfl, rfl, rfl, rfl, rfl, rfl, rfl⟩
      (fun location location' h h' => by
        obtain rfl := Option.some.inj h
        obtain rfl := Option.some.inj h'
        exact ⟨.object [("header_lines", .list [])], by decide +kernel, by decide +kernel⟩)
      (fun location location' h h' => by
        obtain rfl := Option.some.inj h
        obtain rfl := Option.some.inj h'
        exact ⟨[.object []], by decide +kernel, by decide +kernel⟩)
      (show Machine.bare.installed = false from rfl) (show Machine.bare.installed = false from rfl)
      (by decide +kernel) (by decide +kernel)
  obtain rfl := Option.some.inj houtput
  obtain rfl := Option.some.inj houtput'
  exact ⟨content, hread, hread'⟩

end Command

end SchemaGen
