import Mathlib.Data.List.Basic
import SchemaGen.Formatter

/-!
# What a formatter does for a request

A formatter runs a program to find out whether it works and to lay out texts.
Whatever it is asked, and however the runs end, `Formatter.steps` has what
became of each request: what the formatter found out about itself, the
answer, and the runs that were made.

A request has two parts. First the formatter finds out whether it works, from
what it remembers or from a run (`Asked`). Then it does what it is asked
(`Served`). Each of these has a case for every way in which the part can go,
and `respond_serves` says that a request is the one and then the other.
`Follows` says what else is the same afterwards.
-/

namespace SchemaGen

/-! ## Commands that can be started -/

/-- A command can be started if and only if its words are texts without the character that ends
words. -/
theorem ProcessCommand.fault?_eq_none_iff {command : ProcessCommand} :
    command.fault? = none ↔
      ∀ word ∈ command.words, ∃ text, word = .text text ∧ '\x00' ∉ text.toList := by
  rw [fault?, List.findSome?_eq_none_iff]
  refine forall₂_congr fun word _ => ?_
  cases word with
  | text text => simp [wordFault?]
  | _ => simp [wordFault?]

/-- A run that ends in a way in which no program ends. -/
def ProcessEnd.Breaks (ended : ProcessEnd) : Prop := ∃ kind text, ended = .broken kind text

/-! ## Runs -/

namespace Machine

variable {m : Machine}

/-- How a run ends that comes after a number of others. -/
def endAt (m : Machine) (index : Nat) : ProcessEnd := m.coming.getD index (.notFound "")

/-- The machine after it has run commands. -/
def runAll (m : Machine) (commands : List ProcessCommand) : Machine :=
  commands.foldl (fun m command => (m.start command).2) m

/-- The commands that a later machine has run and this one has not, and how they ended. -/
def runsTo (m later : Machine) : List (ProcessCommand × ProcessEnd) :=
  (later.ran.drop m.ran.length).mapIdx fun index command => (command, m.endAt index)

@[simp] theorem start_end (m : Machine) (command : ProcessCommand) :
    (m.start command).1 = m.endAt 0 := by
  obtain ⟨installed, coming, ran⟩ := m
  cases coming <;> rfl

@[simp] theorem ran_start (m : Machine) (command : ProcessCommand) :
    (m.start command).2.ran = m.ran ++ [command] := by
  obtain ⟨installed, coming, ran⟩ := m
  cases coming <;> rfl

@[simp] theorem installed_start (m : Machine) (command : ProcessCommand) :
    (m.start command).2.installed = m.installed := by
  obtain ⟨installed, coming, ran⟩ := m
  cases coming <;> rfl

@[simp] theorem endAt_start (m : Machine) (command : ProcessCommand) (index : Nat) :
    (m.start command).2.endAt index = m.endAt (index + 1) := by
  obtain ⟨installed, coming, ran⟩ := m
  cases coming <;> simp [start, endAt]

@[simp] theorem ran_runAll (m : Machine) (commands : List ProcessCommand) :
    (m.runAll commands).ran = m.ran ++ commands := by
  induction commands generalizing m with
  | nil => exact (List.append_nil _).symm
  | cons command commands ih =>
      rw [runAll, List.foldl_cons, ← runAll, ih, ran_start, List.append_assoc,
        List.singleton_append]

@[simp] theorem installed_runAll (m : Machine) (commands : List ProcessCommand) :
    (m.runAll commands).installed = m.installed := by
  induction commands generalizing m with
  | nil => rfl
  | cons command commands ih => rw [runAll, List.foldl_cons, ← runAll, ih, installed_start]

@[simp] theorem endAt_runAll (m : Machine) (commands : List ProcessCommand) (index : Nat) :
    (m.runAll commands).endAt index = m.endAt (index + commands.length) := by
  induction commands generalizing m with
  | nil => rfl
  | cons command commands ih =>
      rw [runAll, List.foldl_cons, ← runAll, ih, endAt_start, List.length_cons, Nat.add_assoc]

theorem runAll_append (m : Machine) (first second : List ProcessCommand) :
    m.runAll (first ++ second) = (m.runAll first).runAll second :=
  List.foldl_append

theorem runsTo_runAll (m : Machine) (commands : List ProcessCommand) :
    m.runsTo (m.runAll commands)
      = commands.mapIdx fun index command => (command, m.endAt index) := by
  rw [runsTo, ran_runAll, List.drop_left]

/-- Runs add up. -/
theorem runsTo_append (m : Machine) (first second : List ProcessCommand) :
    m.runsTo (m.runAll (first ++ second))
      = m.runsTo (m.runAll first)
        ++ (m.runAll first).runsTo ((m.runAll first).runAll second) := by
  simp only [runsTo_runAll, List.mapIdx_append, endAt_runAll]

theorem run_of_fault {command : ProcessCommand} {fault : Fault} (h : command.fault? = some fault) :
    m.run command = (.error fault, m) := by
  rw [run, h]

theorem run_of_startable {command : ProcessCommand} (h : command.fault? = none) :
    m.run command = (.ok (m.endAt 0), m.runAll [command]) := by
  rw [run, h, start_end]
  rfl

/-- A run breaks off only if one of the coming ends says so. -/
theorem not_breaks_of_mem_runsTo (h : ∀ ended ∈ m.coming, ¬ended.Breaks) {later : Machine}
    {run : ProcessCommand × ProcessEnd} (hrun : run ∈ m.runsTo later) : ¬run.2.Breaks := by
  obtain ⟨index, hindex, rfl⟩ := List.mem_mapIdx.mp hrun
  rw [endAt, List.getD_eq_getElem?_getD]
  cases hcoming : m.coming[index]? with
  | none => nofun
  | some ended => exact h ended (List.mem_of_getElem? hcoming)

end Machine

namespace Formatter

variable {f : Formatter}

/-! ## Requests -/

/-- What a formatter can be asked. -/
inductive Request where
  | availability
  | format (code : String) (settings : FormatterSettings)

/-- What a formatter can answer. -/
inductive Answer where
  | available (works : Except Fault Bool)
  | formatted (result : Except Fault String)

/-- Answers a request. -/
def respond (f : Formatter) : Request → Answer × Formatter
  | .availability => (.available f.isAvailable.1, f.isAvailable.2)
  | .format code settings =>
    (.formatted (f.format code settings).1.result, (f.format code settings).2)

/-- A request with what the formatter found out about itself, its answer, and the runs that were
made. -/
structure Step where
  request : Request
  works : Except Fault Bool
  answer : Answer
  runs : List (ProcessCommand × ProcessEnd)

/-- What becomes of a request. -/
def step (f : Formatter) (request : Request) : Step :=
  ⟨request, f.isAvailable.1, (f.respond request).1,
    f.machine.runsTo (f.respond request).2.machine⟩

/-- What becomes of requests, one after the other. -/
def steps (f : Formatter) : List Request → List Step
  | [] => []
  | request :: requests => f.step request :: (f.respond request).2.steps requests

/-- The formatter after requests. -/
def after (f : Formatter) (requests : List Request) : Formatter :=
  requests.foldl (fun f request => (f.respond request).2) f

/-- How a formatter finds out whether it works, from what it remembers: the answer, the runs that
are made for it, and what it then remembers. -/
inductive Asked (version : ProcessCommand) (installed : Bool) : Option Bool →
    Except Fault Bool → List (ProcessCommand × ProcessEnd) → Option Bool → Prop
  | known {works : Bool} : Asked version installed (some works) (.ok works) [] (some works)
  | absent : installed = false → Asked version installed none (.ok false) [] (some false)
  | unstarted {fault : Fault} : installed = true → version.fault? = some fault →
      Asked version installed none (.error fault) [] none
  | answered {works : Bool} {ended : ProcessEnd} : installed = true → version.fault? = none →
      verdict ended = .ok works →
      Asked version installed none (.ok works) [(version, ended)] (some works)
  | broken {kind text : String} : installed = true → version.fault? = none →
      Asked version installed none (.error (.runBroken kind text))
        [(version, .broken kind text)] none

/-- What a formatter does for a request when it has found out whether it works: the answer, and the
runs that were made for it. -/
inductive Served (f : Formatter) :
    Except Fault Bool → Request → Answer → List (ProcessCommand × ProcessEnd) → Prop
  | availability {works : Except Fault Bool} :
      Served f works .availability (.available works) []
  | stopped {fault : Fault} {code : String} {settings : FormatterSettings} :
      Served f (.error fault) (.format code settings) (.formatted (.error fault)) []
  | idle {code : String} {settings : FormatterSettings} :
      Served f (.ok false) (.format code settings) (.formatted (.ok code)) []
  | unstarted {fault : Fault} {code : String} {settings : FormatterSettings} :
      (f.formatCommand code settings).fault? = some fault →
      Served f (.ok true) (.format code settings) (.formatted (.error fault)) []
  | ran {ended : ProcessEnd} {code : String} {settings : FormatterSettings} :
      (f.formatCommand code settings).fault? = none →
      Served f (.ok true) (.format code settings)
        (.formatted (outcome code (f.formatCommand code settings) ended).result)
        [(f.formatCommand code settings, ended)]

variable {g : Formatter} {version : ProcessCommand} {installed : Bool} {known known' : Option Bool}
  {works : Except Fault Bool} {code text : String} {settings : FormatterSettings}
  {request : Request} {answer : Answer} {runs own : List (ProcessCommand × ProcessEnd)}
  {command : ProcessCommand} {ended : ProcessEnd} {fault : Fault}

theorem verdict_eq_error_iff :
    verdict ended = .error fault ↔
      ∃ kind text, ended = .broken kind text ∧ fault = .runBroken kind text := by
  cases ended <;> simp [verdict, eq_comm]

/-- The formatter differs from another one in the runs that its machine has made, and in what it
remembers. -/
structure Follows (f g : Formatter) (runs : List (ProcessCommand × ProcessEnd))
    (known : Option Bool) : Prop where
  eq : g = { f with machine := f.machine.runAll (runs.map Prod.fst), known }
  runs : f.machine.runsTo g.machine = runs

theorem follows_nil (h : f.known = known) : Follows f f [] known := by
  subst h
  exact ⟨rfl, Machine.runsTo_runAll f.machine []⟩

theorem Follows.trans {g' : Formatter} {runs' : List (ProcessCommand × ProcessEnd)}
    (h : Follows f g runs known) (h' : Follows g g' runs' known') :
    Follows f g' (runs ++ runs') known' := by
  obtain ⟨rfl, hruns⟩ := h
  obtain ⟨rfl, hruns'⟩ := h'
  refine ⟨by rw [List.map_append, Machine.runAll_append], ?_⟩
  dsimp only at hruns hruns' ⊢
  rw [← Machine.runAll_append, Machine.runsTo_append, hruns, hruns']

/-- One run. -/
theorem follows_run (f : Formatter) (command : ProcessCommand) (known : Option Bool) :
    Follows f { f with machine := f.machine.runAll [command], known }
      [(command, f.machine.endAt 0)] known :=
  ⟨rfl, Machine.runsTo_runAll f.machine [command]⟩

theorem isAvailable_asked (f : Formatter) : ∃ runs known,
    Asked f.versionCommand f.machine.installed f.known f.isAvailable.1 runs known
      ∧ Follows f f.isAvailable.2 runs known := by
  unfold isAvailable
  cases hknown : f.known with
  | some works => exact ⟨[], _, .known, follows_nil hknown⟩
  | none =>
      cases hinstalled : f.machine.installed with
      | false => exact ⟨[], _, .absent rfl, rfl, Machine.runsTo_runAll f.machine []⟩
      | true =>
          cases hfault : f.versionCommand.fault? with
          | some fault =>
              rw [Machine.run_of_fault hfault]
              simp only [Except.bind, if_pos]
              exact ⟨[], none, .unstarted rfl hfault, rfl, Machine.runsTo_runAll f.machine []⟩
          | none =>
              rw [Machine.run_of_startable hfault]
              cases hverdict : verdict (f.machine.endAt 0) with
              | ok works =>
                  simp only [Except.bind, hverdict, if_pos]
                  exact ⟨_, _, .answered rfl hfault hverdict, follows_run ..⟩
              | error fault =>
                  obtain ⟨kind, text, hended, rfl⟩ := verdict_eq_error_iff.mp hverdict
                  simp only [Except.bind, hverdict, if_pos]
                  have hrun := follows_run f f.versionCommand none
                  rw [hended] at hrun
                  exact ⟨_, none, .broken rfl hfault, hrun⟩

theorem Follows.formatCommand (h : Follows f g runs known) (code : String)
    (settings : FormatterSettings) :
    g.formatCommand code settings = f.formatCommand code settings := by
  rw [h.eq]
  rfl

theorem Asked.of_error (h : Asked version installed known (.error fault) runs known') :
    version.fault? = some fault ∧ runs = []
      ∨ ∃ kind text, fault = .runBroken kind text ∧ runs = [(version, .broken kind text)] := by
  cases h with
  | unstarted _ hfault => exact Or.inl ⟨hfault, rfl⟩
  | broken _ _ => exact Or.inr ⟨_, _, rfl, rfl⟩

theorem Asked.of_mem (h : Asked version installed known works runs known')
    {run : ProcessCommand × ProcessEnd} (hrun : run ∈ runs) : run.1 = version ∧ known = none := by
  cases h with
  | answered _ _ _ => exact ⟨congrArg Prod.fst (List.mem_singleton.mp hrun), rfl⟩
  | broken _ _ => exact ⟨congrArg Prod.fst (List.mem_singleton.mp hrun), rfl⟩
  | _ => cases hrun

/-- To answer a request is to find out whether the formatter works, and then to serve it. -/
theorem respond_serves (f : Formatter) (request : Request) : ∃ asked own known,
    Asked f.versionCommand f.machine.installed f.known f.isAvailable.1 asked known
      ∧ Served f f.isAvailable.1 request (f.respond request).1 own
      ∧ Follows f (f.respond request).2 (asked ++ own) known := by
  obtain ⟨asked, known, hasked, hfollows⟩ := f.isAvailable_asked
  cases request with
  | availability => exact ⟨asked, [], known, hasked, .availability, by rwa [List.append_nil]⟩
  | format code settings =>
      have hcommand := hfollows.formatCommand code settings
      have hknown : f.isAvailable.2.known = known := by rw [hfollows.eq]
      unfold respond format
      generalize f.isAvailable = available at hasked hfollows hcommand hknown ⊢
      obtain ⟨works, g⟩ := available
      dsimp only at hasked hfollows hcommand hknown ⊢
      have hsame : Follows f g (asked ++ []) known := by rwa [List.append_nil]
      cases works with
      | error fault => exact ⟨asked, [], known, hasked, .stopped, hsame⟩
      | ok works =>
          cases works with
          | false => exact ⟨asked, [], known, hasked, .idle, hsame⟩
          | true =>
              dsimp only
              rw [hcommand]
              cases hfault : (f.formatCommand code settings).fault? with
              | some fault =>
                  rw [Machine.run_of_fault hfault]
                  exact ⟨asked, [], known, hasked, .unstarted hfault, hsame⟩
              | none =>
                  rw [Machine.run_of_startable hfault]
                  refine ⟨asked, _, known, hasked, .ran hfault, hfollows.trans ?_⟩
                  have hrun := follows_run g (f.formatCommand code settings) g.known
                  rwa [hknown] at hrun ⊢

/-- The same with what is the same for all formatters that follow another one. -/
theorem Follows.respond (h : Follows f g runs known) (request : Request) : ∃ asked own known',
    Asked f.versionCommand f.machine.installed known g.isAvailable.1 asked known'
      ∧ Served f g.isAvailable.1 request (g.respond request).1 own
      ∧ Follows g (g.respond request).2 (asked ++ own) known' := by
  obtain ⟨asked, own, known', hasked, hserved, hrespond⟩ := g.respond_serves request
  refine ⟨asked, own, known', ?_, ?_, hrespond⟩
  · have hversion : g.versionCommand = f.versionCommand := by rw [h.eq]; rfl
    have hinstalled : g.machine.installed = f.machine.installed := by
      rw [h.eq, Machine.installed_runAll]
    have hknown : g.known = known := by rw [h.eq]
    rwa [hversion, hinstalled, hknown] at hasked
  · generalize g.respond request = responded at hserved ⊢
    generalize g.isAvailable.1 = works at hserved ⊢
    obtain ⟨answer, later⟩ := responded
    cases hserved with
    | availability => exact .availability
    | stopped => exact .stopped
    | idle => exact .idle
    | unstarted hfault =>
        rw [h.formatCommand] at hfault
        exact .unstarted hfault
    | ran hfault =>
        rw [h.formatCommand] at hfault ⊢
        exact .ran hfault

theorem formatCommand_ne (f : Formatter) (code : String) (settings : FormatterSettings) :
    f.formatCommand code settings ≠ f.versionCommand := by
  intro h
  cases congrArg ProcessCommand.input h

theorem Served.of_error (h : Served f (.error fault) (.format code settings) answer own) :
    answer = .formatted (.error fault) := by
  cases h with
  | stopped => rfl

theorem Served.of_idle (h : Served f (.ok false) (.format code settings) answer own) :
    answer = .formatted (.ok code) := by
  cases h with
  | idle => rfl

theorem Served.of_unstarted (h : Served f (.ok true) (.format code settings) answer own)
    (hfault : (f.formatCommand code settings).fault? = some fault) :
    own = [] ∧ answer = .formatted (.error fault) := by
  cases h with
  | unstarted hsome => exact ⟨rfl, by rw [Option.some.inj (hsome.symm.trans hfault)]⟩
  | ran hnone => cases hnone.symm.trans hfault

theorem Served.of_ran (h : Served f (.ok true) (.format code settings) answer own)
    (hfault : (f.formatCommand code settings).fault? = none) :
    ∃ ended, own = [(f.formatCommand code settings, ended)]
      ∧ answer = .formatted (outcome code (f.formatCommand code settings) ended).result := by
  cases h with
  | unstarted hsome => cases hsome.symm.trans hfault
  | ran _ => exact ⟨_, rfl, rfl⟩

/-- What is run for a text is the command for it, and the answer is what comes of it. -/
theorem Served.of_mem (h : Served f works (.format code settings) answer own)
    (hrun : (command, ended) ∈ own) :
    command = f.formatCommand code settings
      ∧ answer = .formatted (outcome code command ended).result := by
  cases h with
  | ran _ =>
      obtain ⟨rfl, rfl⟩ := Prod.mk.inj (List.mem_singleton.mp hrun)
      exact ⟨rfl, rfl⟩
  | _ => cases hrun

theorem outcome_eq_error_iff :
    (outcome code command ended).result = .error fault ↔
      (∃ reason, fault = .programMissing reason ∧ ended = .notFound reason)
        ∨ ∃ kind text, fault = .runBroken kind text ∧ ended = .broken kind text := by
  cases ended with
  | exited exitCode output errors =>
      rw [outcome]
      split <;> simp
  | timedOut => simp [outcome]
  | failed text => simp [outcome]
  | notFound text => simp [outcome, eq_comm]
  | broken kind text => simp [outcome, eq_comm]

theorem outcome_eq_ok (h : (outcome code command ended).result = .ok text) :
    text = code ∨ ∃ errors, ended = .exited 0 text errors := by
  cases ended with
  | exited exitCode output errors =>
      rw [outcome] at h
      split at h
      · rename_i hzero
        exact Or.inr ⟨errors, by rw [hzero, Except.ok.inj h]⟩
      · exact Or.inl (Except.ok.inj h).symm
  | timedOut => exact Or.inl (Except.ok.inj h).symm
  | failed text => exact Or.inl (Except.ok.inj h).symm
  | notFound text => cases h
  | broken kind text => cases h

/-- What is answered in the stead of a text is the output of its run. -/
theorem Served.of_formatted
    (h : Served f works (.format code settings) (.formatted (.ok text)) own) (hne : text ≠ code) :
    ∃ errors, (f.formatCommand code settings, .exited 0 text errors) ∈ own := by
  generalize hanswer : Answer.formatted (.ok text) = answer at h
  cases h with
  | stopped => cases hanswer
  | idle => exact absurd (Except.ok.inj (Answer.formatted.inj hanswer)) hne
  | unstarted _ => cases hanswer
  | ran _ =>
      obtain ⟨errors, rfl⟩ := (outcome_eq_ok (Answer.formatted.inj hanswer).symm).resolve_left hne
      exact ⟨errors, List.mem_singleton_self _⟩

end Formatter

end SchemaGen
