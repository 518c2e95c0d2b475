import SchemaGen.Proofs.FormatterRequests

/-!
# Faults of formatting

A text is formatted or given back in all cases but those of `Escapes`
(`format_returns`). If the commands can be started and no run breaks off, one
of these is left. The program that answered the question for its version may
be gone when a text is to be formatted.
-/

namespace SchemaGen

namespace Formatter

variable {f : Formatter}

/-! ## What formatting ends with -/

/-- The faults that formatting a text can end in. -/
inductive Escapes (f : Formatter) (code : String) (settings : FormatterSettings) : Fault → Prop
  /-- The version cannot be asked for. -/
  | unasked {fault : Fault} : f.known = none → f.machine.installed = true →
      f.versionCommand.fault? = some fault → Escapes f code settings fault
  /-- The command for the text cannot be started. -/
  | unstarted {fault : Fault} : f.isAvailable.1 = .ok true →
      (f.formatCommand code settings).fault? = some fault → Escapes f code settings fault
  /-- The program is missing at the run for the text. -/
  | missing {reason : String} : (f.formatCommand code settings, .notFound reason)
        ∈ f.machine.runsTo (f.format code settings).2.machine →
      Escapes f code settings (.programMissing reason)
  /-- A run breaks off. -/
  | broken {command : ProcessCommand} {kind text : String} : (command, .broken kind text)
        ∈ f.machine.runsTo (f.format code settings).2.machine →
      Escapes f code settings (.runBroken kind text)

theorem isAvailable_of_fault {fault : Fault} (hknown : f.known = none)
    (hinstalled : f.machine.installed = true) (hfault : f.versionCommand.fault? = some fault) :
    f.isAvailable.1 = .error fault := by
  simp only [isAvailable, hknown, hinstalled, Machine.run_of_fault hfault, Except.bind, if_pos]

/-- A question for the version that breaks off is answered by this fault. -/
theorem Asked.of_broken {version command : ProcessCommand} {installed : Bool}
    {known known' : Option Bool} {works : Except Fault Bool}
    {runs : List (ProcessCommand × ProcessEnd)}
    (h : Asked version installed known works runs known')
    {kind text : String} (hrun : (command, .broken kind text) ∈ runs) :
    works = .error (.runBroken kind text) := by
  cases h with
  | answered _ _ hverdict =>
      obtain ⟨-, rfl⟩ := Prod.mk.inj (List.mem_singleton.mp hrun)
      cases hverdict
  | broken _ _ =>
      obtain ⟨-, heq⟩ := Prod.mk.inj (List.mem_singleton.mp hrun)
      cases heq
      rfl
  | _ => cases hrun

theorem format_eq_error_iff (f : Formatter) (code : String) (settings : FormatterSettings)
    (fault : Fault) :
    (f.format code settings).1.result = .error fault ↔ Escapes f code settings fault := by
  obtain ⟨asked, own, known, hasked, hserved, hfollows⟩ := f.respond_serves (.format code settings)
  have hruns : f.machine.runsTo (f.format code settings).2.machine = asked ++ own := hfollows.runs
  replace hserved : Served f f.isAvailable.1 (.format code settings)
    (.formatted (f.format code settings).1.result) own := hserved
  refine ⟨fun hresult => ?_, fun hescapes => ?_⟩
  · rw [hresult] at hserved
    cases hworks : f.isAvailable.1 with
    | error fault' =>
        rw [hworks] at hasked hserved
        obtain rfl : fault = fault' := Except.error.inj (Answer.formatted.inj hserved.of_error)
        generalize hknown : f.known = before at hasked
        generalize hinstalled : f.machine.installed = installed at hasked
        cases hasked with
        | unstarted hyes hfault => exact .unasked hknown (hinstalled.trans hyes) hfault
        | broken _ _ => exact .broken (hruns ▸ List.mem_append_left _ (List.mem_singleton_self _))
    | ok works =>
        rw [hworks] at hserved
        cases works with
        | false => cases hserved.of_idle
        | true =>
            cases hfault : (f.formatCommand code settings).fault? with
            | some fault' =>
                obtain ⟨-, hanswer⟩ := hserved.of_unstarted hfault
                obtain rfl : fault = fault' := Except.error.inj (Answer.formatted.inj hanswer)
                exact .unstarted hworks hfault
            | none =>
                obtain ⟨ended, rfl, hanswer⟩ := hserved.of_ran hfault
                rcases outcome_eq_error_iff.mp (Answer.formatted.inj hanswer).symm with
                  ⟨reason, rfl, rfl⟩ | ⟨kind, text, rfl, rfl⟩
                · exact .missing (hruns ▸ List.mem_append_right _ (List.mem_singleton_self _))
                · exact .broken (hruns ▸ List.mem_append_right _ (List.mem_singleton_self _))
  · cases hescapes with
    | unasked hknown hinstalled hfault =>
        rw [isAvailable_of_fault hknown hinstalled hfault] at hserved
        exact Answer.formatted.inj hserved.of_error
    | unstarted hworks hfault =>
        rw [hworks] at hserved
        exact Answer.formatted.inj (hserved.of_unstarted hfault).2
    | missing hmem =>
        rw [hruns, List.mem_append] at hmem
        rcases hmem with hmem | hmem
        · exact absurd (hasked.of_mem hmem).1 (f.formatCommand_ne code settings)
        · rw [Answer.formatted.inj (hserved.of_mem hmem).2]
          rfl
    | broken hmem =>
        rw [hruns, List.mem_append] at hmem
        rcases hmem with hmem | hmem
        · rw [hasked.of_broken hmem] at hserved
          exact Answer.formatted.inj hserved.of_error
        · rw [Answer.formatted.inj (hserved.of_mem hmem).2]
          rfl

/-- Formatting ends in a fault exactly in the cases of `Escapes`. Otherwise the text is given back,
or the output of the run for it when it exited with 0. If the commands can be started and no run
breaks off, one of the cases is left. The program is missing at the run for the text. -/
theorem format_returns (f : Formatter) (code : String) (settings : FormatterSettings) :
    (∀ fault, (f.format code settings).1.result = .error fault ↔ Escapes f code settings fault)
      ∧ (∀ text, (f.format code settings).1.result = .ok text →
        text = code ∨ ∃ errors, (f.formatCommand code settings, .exited 0 text errors)
          ∈ f.machine.runsTo (f.format code settings).2.machine)
      ∧ (f.versionCommand.fault? = none → (f.formatCommand code settings).fault? = none →
        (∀ ended ∈ f.machine.coming, ¬ended.Breaks) →
        ∀ fault, (f.format code settings).1.result = .error fault ↔
          ∃ reason, fault = .programMissing reason
            ∧ (f.formatCommand code settings, .notFound reason)
              ∈ f.machine.runsTo (f.format code settings).2.machine) := by
  refine ⟨f.format_eq_error_iff code settings, fun text hresult => ?_, ?_⟩
  · obtain ⟨asked, own, known, -, hserved, hfollows⟩ := f.respond_serves (.format code settings)
    have hruns : f.machine.runsTo (f.format code settings).2.machine = asked ++ own :=
      hfollows.runs
    replace hserved : Served f f.isAvailable.1 (.format code settings)
      (.formatted (f.format code settings).1.result) own := hserved
    rw [hresult] at hserved
    by_cases hsame : text = code
    · exact Or.inl hsame
    · obtain ⟨errors, hmem⟩ := hserved.of_formatted hsame
      exact Or.inr ⟨errors, hruns ▸ List.mem_append_right _ hmem⟩
  · intro hversion hcommand hcoming fault
    rw [f.format_eq_error_iff]
    refine ⟨fun hescapes => ?_, ?_⟩
    · cases hescapes with
      | unasked _ _ hfault => cases hversion.symm.trans hfault
      | unstarted _ hfault => cases hcommand.symm.trans hfault
      | missing hmem => exact ⟨_, rfl, hmem⟩
      | broken hmem =>
          exact absurd ⟨_, _, rfl⟩ (Machine.not_breaks_of_mem_runsTo hcoming hmem)
    · rintro ⟨reason, rfl, hmem⟩
      exact .missing hmem

/-- A program that gives its version and is gone when a text is to be formatted. -/
def vanishing : Formatter := { machine := ⟨true, [.exited 0 "3.0.0\n" "", .notFound "gone"], []⟩ }

/-- A program that is still there then. -/
def punctual : Formatter := { machine := ⟨true, [.exited 0 "3.0.0\n" "", .exited 0 "x;\n" ""], []⟩ }

theorem vanishing_not_returned :
    (vanishing.format "x\n" {}).1.result = .error (.programMissing "gone") := by
  decide +kernel

theorem punctual_returned : punctual.versionCommand.fault? = none
    ∧ (punctual.formatCommand "x\n" {}).fault? = none
    ∧ (∀ ended ∈ punctual.machine.coming, ¬ended.Breaks)
    ∧ (punctual.format "x\n" {}).1.result = .ok "x;\n"
    ∧ (∃ errors, (punctual.formatCommand "x\n" {}, .exited 0 "x;\n" errors)
      ∈ punctual.machine.runsTo (punctual.format "x\n" {}).2.machine)
    ∧ ¬∃ reason, (punctual.formatCommand "x\n" {}, .notFound reason)
      ∈ punctual.machine.runsTo (punctual.format "x\n" {}).2.machine := by
  obtain ⟨-, hreturned, hmissing⟩ := format_returns punctual "x\n" {}
  have hversion : punctual.versionCommand.fault? = none := by decide +kernel
  have hcommand : (punctual.formatCommand "x\n" {}).fault? = none := by decide +kernel
  have hcoming : ∀ ended ∈ punctual.machine.coming, ¬ended.Breaks := by
    simp [punctual, ProcessEnd.Breaks]
  have hok : (punctual.format "x\n" {}).1.result = .ok "x;\n" := by decide +kernel
  refine ⟨hversion, hcommand, hcoming, hok, (hreturned _ hok).resolve_left (by decide), ?_⟩
  rintro ⟨reason, hmem⟩
  cases hok.symm.trans ((hmissing hversion hcommand hcoming _).mpr ⟨reason, rfl, hmem⟩)

end Formatter

end SchemaGen
