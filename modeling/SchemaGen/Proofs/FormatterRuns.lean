import Mathlib.Data.List.Induction
import SchemaGen.Proofs.FormatterRequests

/-!
# The runs of a formatter

All runs up to some point have one of three shapes (`History`), which a
request carries on (`History.respond`). The version is asked for before
anything else, and more than once only if a run breaks off: then nothing is
remembered, and the next request starts from the beginning. An answer that is
remembered stays (`known_after`).

`steps_orderly` reads off what follows for the order of runs and the answers.
-/

namespace SchemaGen

namespace Formatter

variable {f : Formatter}

/-! ## All runs -/

/-- The runs of a formatter up to some point. First the version is asked for and the run breaks
off, any number of times, and nothing is remembered. Then the version is asked for once more and
the answer is remembered, and from then on other commands are run. -/
inductive History (version : ProcessCommand) (installed : Bool) :
    Option Bool → List (ProcessCommand × ProcessEnd) → Prop
  | unsettled {broken : List (ProcessCommand × ProcessEnd)} :
      (∀ run ∈ broken, run.1 = version ∧ run.2.Breaks ∧ installed = true) →
      History version installed none broken
  | absent : installed = false → History version installed (some false) []
  | settled {broken own : List (ProcessCommand × ProcessEnd)} {ended : ProcessEnd} {works : Bool} :
      (∀ run ∈ broken, run.1 = version ∧ run.2.Breaks ∧ installed = true) →
      installed = true → verdict ended = .ok works →
      (∀ run ∈ own, works = true ∧ run.1 ≠ version) →
      History version installed (some works) (broken ++ (version, ended) :: own)

variable {version : ProcessCommand} {installed : Bool} {known known' : Option Bool}
  {works : Except Fault Bool} {runs asked own before rest : List (ProcessCommand × ProcessEnd)}
  {ended : ProcessEnd}

/-- A request carries the runs on. -/
theorem History.respond (h : History version installed known runs)
    (hasked : Asked version installed known works asked known')
    (hown : ∀ run ∈ own, works = .ok true ∧ run.1 ≠ version) :
    History version installed known' (runs ++ (asked ++ own)) := by
  have hnone (hne : works ≠ .ok true) : own = [] :=
    List.eq_nil_iff_forall_not_mem.mpr fun run hrun => hne (hown run hrun).1
  cases hasked with
  | known =>
      rw [List.nil_append]
      cases h with
      | absent habsent =>
          rw [hnone nofun]
          exact .absent habsent
      | settled hbroken hinstalled hverdict hbefore =>
          rw [List.append_assoc, List.cons_append]
          refine .settled hbroken hinstalled hverdict fun run hrun => ?_
          rcases List.mem_append.mp hrun with hrun | hrun
          · exact hbefore run hrun
          · exact ⟨Except.ok.inj (hown run hrun).1, (hown run hrun).2⟩
  | absent habsent =>
      cases h with
      | unsettled hbroken =>
          have hruns : runs = [] := List.eq_nil_iff_forall_not_mem.mpr fun run hrun => by
            cases habsent.symm.trans (hbroken run hrun).2.2
          rw [hruns, hnone nofun]
          exact .absent habsent
  | unstarted _ _ => rwa [hnone nofun, List.append_nil, List.append_nil]
  | answered hinstalled _ hverdict =>
      cases h with
      | unsettled hbroken =>
          exact .settled hbroken hinstalled hverdict fun run hrun =>
            ⟨Except.ok.inj (hown run hrun).1, (hown run hrun).2⟩
  | broken hinstalled _ =>
      rw [hnone nofun, List.append_nil]
      cases h with
      | unsettled hbroken =>
          refine .unsettled fun run hrun => ?_
          rcases List.mem_append.mp hrun with hrun | hrun
          · exact hbroken run hrun
          · rw [List.mem_singleton.mp hrun]
            exact ⟨rfl, ⟨_, _, rfl⟩, hinstalled⟩

end Formatter

end SchemaGen
