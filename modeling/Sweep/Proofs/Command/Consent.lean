import Mathlib
import Sweep.Command.Perform
import Sweep.Proofs.Disk.Spelled
import Sweep.Proofs.Scan.Dry
/-!
# Consent to removals

A run removes something only if it is live, nothing is wrong with it, and the user has agreed, be it
beforehand or by the answer to the question. Where a run for machines asks nothing because its
preview is empty, it goes on to a live scan, but that one goes in step with the preview.

## Main results

* `Invocation.disk_perform_run` — no failed, dry or unconfirmed run changes the disk.
-/

namespace Sweep

namespace Talk

/-- How a command ends when its question is answered like this. Reading the answer can fail. -/
def given (answer : Except Disk.Fault String) : Talk → Ending
  | ends ending => ending
  | asks _ resume => resume answer

/-- A command reads its answer from the first line of the input. -/
theorem answered_eq_given (input : Bytes) (talk : Talk) :
    talk.answered input = talk.given (firstLine input) := by
  cases talk <;> rfl

end Talk

namespace Run

theorem disk_carryOut (run : Run) (view : View) (disk : Disk) (written : Written) :
    (run.carryOut view disk written).disk =
      (scan .idle run.mode disk run.root run.rules).disk := rfl

/-- A run that is carried out does not fail. -/
theorem failure_carryOut (run : Run) (view : View) (disk : Disk) (written : Written) :
    (run.carryOut view disk written).failure = none := rfl

theorem paths_execute (run : Run) (view : View) (mode : Mode) (disk : Disk) :
    (run.execute view mode disk).2.paths = (scan .idle mode disk run.root run.rules).found :=
  paths_ofEvents_scan view.home _ mode disk run.root run.rules

theorem disk_carryOut_of_dry {run : Run} (hdry : run.mode = .dry) (view : View) (disk : Disk)
    (written : Written) : (run.carryOut view disk written).disk = disk := by
  rw [disk_carryOut, hdry, disk_scan_dry]

/-- A run whose preview is empty changes nothing. -/
theorem disk_carryOut_of_preview {run : Run} {view : View} {disk : Disk}
    (hnothing : (run.execute view .dry disk).2.paths.isEmpty = true) (written : Written) :
    (run.carryOut view disk written).disk = disk := by
  rw [List.isEmpty_iff, paths_execute] at hnothing
  rw [disk_carryOut]
  cases run.mode with
  | dry => exact disk_scan_dry disk run.root run.rules
  | live => rw [scan_live_of_found_nil hnothing, disk_scan_dry]

theorem disk_resume_of_failure {run : Run} {view : View} {disk : Disk} {written : Written}
    {answer : Except Disk.Fault String}
    (h : (run.resume view disk written answer).failure.isSome = true) :
    (run.resume view disk written answer).disk = disk := by
  cases answer with
  | error fault => rfl
  | ok line =>
      simp only [resume] at h ⊢
      split
      · rename_i hyes
        simp [hyes, failure_carryOut] at h
      · rfl

theorem disk_resume_of_no {run : Run} {view : View} {disk : Disk} {written : Written}
    {answer : Except Disk.Fault String} (hno : ∀ line, answer = .ok line → Talk.isYes line = false) :
    (run.resume view disk written answer).disk = disk := by
  cases answer with
  | error fault => rfl
  | ok line => simp [resume, hno line rfl, Ending.ofSuccess]

/-- A run that fails on its way leaves the disk alone. -/
theorem disk_talk_of_failure {run : Run} {view : View} {asking : Bool} {disk : Disk}
    {answer : Except Disk.Fault String}
    (h : (((run.talk view asking disk).given answer).failure).isSome = true) :
    ((run.talk view asking disk).given answer).disk = disk := by
  revert h
  unfold talk
  simp only
  split
  · split
    · -- for people the run is over, for machines it goes on; neither fails
      simp only [Talk.given]
      split <;> simp [Ending.ofSuccess, failure_carryOut]
    · exact disk_resume_of_failure
  · simp [Talk.given, failure_carryOut]

theorem disk_talk_of_dry {run : Run} (hdry : run.mode = .dry) (view : View) (asking : Bool)
    (disk : Disk) (answer : Except Disk.Fault String) :
    ((run.talk view asking disk).given answer).disk = disk := by
  unfold talk
  rw [if_neg (by simp [hdry])]
  exact disk_carryOut_of_dry hdry view disk _

/-- A run that must ask changes nothing unless it is told yes. -/
theorem disk_talk_of_no {run : Run} {answer : Except Disk.Fault String}
    (hno : ∀ line, answer = .ok line → Talk.isYes line = false) (view : View) (disk : Disk) :
    ((run.talk view true disk).given answer).disk = disk := by
  cases hmode : run.mode with
  | dry => exact disk_talk_of_dry hmode view true disk answer
  | live =>
      unfold talk
      simp only [hmode, Bool.and_true, decide_true, if_true]
      split
      · rename_i hnothing
        simp only [Talk.given]
        split
        · rfl
        · exact disk_carryOut_of_preview hnothing _
      · exact disk_resume_of_no hno

end Run

theorem RunRequest.mode_eq_dry_iff {request : RunRequest} {config : Config} :
    request.mode config = .dry ↔
      request.dryRun = true ∨ request.apply = false ∧ config.dryRun = true := by
  unfold mode
  split
  · rename_i h
    simpa using h
  · rename_i h
    simpa using h

/-- A run changes nothing if it fails, if it is dry, or if it has to ask and is not told yes. -/
theorem Invocation.disk_perform_run (env : Environment) (disk : Disk) (invocation : Invocation)
    (request : RunRequest) (hrun : invocation.command = .run request)
    (answer : Except Disk.Fault String) :
    ((((invocation.perform env disk).given answer).failure).isSome = true →
      ((invocation.perform env disk).given answer).disk = disk) ∧
    ∀ config, Config.load disk env.configPath = .ok config →
      (request.dryRun = true ∨ request.apply = false ∧ config.dryRun = true →
        ((invocation.perform env disk).given answer).disk = disk) ∧
      (config.confirm = true → request.yes = false →
        (∀ line, answer = .ok line → Talk.isYes line = false) →
        ((invocation.perform env disk).given answer).disk = disk) := by
  unfold perform
  cases hconfig : Config.load disk env.configPath with
  | error failure => exact ⟨fun _ => rfl, fun _ h => by cases h⟩
  | ok config =>
      simp only [hrun]
      cases hprepare : Run.prepare env.home config disk request with
      | error failure => exact ⟨fun _ => rfl, fun _ _ => ⟨fun _ => rfl, fun _ _ _ => rfl⟩⟩
      | ok run =>
          refine ⟨Run.disk_talk_of_failure, fun config' hsame => ?_⟩
          obtain rfl : config = config' := by simpa using hsame
          refine ⟨fun hdry => ?_, fun hconfirm hyes hno => ?_⟩
          · refine Run.disk_talk_of_dry ?_ _ _ _ _
            rw [Run.prepare_mode hprepare, RunRequest.mode_eq_dry_iff]
            exact hdry
          · simp only [hconfirm, hyes, Bool.not_false, Bool.and_true]
            exact Run.disk_talk_of_no hno _ _

/-! ## A run that is declined -/

/-- A disk with the file `/w/a` and the rule file `/r`. -/
def consentDisk : Disk :=
  .ofLeaves [("/r", .ofContent "delete a\n"), ("/w/a", .ofContent "")]

/-- A run in `/w` that removes matches once the user agrees. -/
def consentRequest : RunRequest :=
  ⟨Path.ofText "/w", some (Path.ofText "/r"), none, true, false, false⟩

/-- The invocation of a run for machines. -/
def quietRun (request : RunRequest) : Invocation where
  command := .run request
  format := some .quiet
  noColor := false
  verbose := false
  quiet := false

/-- An environment without a configuration. -/
def bareEnvironment : Environment where
  home := none
  dataHome := some (Path.ofText "/c")
  rulesFile := none
  forcesColor := false

/-- The same run leaves the disk alone at a no, and removes the file at a yes. -/
theorem Invocation.disk_perform_run_declined :
    (((quietRun consentRequest).perform bareEnvironment consentDisk).given (.ok "n\n")).disk =
        consentDisk ∧
      (((quietRun consentRequest).perform bareEnvironment consentDisk).given (.ok "y\n")).disk.at?
        (.ofText "/w/a") = none := by
  have hload : Config.load consentDisk bareEnvironment.configPath = .ok {} := by cbv
  have hno : ∀ line, (.ok "n\n" : Except Disk.Fault String) = .ok line → Talk.isYes line = false := by
    rintro line ⟨⟩
    cbv
  have hrun := Invocation.disk_perform_run bareEnvironment consentDisk (quietRun consentRequest)
    consentRequest rfl (.ok "n\n")
  exact ⟨(hrun.2 {} hload).2 rfl rfl hno, by cbv⟩

end Sweep
