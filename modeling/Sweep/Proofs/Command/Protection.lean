import Sweep.Proofs.Command.Consent
import Sweep.Proofs.Path
/-!
# Protected roots under other spellings

Whether a live run may start at a root is looked up for the absolute path of the root, in which `..`
counts as a component. The scan folds that path. For a root without `..` this makes no difference. A
root with `..` is let through whenever its spelling is none of the protected ones, also where it
folds to a protected path; the scan then starts there.

## Main results

* `Run.prepare_eq_ok_iff` — all that a run needs to begin.
* `Invocation.refuses_protected_iff` — which live runs at a protected path are refused.
-/

namespace Sweep

open Disk

/-- Paths are protected by their components. -/
theorem isProtected_congr {home : Option Path} {a b : Path} (h : a.components = b.components) :
    isProtected home a = isProtected home b := by
  simp only [isProtected, Path.sameAs, h]

/-- Without `..`, an absolute path is protected just as the path that it folds to. -/
theorem isProtected_fold {home : Option Path} {path : Path} (hrooted : path.rooted = true)
    (hup : .up ∉ path.components) : isProtected home path.fold = isProtected home path :=
  isProtected_congr (Path.components_fold hrooted hup)

namespace Run

/-- A run begins when it starts at a directory, its rules can be loaded, and its absolute root may
be scanned. -/
theorem prepare_eq_ok_iff {home : Option Path} {config : Config} {disk : Disk} {request : RunRequest}
    {run : Run} :
    prepare home config disk request = .ok run ↔
      disk.isDirectory request.root = true ∧
      RuleSource.resolve disk request.root request.rulesFile request.preset config =
        .ok run.source ∧
      run.source.load disk = .ok run.rules ∧
      request.root.absolute? disk.workingPath? = some run.root ∧
      mayStart home (request.mode config) run.root = true ∧
      run.mode = request.mode config := by
  obtain ⟨root, source, rules, mode⟩ := run
  unfold prepare
  cases disk.isDirectory request.root with
  | false => simp
  | true =>
      cases RuleSource.resolve disk request.root request.rulesFile request.preset config with
      | error failure => simp [bind, Except.bind]
      | ok found =>
          cases hrules : found.load disk with
          | error failure =>
              simp only [hrules, bind, Except.bind]
              constructor
              · intro h
                simp at h
              · rintro ⟨-, hsource, hload, -⟩
                cases hsource
                rw [hrules] at hload
                cases hload
          | ok loaded =>
              cases request.root.absolute? disk.workingPath? with
              | none => simp [hrules, bind, Except.bind]
              | some absolute =>
                  simp only [hrules, bind, Except.bind, pure, Except.pure]
                  by_cases hstart : mayStart home (request.mode config) absolute = true
                  · grind
                  · grind

/-- The scan of a run starts where the root that was asked for folds to. -/
theorem absolutize_of_prepare {home : Option Path} {config : Config} {disk : Disk}
    {request : RunRequest} {run : Run} (h : prepare home config disk request = .ok run) :
    disk.absolutize run.root = disk.absolutize request.root :=
  Path.absolutize_absolute? (prepare_eq_ok_iff.1 h).2.2.2.1 _

/-- A run that has begun only fails if its answer cannot be read. -/
theorem failure_talk (run : Run) (view : View) (asking : Bool) (disk : Disk) (line : String) :
    ((run.talk view asking disk).given (.ok line)).failure = none := by
  unfold talk
  simp only
  split
  · split
    · simp only [Talk.given]
      split
      · rfl
      · exact run.failure_carryOut view disk _
    · simp only [Talk.given, resume]
      split
      · exact run.failure_carryOut view disk _
      · rfl
  · exact run.failure_carryOut view disk _

end Run

/-- A live run whose root folds to a protected path is refused and changes nothing, unless all else
is well with it and its absolute root has a `..` that makes it another path than the protected one.
In any case the scan would start at the protected path. -/
theorem Invocation.refuses_protected_iff (env : Environment) (disk : Disk) (invocation : Invocation)
    (request : RunRequest) (config : Config) (hrun : invocation.command = .run request)
    (hconfig : Config.load disk env.configPath = .ok config) (hlive : request.mode config = .live)
    (hprotected : isProtected env.home (disk.absolutize request.root) = true) :
    ((∀ answer, ((invocation.perform env disk).given answer).failure.isSome = true ∧
        ((invocation.perform env disk).given answer).disk = disk) ↔
      ¬ (disk.isDirectory request.root = true ∧
        (∃ source rules,
          RuleSource.resolve disk request.root request.rulesFile request.preset config = .ok source ∧
            source.load disk = .ok rules) ∧
        ∃ absolute, request.root.absolute? disk.workingPath? = some absolute ∧
          .up ∈ absolute.components ∧ isProtected env.home absolute = false)) ∧
    ∀ run, Run.prepare env.home config disk request = .ok run →
      disk.absolutize run.root = disk.absolutize request.root := by
  refine ⟨?_, fun run => Run.absolutize_of_prepare⟩
  unfold perform
  simp only [hconfig, hrun]
  cases hprepare : Run.prepare env.home config disk request with
  | error failure =>
      refine ⟨fun _ => ?_, fun _ _ => ⟨rfl, rfl⟩⟩
      rintro ⟨hdirectory, ⟨source, rules, hsource, hload⟩, absolute, habsolute, -, hfree⟩
      have hbegins : Run.prepare env.home config disk request =
          .ok ⟨absolute, source, rules, request.mode config⟩ :=
        Run.prepare_eq_ok_iff.2 ⟨hdirectory, hsource, hload, habsolute, by simp [mayStart, hfree], rfl⟩
      rw [hprepare] at hbegins
      cases hbegins
  | ok run =>
      obtain ⟨hdirectory, hsource, hload, habsolute, hstart, -⟩ := Run.prepare_eq_ok_iff.1 hprepare
      constructor
      · -- such a run can be answered, and does not fail then
        intro hrefused
        have hfailed := (hrefused (.ok "")).1
        simp only [Run.failure_talk] at hfailed
        cases hfailed
      · intro hexcept
        refine absurd ⟨hdirectory, ⟨run.source, run.rules, hsource, hload⟩, run.root, habsolute, ?_⟩
          hexcept
        have hfree : isProtected env.home run.root = false := by
          simpa [mayStart, hlive] using hstart
        refine ⟨Classical.byContradiction fun hup => ?_, hfree⟩
        have hfold : disk.absolutize request.root = run.root.fold := by
          rw [Disk.absolutize, Path.absolutize, habsolute, Option.getD_some]
        rw [hfold, isProtected_fold (Path.rooted_of_absolute? habsolute) hup, hfree] at hprotected
        cases hprotected

/-! ## The root under another name -/

/-- A disk with the rule file `/r` and the file `/x`. -/
def protectionDisk : Disk :=
  .ofLeaves [("/r", .ofContent "delete x\n"), ("/x", .ofContent "")]

/-- A live run in `/..` to which the user has agreed. -/
def protectionRequest : RunRequest :=
  ⟨Path.ofText "/..", some (Path.ofText "/r"), none, true, false, true⟩

/-- A live run in `/..` is not refused, although it scans `/`, and removes `/x`. -/
theorem Invocation.not_refuses_protected_root :
    isProtected bareEnvironment.home (protectionDisk.absolutize protectionRequest.root) = true ∧
      (¬ ∀ answer,
        (((quietRun protectionRequest).perform bareEnvironment protectionDisk).given
          answer).failure.isSome = true ∧
        (((quietRun protectionRequest).perform bareEnvironment protectionDisk).given answer).disk =
          protectionDisk) ∧
      (((quietRun protectionRequest).perform bareEnvironment protectionDisk).given (.ok "")).disk.at?
        (.ofText "/x") = none := by
  have hload : Config.load protectionDisk bareEnvironment.configPath = .ok {} := by cbv
  have hprotected : isProtected bareEnvironment.home
      (protectionDisk.absolutize protectionRequest.root) = true := by cbv
  have hdirectory : protectionDisk.isDirectory protectionRequest.root = true := by cbv
  have hrules : ∃ source rules,
      RuleSource.resolve protectionDisk protectionRequest.root protectionRequest.rulesFile
          protectionRequest.preset {} = .ok source ∧
        source.load protectionDisk = .ok rules :=
    ⟨.file (Path.ofText "/r"), [⟨.delete, ⟨"x"⟩, none⟩], by cbv, by cbv⟩
  have hspelling : ∃ absolute,
      protectionRequest.root.absolute? protectionDisk.workingPath? = some absolute ∧
        .up ∈ absolute.components ∧ isProtected bareEnvironment.home absolute = false :=
    ⟨Path.ofText "/..", by cbv, by decide, by cbv⟩
  have hlaw := Invocation.refuses_protected_iff bareEnvironment protectionDisk
    (quietRun protectionRequest) protectionRequest {} rfl hload rfl hprotected
  refine ⟨hprotected, fun hrefused => ?_, by cbv⟩
  exact hlaw.1.1 hrefused ⟨hdirectory, hrules, hspelling⟩

end Sweep
