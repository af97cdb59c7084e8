import Sweep.Command.Invocation
import Sweep.Command.Talk
import Sweep.Environment
import Sweep.Report.Json
import Sweep.Safety
import Sweep.Screen.Listing
/-!
# Runs

A run is a scan that a user asks for. First all that can be wrong is looked at: where the run
starts, its rules, and whether a live scan may start there. Then, if matches are to be removed and
the user has not agreed beforehand, a dry scan shows them and the user is asked. Output for machines
holds the report only, so there the question goes to the stream for messages.

A dry scan without a match ends a run for people at once; other runs go on to their report.

## Main results

* `prepare_mode` — a run is live only if it is neither asked to be dry nor dry by configuration.
-/

namespace Sweep

/-- How output is to look. -/
structure View where
  /-- The home directory, which is shown as a tilde. -/
  home : Option Path
  format : Format
  colored : Bool
  verbose : Bool
  quiet : Bool
  /-- How long scans are reported to take. -/
  elapsed : Elapsed := {}
deriving DecidableEq, Repr

def Elapsed.of (elapsed : Elapsed) : Mode → Number.Binary64
  | .dry => elapsed.dry
  | .live => elapsed.live

/-- A report in the format that was asked for. -/
def View.report (view : View) (report : Report) : Written :=
  match view.format with
  | .human => .ofOut (Screen.ofReport view.colored view.verbose view.home report)
  | .json =>
    match report.json? with
    | some json => .ofOut (json.text ++ "\n")
    | none => .ofErr ("Error serializing results: " ++ Report.unprintable ++ "\n")
  | .quiet => .ofOut (Screen.ofLines (report.paths.map (·.text)))

/-- A run that can begin. -/
structure Run where
  /-- Where it starts. -/
  root : Path
  source : RuleSource
  rules : List Rule
  /-- Whether matches are removed. -/
  mode : Mode

/-- Whether a run that was asked for removes matches. -/
def RunRequest.mode (request : RunRequest) (config : Config) : Mode :=
  if request.dryRun || (!request.apply && config.dryRun) then .dry else .live

namespace Run

/-- Looks at all that can be wrong with a run. -/
def prepare (home : Option Path) (config : Config) (disk : Disk) (request : RunRequest) :
    Except Failure Run := do
  if !disk.isDirectory request.root then .error (.notDirectory request.root)
  else
    let source ← RuleSource.resolve disk request.root request.rulesFile request.preset config
    let rules ← source.load disk
    match request.root.absolute? disk.workingPath? with
    | none => .error .noWorking
    | some root =>
      let mode := request.mode config
      if mayStart home mode root then return ⟨root, source, rules, mode⟩
      else .error (.protectedRoot root)

/-- A run is live only if it is neither asked to be dry nor dry by configuration. -/
theorem prepare_mode {home : Option Path} {config : Config} {disk : Disk} {request : RunRequest}
    {run : Run} (h : prepare home config disk request = .ok run) :
    run.mode = request.mode config := by
  unfold prepare at h
  split at h
  · simp at h
  · cases hsource : RuleSource.resolve disk request.root request.rulesFile request.preset
        config with
    | error failure => simp [hsource, bind, Except.bind] at h
    | ok source =>
      cases hrules : source.load disk with
      | error failure => simp [hsource, hrules, bind, Except.bind] at h
      | ok rules =>
        simp only [hsource, hrules, bind, Except.bind] at h
        split at h
        · simp at h
        · split at h
          · simp only [pure, Except.pure, Except.ok.injEq] at h
            rw [← h]
          · simp at h

/-- Scans, and reports what the scan told and how long it took. -/
def execute (run : Run) (view : View) (mode : Mode) (disk : Disk) : Disk × Report :=
  let outcome := scan .idle mode disk run.root run.rules
  let report := Report.ofEvents view.home (mode = .dry) outcome.events
  (outcome.disk, { report with seconds := view.elapsed.of mode })

/-- What is written before a run begins. -/
def header (run : Run) (view : View) : Written :=
  if view.quiet || view.format ≠ .human then {}
  else .ofOut (Screen.ofLines
    ["", "  🔍 Applying " ++ toString run.rules.length ++ " rules from " ++
      paint view.colored .cyan (run.source.text view.home) ++ " to " ++
      paint view.colored .cyan (displayPath view.home run.root)])

/-- Carries a run out, after some writing. -/
def carryOut (run : Run) (view : View) (disk : Disk) (written : Written) : Ending :=
  let (disk, report) := run.execute view run.mode disk
  .ofSuccess disk (written ++ view.report report)

/-- The question whether so many paths may be removed. -/
def question (view : View) (count : Nat) : Written :=
  let text := "PERMANENTLY DELETE " ++ displayCount count ++ "? [y/N] "
  if view.format = .human then .ofOut ("\n  ❓ " ++ text) else .ofErr text

/-- What is written when the user does not agree. -/
def cancelled (view : View) : Written :=
  if view.format = .human then .ofOut ("  " ++ paint view.colored .red "✗" ++ " Cancelled\n")
  else .ofErr "Cancelled\n"

/-- Goes on with the answer to the question. -/
def resume (run : Run) (view : View) (disk : Disk) (written : Written) :
    Except Disk.Fault String → Ending
  | .error fault => .ofFailure disk written (.unreadableAnswer fault)
  | .ok line =>
    if Talk.isYes line then run.carryOut view disk written
    else .ofSuccess disk (written ++ cancelled view)

/-- Goes through a run; `asking` says whether the user has to agree to removals. -/
def talk (run : Run) (view : View) (asking : Bool) (disk : Disk) : Talk :=
  let written := run.header view
  if run.mode = .live && asking then
    let preview := (run.execute view .dry disk).2
    if preview.paths.isEmpty then
      .ends (if view.format = .human then
        .ofSuccess disk (written ++ .ofOut "  ✨ Nothing to delete!\n")
      else run.carryOut view disk written)
    else
      let written := written ++
        (if view.format = .human then view.report preview else {}) ++
        question view preview.paths.length
      .asks written (run.resume view disk written)
  else .ends (run.carryOut view disk written)

end Run

end Sweep
