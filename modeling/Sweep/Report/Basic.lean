import Sweep.Display
import Sweep.Scan.Event
/-!
# Reports

A report sums up a scan from its events. How long the scan took is no matter of events; it is put into
the report once the scan has ended.

## Main results

* `ofEvents_append` — a report goes on from where it was.
* `paths_record` — only a match adds to the matches.
-/

namespace Sweep

/-- The summary of a scan. -/
structure Report where
  /-- Where the scan started. -/
  root : Path
  /-- Whether nothing was to be removed. -/
  dryRun : Bool
  rules : Nat
  /-- How often a rule was applied in a directory. -/
  visited : Nat
  /-- The matches, in order. -/
  paths : List Path
  /-- How many of them were removed. -/
  deleted : Nat
  /-- What went wrong, in order. -/
  errors : List String
  /-- How many seconds it took. -/
  seconds : Number.Binary64
deriving DecidableEq, Repr

namespace Report

/-- The report before the first event. -/
def start (dryRun : Bool) : Report :=
  ⟨.empty, dryRun, 0, 0, [], 0, [], .ofNat 0⟩

/-- How a report words an error. -/
def errorText (home : Option Path) (phase : Phase) (path : Path) (trouble : Trouble) : String :=
  phase.word ++ " failed for " ++ displayPath home path ++ ": " ++ trouble.message

/-- A report with one more event. -/
def record (home : Option Path) (report : Report) : Event → Report
  | .started root rules => { report with root := root, rules := rules }
  | .entered _ => { report with visited := report.visited + 1 }
  | .found path => { report with paths := report.paths ++ [path] }
  | .deleted .. => { report with deleted := report.deleted + 1 }
  | .failed phase path trouble =>
    { report with errors := report.errors ++ [errorText home phase path trouble] }
  | .finished .. => report

/-- The reports after each of the events. -/
def states (home : Option Path) (report : Report) : List Event → List Report
  | [] => []
  | event :: rest =>
    let next := report.record home event
    next :: next.states home rest

/-- The report of all events of a scan. -/
def ofEvents (home : Option Path) (dryRun : Bool) (events : List Event) : Report :=
  events.foldl (record home) (start dryRun)

/-- A report goes on from where it was. -/
theorem ofEvents_append (home : Option Path) (dryRun : Bool) (events more : List Event) :
    ofEvents home dryRun (events ++ more) =
      more.foldl (record home) (ofEvents home dryRun events) := by
  simp [ofEvents]

/-- The path that an event adds to the matches. -/
def foundBy : Event → List Path
  | .found path => [path]
  | _ => []

/-- Only a match adds to the matches. -/
theorem paths_record (home : Option Path) (report : Report) (event : Event) :
    (report.record home event).paths = report.paths ++ foundBy event := by
  cases event <;> simp [record, foundBy]

end Report

end Sweep
