import Sweep.Number.Shortest
import Sweep.Report.Basic
import Sweep.Text.Json
/-!
# Reports as JSON

A report is an object with a member for each of its parts. Paths are strings, so a report that holds
a path that is not UTF-8 has no JSON.

## Main results

* `json?_eq_none_iff` — a report lacks JSON exactly when one of its paths is not UTF-8.
-/

namespace Sweep.Report

open Text

/-- What is said of a report that has no JSON. -/
def unprintable : String := "path contains invalid UTF-8 characters"

def json? (report : Report) : Option Json :=
  match report.root.text?, report.paths.mapM Path.text? with
  | some root, some paths => some (.object [
      ("root", .string root),
      ("dry_run", .ofBool report.dryRun),
      ("rule_count", .ofNat report.rules),
      ("directories_visited", .ofNat report.visited),
      ("paths", .array (paths.map .string)),
      ("deleted", .ofNat report.deleted),
      ("errors", .array (report.errors.map .string)),
      ("duration_secs", .literal (report.seconds.text?.getD "null"))])
  | _, _ => none

/-- A report lacks JSON exactly when one of its paths is not UTF-8. -/
theorem json?_eq_none_iff (report : Report) :
    report.json? = none ↔
      report.root.text? = none ∨ report.paths.mapM Path.text? = none := by
  unfold json?
  cases report.root.text? <;> cases report.paths.mapM Path.text? <;> simp

end Sweep.Report
