import Sweep.Proofs.Walk
import Sweep.Scan.Basic
/-!
# Scans that are evaluated

A walk ends because the paths on it become longer, and such a recursion does not unfold by itself.
The same walk down to a depth does, and the bound on the length of paths is deep enough for every
walk. So a scan is restated here with its walks to that depth, to be run on small disks.

## Main results

* `scan_eq_scanToDepth` — a scan by the depth of its walks.
-/

namespace Sweep

open Disk

/-- Takes what a target names in a directory, down to a depth. -/
def takeTargetsToDepth (observer : Observer) (mode : Mode) (depth : Nat) (target : Glob)
    (directory : Path) (progress : Progress) : Progress :=
  if target.isRecursive then
    (targetVisitor observer mode target).runToDepth depth directory false progress
  else takeEntries observer mode target directory progress

/-- Applies a rule in a directory, down to a depth. -/
def applyInToDepth (observer : Observer) (mode : Mode) (depth : Nat) (rule : Rule)
    (progress : Progress) (directory : Path) : Progress :=
  let progress := progress.tell observer (.entered directory)
  if applies progress.disk directory rule.condition then
    takeTargetsToDepth observer mode depth rule.target directory progress
  else progress

/-- Scans the tree at a root down to a depth. -/
def scanToDepth (observer : Observer) (mode : Mode) (depth : Nat) (disk : Disk) (root : Path)
    (rules : List Rule) : Outcome :=
  let root := disk.absolutize root
  let progress := (⟨disk, [], []⟩ : Progress).tell observer (.started root rules.length)
  let collection := (snapshotVisitor observer).runToDepth depth root true ⟨progress, [], []⟩
  let directories := collection.directories.reverse.filter (· ∉ collection.unlisted)
  let progress := rules.foldl (fun progress rule =>
    directories.foldl (applyInToDepth observer mode depth rule) progress) collection.progress
  let progress := progress.tell observer (.finished root progress.found.length)
  ⟨progress.disk, progress.trace.reverse, progress.found.reverse⟩

/-- A scan is the scan as deep as any path can lead. -/
theorem scan_eq_scanToDepth (observer : Observer) (mode : Mode) (disk : Disk) (root : Path)
    (rules : List Rule) :
    scan observer mode disk root rules =
      scanToDepth observer mode (pathLimit + 1) disk root rules := by
  have htargets : ∀ target directory progress, takeTargets observer mode target directory progress =
      takeTargetsToDepth observer mode (pathLimit + 1) target directory progress := by
    intro target directory progress
    rw [takeTargets, takeTargetsToDepth, takeBelow, Visitor.run_eq_runToDepth]
  have happlied : ∀ rule, applyIn observer mode rule =
      applyInToDepth observer mode (pathLimit + 1) rule := by
    intro rule
    funext progress directory
    simp only [applyIn, applyInToDepth, htargets]
  simp only [scan, scanToDepth, snapshot, applyAll, Visitor.run_eq_runToDepth, happlied]

end Sweep
