import Sweep.Proofs.Scan.Steps
/-!
# Dry scans

A dry scan leaves the disk alone. A live scan goes in step with the dry one up to the first match: if
the dry scan finds nothing, the live scan is the same scan.

## Main results

* `disk_scan_dry` — a dry scan leaves the disk alone.
* `scan_live_of_found_nil` — where the dry scan finds nothing, the live scan does the same.
-/

namespace Sweep

open Disk

/-- A dry scan leaves the disk alone. -/
theorem disk_scan_dry (disk : Disk) (root : Path) (rules : List Rule) :
    (scan .idle .dry disk root rules).disk = disk := by
  obtain ⟨progress, hkept, hscan⟩ := scan_keeps disk .dry (fun progress => progress.disk = disk)
    (fun _ _ => True) (fun _ _ _ _ _ hkept => hkept) (fun _ _ _ hkept => hkept) root rules
    (fun _ _ _ _ _ _ _ _ _ _ _ => trivial) rfl
  rw [hscan]
  exact hkept

/-! ## The live scan in step -/

/-- Two parts of a scan do the same as long as the first one finds nothing. -/
def InStep (first second : Progress → Progress) : Prop :=
  ∀ progress, progress.found.length ≤ (first progress).found.length ∧
    ((first progress).found.length = progress.found.length → second progress = first progress)

namespace InStep

theorem comp {first second first' second' : Progress → Progress} (h : InStep first second)
    (h' : InStep first' second') :
    InStep (fun progress => first' (first progress)) (fun progress => second' (second progress)) := by
  intro progress
  have hrises := h progress
  have hrises' := h' (first progress)
  simp only
  refine ⟨by omega, fun hsame => ?_⟩
  rw [hrises.2 (by omega), hrises'.2 (by omega)]

theorem foldl {α : Type} {first second : Progress → α → Progress} (xs : List α)
    (h : ∀ x, InStep (first · x) (second · x)) :
    InStep (fun progress => xs.foldl first progress) (fun progress => xs.foldl second progress) := by
  induction xs with
  | nil => exact fun progress => ⟨Nat.le_refl _, fun _ => rfl⟩
  | cons x xs ih => exact (h x).comp ih

end InStep

theorem targetVisitor_inStep (target : Glob) :
    Visitor.InStep (fun progress : Progress => progress.found.length)
      (targetVisitor .idle .dry target) (targetVisitor .idle .live target) where
  disk := rfl
  fail := rfl
  count_fail := fun _ _ _ => rfl
  rises := by
    intro entry progress
    simp only [targetVisitor, Progress.take_dry]
    split <;> simp
  visit := by
    intro entry progress hsame
    simp only [targetVisitor, Progress.take_dry] at hsame ⊢
    split
    · rename_i haccepts
      simp [haccepts] at hsame
    · rfl

theorem takeTargets_inStep (target : Glob) (directory : Path) :
    InStep (takeTargets .idle .dry target directory) (takeTargets .idle .live target directory) := by
  intro progress
  unfold takeTargets
  split
  · exact (targetVisitor_inStep target).run directory progress
  · refine InStep.foldl (progress.disk.entries directory) (fun entry progress => ?_) progress
    simp only [Progress.take_dry]
    split
    · -- the dry scan counts this match
      exact ⟨by simp, fun hsame => by simp at hsame⟩
    · exact ⟨Nat.le_refl _, fun _ => rfl⟩

theorem applyIn_inStep (rule : Rule) (directory : Path) :
    InStep (applyIn .idle .dry rule · directory) (applyIn .idle .live rule · directory) := by
  intro progress
  simp only [applyIn]
  split
  · exact takeTargets_inStep rule.target directory (progress.tell .idle (.entered directory))
  · exact ⟨Nat.le_refl _, fun _ => rfl⟩

theorem applyAll_inStep (directories : List Path) (rules : List Rule) :
    InStep (applyAll .idle .dry directories rules) (applyAll .idle .live directories rules) :=
  InStep.foldl rules fun rule => InStep.foldl directories fun directory =>
    applyIn_inStep rule directory

/-- Where the dry scan finds nothing, the live scan does the same. -/
theorem scan_live_of_found_nil {disk : Disk} {root : Path} {rules : List Rule}
    (h : (scan .idle .dry disk root rules).found = []) :
    scan .idle .live disk root rules = scan .idle .dry disk root rules := by
  obtain ⟨remarks, -, hmodes⟩ := scan_eq disk root rules
  obtain ⟨dry, hdry, hdryScan⟩ := hmodes .dry
  obtain ⟨live, hlive, hliveScan⟩ := hmodes .live
  rw [hdryScan, List.reverse_eq_nil_iff] at h
  have hstep := (applyAll_inStep (disk.collected (disk.absolutize root)) rules
    ⟨disk, remarks, []⟩).2
  rw [hdry, hlive, h] at hstep
  rw [hdryScan, hliveScan, hstep rfl]

end Sweep
