import Sweep.Proofs.Command.Consent
import Sweep.Proofs.Scan.Preview
/-!
# What the user agrees to

Before a live run that has to ask, the user sees what a dry scan finds. The live scan does not go by
this list: it asks the conditions of its rules again, of the disk as it is by then. As long as the
rules ask for yes only, it removes nothing that was not listed. A rule that asks for a no may come
to apply because of what an earlier rule removes, and then removes what was not listed; but no more
than would be listed if all that it asks for a no were answered no, and the rest of its condition
kept.

## Main results

* `Run.removed_of_yes` — what is removed after a yes.
* `Run.removed_beyond_preview` — the preview alone does not cover it.
-/

namespace Sweep

open Disk

namespace Run

/-- Only a live run asks, and goes on with the answer. -/
theorem resume_of_asks {run : Run} {view : View} {asking : Bool} {disk : Disk} {written : Written}
    {resume : Except Fault String → Ending}
    (h : run.talk view asking disk = .asks written resume) :
    run.mode = .live ∧ resume = run.resume view disk written := by
  unfold talk at h
  simp only at h
  split at h
  · rename_i hlive
    split at h
    · cases h
    · simp only [Talk.asks.injEq] at h
      obtain ⟨rfl, rfl⟩ := h
      simp only [Bool.and_eq_true, decide_eq_true_eq] at hlive
      exact ⟨hlive.1, rfl⟩
  · cases h

/-- The run with its rules in their lenient form. -/
def lenient (run : Run) : Run :=
  { run with rules := run.rules.map Rule.lenient }

/-- What is gone after a yes was at or below a path that the preview lists once the questions which
the rules ask for a no are answered no. Such a path is in the preview of the run itself, or in that
of a single rule which asks for a no. -/
theorem removed_of_yes {run : Run} {view : View} {asking : Bool} {disk : Disk} {written : Written}
    {resume : Except Fault String → Ending} (hasks : run.talk view asking disk = .asks written resume)
    {line : String} (hyes : Talk.isYes line = true) {place : Place} (hthere : disk.at? place ≠ none)
    (hgone : (resume (.ok line)).disk.at? place = none) :
    ∃ path, disk.Covers path place ∧ path ∈ (run.lenient.execute view .dry disk).2.paths ∧
      (path ∈ (run.execute view .dry disk).2.paths ∨
        ∃ rule ∈ run.rules, rule.isSteady = false ∧
          path ∈ (scan .idle .dry disk run.root [rule.lenient]).found) := by
  obtain ⟨hlive, rfl⟩ := resume_of_asks hasks
  simp only [Run.resume, hyes, if_true, disk_carryOut, hlive] at hgone
  have hwithin := (scan_live_within_preview disk run.root run.rules).root place
  rcases hwithin with hsame | ⟨-, path, hpreview, hcovers⟩
  · rw [Node.surfaceAt, Node.surfaceAt, ← Disk.at?, ← Disk.at?, hgone, Option.map_none] at hsame
    exact absurd (Option.map_eq_none_iff.1 hsame.symm) hthere
  · rw [paths_execute, paths_execute]
    exact ⟨path, hcovers, hpreview, hpreview.listed⟩

/-- A question for a yes is kept beside one for a no. -/
example : Rule.lenient ⟨.delete, ⟨"b"⟩,
      some (.every [.present .here ⟨"k"⟩, .negated (.present .here ⟨"a"⟩)])⟩ =
    ⟨.delete, ⟨"b"⟩, some (.every [.present .here ⟨"k"⟩, .negated .never])⟩ := rfl

/-! ## A rule that asks for a no -/

/-- A disk with the files `/w/a`, `/w/b` and `/w/k`. -/
def previewDisk : Disk :=
  .ofLeaves [("/w/a", .ofContent ""), ("/w/b", .ofContent ""), ("/w/k", .ofContent "")]

/-- A live run that removes `a`, and `b` where there is a `k` and no `a`. -/
def previewRun : Run where
  root := Path.ofText "/w"
  source := .file (Path.ofText "/r")
  rules := [⟨.delete, ⟨"a"⟩, none⟩,
    ⟨.delete, ⟨"b"⟩, some (.every [.present .here ⟨"k"⟩, .negated (.present .here ⟨"a"⟩)])⟩]
  mode := .live

/-- A plain view for machines. -/
def previewView : View where
  home := none
  format := .quiet
  colored := false
  verbose := false
  quiet := false

/-- After a yes `b` is gone, although the preview lists `a` only. -/
theorem removed_beyond_preview :
    ¬ ∀ place, previewDisk.at? place ≠ none →
      ((previewRun.talk previewView true previewDisk).given (.ok "y\n")).disk.at? place = none →
        ∃ path ∈ (previewRun.execute previewView .dry previewDisk).2.paths,
          previewDisk.Covers path place := by
  intro hcovered
  have hpaths : (previewRun.execute previewView .dry previewDisk).2.paths =
      [Path.ofText "/w/a"] := by cbv
  have hgone : ((previewRun.talk previewView true previewDisk).given (.ok "y\n")).disk.at?
      (.ofText "/w/b") = none := by cbv
  obtain ⟨path, hpath, entry, hentry, hprefix⟩ := hcovered _ (fun hnone => by cases hnone) hgone
  rw [hpaths, List.mem_singleton] at hpath
  have hseen : previewDisk.resolve .user .look (Path.ofText "/w/a") = .ok (.ofText "/w/a") := by cbv
  rw [hpath, hseen] at hentry
  cases hentry
  revert hprefix
  decide

/-- The law for the same run: `b` is what its second rule lists where there is a `k`, with or without
an `a`. -/
theorem removed_of_yes_unlisted :
    ∃ path, previewDisk.Covers path (.ofText "/w/b") ∧
      path ∈ (previewRun.lenient.execute previewView .dry previewDisk).2.paths ∧
      (path ∈ (previewRun.execute previewView .dry previewDisk).2.paths ∨
        ∃ rule ∈ previewRun.rules, rule.isSteady = false ∧
          path ∈ (scan .idle .dry previewDisk previewRun.root [rule.lenient]).found) := by
  have hasks : previewRun.talk previewView true previewDisk =
      .asks (.ofErr "PERMANENTLY DELETE 1 path? [y/N] ")
        (previewRun.resume previewView previewDisk (.ofErr "PERMANENTLY DELETE 1 path? [y/N] ")) := by
    cbv
  have hgone : (previewRun.resume previewView previewDisk
      (.ofErr "PERMANENTLY DELETE 1 path? [y/N] ") (.ok "y\n")).disk.at? (.ofText "/w/b") = none := by
    cbv
  exact removed_of_yes hasks (by cbv) (fun hnone => by cases hnone) hgone

end Run

end Sweep
