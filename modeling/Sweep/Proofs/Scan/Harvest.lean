import Sweep.Proofs.Disk.Spelled
import Sweep.Proofs.Scan.Dry
import Sweep.Proofs.Scan.Evaluated
import Sweep.Proofs.Scan.Takes
/-!
# What a scan comes upon

`harvest` is the list of what rules name in directories, on a disk that stays as it is: rule by rule,
directory by directory, entry by entry. A dry scan finds this list. A live scan comes upon the same
things in the same order, but some of them are gone by then, or their rule does not apply any more;
it is followed along the list of the dry scan.

## Main results

* `found_scan_dry` — a dry scan finds the harvest.
* `mem_found_scan_dry_iff` — what a dry scan finds.
* `scan_follows` — a scan is followed along the dry scan.
-/

namespace Sweep

open Disk

/-- What a rule names in a directory, if it applies there. -/
def Disk.yield (disk : Disk) (rule : Rule) (directory : Path) : List Path :=
  if applies disk directory rule.condition then disk.named rule.target directory else []

/-- What rules name in directories, rule by rule. -/
def Disk.harvest (disk : Disk) (directories : List Path) (rules : List Rule) : List Path :=
  rules.flatMap fun rule => directories.flatMap (disk.yield rule)

/-! ## The paths of scanned directories -/

theorem Disk.Under.isNormal {disk : Disk} {path : Path} {below : Place} {entry : Entry}
    (hnormal : path.IsNormal) (h : disk.Under path below entry) : entry.path.IsNormal := by
  induction h with
  | entry => exact hnormal.child _
  | inner _ _ ih => exact ih (hnormal.child _)

/-- The paths of scanned directories are normal. -/
theorem Disk.Scanned.isNormal {disk : Disk} {root directory : Path}
    (h : disk.Scanned (disk.absolutize root) directory) : directory.IsNormal := by
  have hroot : (disk.absolutize root).IsFolded := Path.isFolded_fold _
  have hrooted := h.rooted
  cases h with
  | root => exact ⟨hroot, hrooted⟩
  | below hunder => exact hunder.isNormal ⟨hroot, hunder.rooted.symm.trans hrooted⟩

/-- What is scanned on a pruned disk was scanned before. -/
theorem Disk.Scanned.of_prunedWithin {p : Place → Prop} {old new : Disk} {root directory : Path}
    (hpruned : PrunedWithin p old new) (h : new.Scanned root directory) :
    old.Scanned root directory := by
  cases h with
  | root hkind => exact .root (hpruned.ownKind hkind)
  | below hunder => exact .below (hunder.of_prunedWithin hpruned)

/-! ## The list of a dry scan -/

theorem foldl_follows {α β γ : Type} (keeps : List γ → β → Prop) {step : β → α → β}
    {list : α → List γ} (xs : List α)
    (hstep : ∀ x ∈ xs, ∀ passed b, keeps passed b → keeps (passed ++ list x) (step b x))
    {passed : List γ} {b : β} (h : keeps passed b) :
    keeps (passed ++ xs.flatMap list) (xs.foldl step b) := by
  induction xs generalizing passed b with
  | nil => simpa using h
  | cons x xs ih =>
      rw [List.flatMap_cons, ← List.append_assoc, List.foldl_cons]
      exact ih (fun y hy => hstep y (List.mem_cons_of_mem _ hy))
        (hstep x List.mem_cons_self passed b h)

/-- Where a rule applies it applied from the start, and where it does not apply, what it named at
the start may be passed over. -/
def Heeds (disk : Disk) (walks : Path → Prop) (keeps : List Path → Progress → Prop) (rule : Rule) :
    Prop :=
  ∀ directory found progress, walks directory → keeps found progress →
    (applies progress.disk directory rule.condition = true →
      applies disk directory rule.condition = true) ∧
    (applies progress.disk directory rule.condition = false →
      keeps (found ++ disk.yield rule directory) progress)

section Follows

variable {disk : Disk} {mode : Mode} {walks : Path → Prop} {there : Path → Progress → Prop}
  {keeps : List Path → Progress → Prop} (h : Takes disk mode walks there keeps)
  (htell : ∀ found progress event, event.isRemark = true → keeps found progress →
    keeps found (progress.tell .idle event))

include h htell

theorem applyIn_follows {rule : Rule} (hheeds : Heeds disk walks keeps rule) {directory : Path}
    (hwalks : walks directory) {found : List Path} {progress : Progress}
    (hkeeps : keeps found progress) :
    keeps (found ++ disk.yield rule directory) (applyIn .idle mode rule progress directory) := by
  have hentered := htell found progress (.entered directory) rfl hkeeps
  obtain ⟨hbefore, hover⟩ := hheeds directory found _ hwalks hentered
  unfold applyIn
  simp only
  split
  · rename_i happlies
    rw [Disk.yield, if_pos (hbefore happlies)]
    exact h.takeTargets hwalks hentered
  · rename_i hidle
    exact hover (by simpa using hidle)

theorem applyAll_follows {directories : List Path} {rules : List Rule}
    (hheeds : ∀ rule ∈ rules, Heeds disk walks keeps rule)
    (hwalks : ∀ directory ∈ directories, walks directory) {found : List Path} {progress : Progress}
    (hkeeps : keeps found progress) :
    keeps (found ++ disk.harvest directories rules)
      (applyAll .idle mode directories rules progress) := by
  refine foldl_follows keeps rules (fun rule hrule passed before hbefore => ?_) hkeeps
  refine foldl_follows keeps directories (fun directory hdirectory passed here hhere => ?_) hbefore
  exact applyIn_follows h htell (hheeds rule hrule) (hwalks directory hdirectory) hhere

/-- What is followed match by match is followed by a scan along the list of what its rules name. -/
theorem scan_follows_harvest (root : Path) (rules : List Rule)
    (hheeds : ∀ rule ∈ rules, Heeds disk walks keeps rule)
    (hwalks : ∀ directory, disk.Scanned (disk.absolutize root) directory → walks directory)
    (hstart : keeps [] ⟨disk, [], []⟩) :
    ∃ progress : Progress,
      keeps (disk.harvest (disk.collected (disk.absolutize root)) rules) progress ∧
      scan .idle mode disk root rules =
        ⟨progress.disk, progress.trace.reverse, progress.found.reverse⟩ := by
  obtain ⟨remarks, hremarks, hmodes⟩ := scan_eq disk root rules
  obtain ⟨last, hlast, hscan⟩ := hmodes mode
  have hready : keeps [] ⟨disk, remarks, []⟩ :=
    keeps_of_remarks (keeps []) (htell []) hstart hremarks
  have hscanned : ∀ directory ∈ disk.collected (disk.absolutize root), walks directory :=
    fun directory hdirectory => hwalks directory (scanned_of_mem_snapshot hdirectory)
  have happlied := applyAll_follows h htell hheeds hscanned hready
  rw [hlast, List.nil_append] at happlied
  refine ⟨last.tell .idle (.finished (disk.absolutize root) last.found.length),
    htell _ _ _ rfl happlied, ?_⟩
  simp [hscan, Progress.tell, Observer.idle]

end Follows

/-- In a dry scan each match is taken. -/
theorem takes_dry (disk : Disk) :
    Takes disk .dry Path.IsNormal (fun _ _ => True) fun found progress =>
      progress.disk = disk ∧ progress.found.reverse = found := by
  refine .ofNormal ?_ ?_ ?_
  · rintro found progress ⟨rfl, -⟩
    exact .refl _ _
  · rintro found path name kind progress - - ⟨hdisk, rfl⟩
    rw [Progress.take_dry]
    exact ⟨hdisk, List.reverse_cons⟩
  · rintro found path name kind progress - hlisted hhides ⟨rfl, -⟩
    exact absurd hlisted (hhides kind)

/-- A dry scan finds all that its rules name in the collected directories. -/
theorem found_scan_dry (disk : Disk) (root : Path) (rules : List Rule) :
    (scan .idle .dry disk root rules).found =
      disk.harvest (disk.collected (disk.absolutize root)) rules := by
  obtain ⟨progress, hkeeps, hscan⟩ := scan_follows_harvest (takes_dry disk) (fun _ _ _ _ h => h)
    root rules (fun rule _ directory found progress _ hkeeps => by
      obtain ⟨rfl, hfound⟩ := hkeeps
      refine ⟨id, fun hidle => ⟨rfl, ?_⟩⟩
      simp [Disk.yield, hidle, hfound])
    (fun directory hdirectory => hdirectory.isNormal) ⟨rfl, rfl⟩
  rw [hscan]
  exact hkeeps.2

/-- A disk with a directory `/w` that holds a file `a`, and a directory `p` with a file `b`. -/
def nestedDisk : Disk :=
  .ofLeaves [("/w/a", .ofContent ""), ("/w/p/b", .ofContent "")]

/-- A file is found from each directory above it. -/
example : (scan .idle .dry nestedDisk (Path.ofText "/w") [⟨.delete, ⟨"**"⟩, none⟩]).found =
    [Path.ofText "/w/a", Path.ofText "/w/p", Path.ofText "/w/p/b", Path.ofText "/w/p/b"] := by
  simp only [scan_eq_scanToDepth]
  cbv

/-- What a dry scan finds is what a rule names in a scanned directory in which it applies. -/
theorem mem_found_scan_dry_iff {disk : Disk} {root path : Path} {rules : List Rule} :
    path ∈ (scan .idle .dry disk root rules).found ↔
      ∃ rule ∈ rules, ∃ directory kind, disk.Scanned (disk.absolutize root) directory ∧
        applies disk directory rule.condition = true ∧
        disk.Named rule.target directory path kind := by
  simp only [found_scan_dry, Disk.harvest, List.mem_flatMap, Disk.yield]
  constructor
  · rintro ⟨rule, hrule, directory, hdirectory, hpath⟩
    split at hpath
    · rename_i happlies
      obtain ⟨kind, hnamed⟩ := Disk.mem_named_iff.1 hpath
      exact ⟨rule, hrule, directory, kind, scanned_of_mem_snapshot hdirectory, happlies, hnamed⟩
    · cases hpath
  · rintro ⟨rule, hrule, directory, kind, hdirectory, happlies, hnamed⟩
    obtain ⟨listing, hlist⟩ := hnamed.listed
    refine ⟨rule, hrule, directory, mem_snapshot_of_scanned ⟨disk, [], []⟩ hdirectory hlist, ?_⟩
    rw [if_pos happlies]
    exact Disk.mem_named_iff.2 ⟨kind, hnamed⟩

/-- What is followed match by match is followed by a scan along the list of the dry scan. -/
theorem scan_follows {disk : Disk} {mode : Mode} {walks : Path → Prop}
    {there : Path → Progress → Prop} {keeps : List Path → Progress → Prop}
    (h : Takes disk mode walks there keeps)
    (htell : ∀ found progress event, event.isRemark = true → keeps found progress →
      keeps found (progress.tell .idle event))
    (root : Path) (rules : List Rule) (hheeds : ∀ rule ∈ rules, Heeds disk walks keeps rule)
    (hwalks : ∀ directory, disk.Scanned (disk.absolutize root) directory → walks directory)
    (hstart : keeps [] ⟨disk, [], []⟩) :
    ∃ progress : Progress, keeps (scan .idle .dry disk root rules).found progress ∧
      scan .idle mode disk root rules =
        ⟨progress.disk, progress.trace.reverse, progress.found.reverse⟩ := by
  rw [found_scan_dry]
  exact scan_follows_harvest h htell root rules hheeds hwalks hstart

end Sweep
