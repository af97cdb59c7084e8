import Sweep.Proofs.Condition
import Sweep.Proofs.Scan.Evaluated
import Sweep.Proofs.Scan.Extent
import Sweep.Proofs.Scan.Harvest
/-!
# Scans with steady rules

The condition of a steady rule asks for yes only, so by removing things a scan can make it cease to
hold, but not begin to hold. Hence a live scan finds nothing that the dry scan does not find, and it
finds it in the same order. And what it comes upon it removes: unless a removal fails, a rule that
has been applied in a directory yields nothing there any more, from then on.

## Main results

* `scan_live_sublist` — a live scan finds a sublist of what the dry scan finds.
* `settled_applyIn` — a rule that has been applied in a directory yields nothing more there.
* `scan_after_scan` — a second scan finds nothing.
-/

namespace Sweep

open Disk

/-! ## What is found -/

/-- While matches are removed, what has been found is a sublist of what has been passed. -/
theorem takes_sublist (disk : Disk) :
    Takes disk .live Path.IsNormal (fun _ _ => True) fun found progress =>
      Pruned disk progress.disk ∧ progress.found.reverse.Sublist found := by
  refine .ofNormal And.left ?_ ?_
  · rintro found path name kind progress hnormal - ⟨hpruned, hfound⟩
    have htaken := progress.take_prunedWithin (hnormal.folded.steps_child name.bytes) .live
      (kind = .directory)
    refine ⟨hpruned.trans htaken.pruned, ?_⟩
    rw [Progress.take_live, List.reverse_cons]
    exact hfound.append (List.Sublist.refl _)
  · rintro found path name kind progress - - - ⟨hpruned, hfound⟩
    exact ⟨hpruned, hfound.trans (List.sublist_append_left found _)⟩

/-- With steady rules a live scan finds a sublist of what the dry scan finds, however its removals
go. -/
theorem scan_live_sublist (disk : Disk) (root : Path) (rules : List Rule)
    (hsteady : ∀ rule ∈ rules, rule.isSteady = true) :
    (scan .idle .live disk root rules).found.Sublist (scan .idle .dry disk root rules).found := by
  obtain ⟨progress, ⟨-, hfound⟩, hscan⟩ := scan_follows (takes_sublist disk)
    (fun _ _ _ _ hkeeps => hkeeps) root rules
    (fun rule hrule directory found progress hwalks hkeeps => by
      obtain ⟨hpruned, hfound⟩ := hkeeps
      refine ⟨Rule.applies_of_prunedWithin hpruned (hsteady rule hrule) hwalks.rooted, fun _ => ?_⟩
      exact ⟨hpruned, hfound.trans (List.sublist_append_left found _)⟩)
    (fun directory hdirectory => hdirectory.isNormal)
    ⟨.refl _ _, List.Sublist.refl _⟩
  rw [hscan]
  exact hfound

/-- A disk with a directory `/w` that holds a file `a`, and a directory `p` in which nothing may be
removed, with a file `b`. -/
def guardedDisk : Disk :=
  .ofLeaves [("/w/a", .ofContent ""), ("/w/p", .directory ⟨true, false, true⟩ []),
    ("/w/p/b", .ofContent "")]

/-- Rules that remove everything where there is an `a`, and then everything. -/
def guardedRules : List Rule :=
  [⟨.delete, ⟨"*"⟩, some (.present .here ⟨"a"⟩)⟩, ⟨.delete, ⟨"**"⟩, none⟩]

/-- A scan that removes a file and fails with all the rest does not find the file again. -/
theorem scan_live_sublist_of_guarded :
    (scan .idle .live guardedDisk (Path.ofText "/w") guardedRules).found.Sublist
        (scan .idle .dry guardedDisk (Path.ofText "/w") guardedRules).found ∧
      (scan .idle .live guardedDisk (Path.ofText "/w") guardedRules).found =
        [Path.ofText "/w/a", Path.ofText "/w/p", Path.ofText "/w/p", Path.ofText "/w/p/b",
          Path.ofText "/w/p/b"] ∧
      (scan .idle .dry guardedDisk (Path.ofText "/w") guardedRules).found =
        [Path.ofText "/w/a", Path.ofText "/w/p", Path.ofText "/w/a", Path.ofText "/w/p",
          Path.ofText "/w/p/b", Path.ofText "/w/p/b"] := by
  refine ⟨scan_live_sublist guardedDisk (Path.ofText "/w") guardedRules (by decide), ?_, ?_⟩ <;>
  · simp only [scan_eq_scanToDepth]
    cbv

/-! ## What is left to find -/

theorem Disk.Under.shown {disk : Disk} {path : Path} {below : Place} {entry : Entry}
    (hnormal : path.IsNormal) (h : disk.Under path below entry) :
    ∃ holder, ∃ name : Name, holder.IsNormal ∧
      entry.path = holder.child name.bytes ∧ (name, entry.kind) ∈ disk.entries holder := by
  induction h with
  | @entry path below name kind hlisted => exact ⟨path, name, hnormal, rfl, hlisted⟩
  | inner _ _ ih => exact ih (hnormal.child _)

/-- What a target names is shown in some directory. -/
theorem Disk.Named.shown {disk : Disk} {target : Glob} {directory path : Path} {kind : Kind}
    (hnormal : directory.IsNormal) (h : disk.Named target directory path kind) :
    ∃ holder, ∃ name : Name, holder.IsNormal ∧
      path = holder.child name.bytes ∧ (name, kind) ∈ disk.entries holder := by
  cases h with
  | @entry name _ _ hlisted _ => exact ⟨directory, name, hnormal, rfl, hlisted⟩
  | below _ hunder _ => exact hunder.shown hnormal

/-- While matches are removed and no removal fails, what has been passed is not shown any more. -/
theorem takes_hidden (disk : Disk) :
    Takes disk .live Path.IsNormal (fun _ _ => True) fun found progress =>
      Pruned disk progress.disk ∧
        (progress.Sound → ∀ holder, ∀ name : Name, holder.IsNormal →
          holder.child name.bytes ∈ found → progress.disk.Hides holder name) := by
  refine .ofNormal And.left ?_ ?_
  · rintro found path name kind progress hnormal - ⟨hpruned, hhidden⟩
    have htaken := progress.take_prunedWithin (hnormal.folded.steps_child name.bytes) .live
      (kind = .directory)
    refine ⟨hpruned.trans htaken.pruned, fun hsound holder key hholder hpassed => ?_⟩
    obtain ⟨hbefore, hgone⟩ := Progress.sound_take_live hsound
    rcases List.mem_append.1 hpassed with hearlier | hnow
    · exact (hhidden hbefore holder key hholder hearlier).of_prunedWithin htaken
    · obtain ⟨rfl, rfl⟩ :=
        hholder.folded.child_injective hnormal.folded (List.mem_singleton.1 hnow)
      exact Progress.hides_of_gone hholder hgone
  · rintro found path name kind progress hnormal - hhides ⟨hpruned, hhidden⟩
    refine ⟨hpruned, fun hsound holder key hholder hpassed => ?_⟩
    rcases List.mem_append.1 hpassed with hearlier | hnow
    · exact hhidden hsound holder key hholder hearlier
    · obtain ⟨rfl, rfl⟩ :=
        hholder.folded.child_injective hnormal.folded (List.mem_singleton.1 hnow)
      exact hhides

/-- A target that has been applied in a directory names nothing more there, unless a removal has
failed. -/
theorem named_takeTargets {target : Glob} {directory : Path} (hnormal : directory.IsNormal)
    (progress : Progress)
    (hsound : (takeTargets .idle .live target directory progress).Sound) :
    (takeTargets .idle .live target directory progress).disk.named target directory = [] := by
  have hstart : Pruned progress.disk progress.disk ∧ (progress.Sound → ∀ holder, ∀ name : Name,
      holder.IsNormal → holder.child name.bytes ∈ [] → progress.disk.Hides holder name) :=
    ⟨.refl _ _, by simp⟩
  obtain ⟨hpruned, hhidden⟩ := (takes_hidden progress.disk).takeTargets hnormal hstart
  refine List.eq_nil_iff_forall_not_mem.2 fun path hpath => ?_
  obtain ⟨kind, hnamed⟩ := Disk.mem_named_iff.1 hpath
  obtain ⟨holder, name, hholder, rfl, hlisted⟩ := hnamed.shown hnormal
  have hpassed := Disk.mem_named_iff.2 ⟨kind, hnamed.of_prunedWithin hpruned⟩
  exact hhidden hsound holder name hholder hpassed kind hlisted

/-- Unless a removal has failed, a rule yields nothing more in a directory. -/
def Settled (rule : Rule) (directory : Path) (progress : Progress) : Prop :=
  progress.Sound → progress.disk.yield rule directory = []

/-- A rule that has been applied in a directory yields nothing more there. -/
theorem settled_applyIn (rule : Rule) {directory : Path} (hnormal : directory.IsNormal)
    (progress : Progress) :
    Settled rule directory (applyIn .idle .live rule progress directory) := by
  intro hsound
  unfold applyIn at hsound ⊢
  simp only at hsound ⊢
  split
  · rename_i happlies
    rw [if_pos happlies] at hsound
    have hnothing := named_takeTargets hnormal _ hsound
    simp [Disk.yield, hnothing]
  · rename_i hidle
    rw [Disk.yield, if_neg hidle]

/-- Applying a rule only removes, and forgets nothing that has been told. -/
theorem applyIn_grows (rule : Rule) (directory : Path) (progress : Progress) :
    Pruned progress.disk (applyIn .idle .live rule progress directory).disk ∧
      ∀ event ∈ progress.trace,
        event ∈ (applyIn .idle .live rule progress directory).trace := by
  refine applyIn_keeps progress.disk .live
    (fun later => ∀ event ∈ progress.trace, event ∈ later.trace) (fun _ _ => True) ?_ ?_ rule
    directory progress (fun _ _ _ _ => trivial) (.refl _ _) fun _ h => h
  · intro later path kind _ _ hkept event hevent
    rw [Progress.take_live]
    exact List.mem_append_right _ (List.mem_cons_of_mem _ (hkept event hevent))
  · exact fun later other _ hkept event hevent => List.mem_cons_of_mem _ (hkept event hevent)

/-- What a steady rule yields on a pruned disk it yielded before. -/
theorem yield_subset_of_pruned {old new : Disk} (hpruned : Pruned old new) {rule : Rule}
    (hsteady : rule.isSteady = true) {directory : Path} (hrooted : directory.rooted = true) :
    new.yield rule directory ⊆ old.yield rule directory := by
  intro path hpath
  unfold Disk.yield at hpath ⊢
  split at hpath
  · rename_i happlies
    obtain ⟨kind, hnamed⟩ := Disk.mem_named_iff.1 hpath
    rw [if_pos (Rule.applies_of_prunedWithin hpruned hsteady hrooted happlies)]
    exact Disk.mem_named_iff.2 ⟨kind, hnamed.of_prunedWithin hpruned⟩
  · cases hpath

/-- What a steady rule has settled stays settled. -/
theorem Settled.applyIn {rule : Rule} (hsteady : rule.isSteady = true) {directory : Path}
    (hrooted : directory.rooted = true) {progress : Progress} (h : Settled rule directory progress)
    (other : Rule) (place : Path) :
    Settled rule directory (applyIn .idle .live other progress place) := by
  obtain ⟨hpruned, htrace⟩ := applyIn_grows other place progress
  intro hsound
  have hbefore := h fun path trouble hfailed => hsound path trouble (htrace _ hfailed)
  have hless := yield_subset_of_pruned hpruned hsteady hrooted
  rw [hbefore] at hless
  exact List.subset_nil.1 hless

/-- What one step of a fold marks, and no step takes back, is marked in the end. -/
theorem foldl_marks {α β : Type} (marks : β → Prop) {step : β → α → β} {xs : List α} {x : α}
    (hx : x ∈ xs) (hmark : ∀ b, marks (step b x)) (hstays : ∀ b a, marks b → marks (step b a))
    (b : β) : marks (xs.foldl step b) := by
  induction xs generalizing b with
  | nil => cases hx
  | cons first rest ih =>
      rw [List.foldl_cons]
      rcases List.mem_cons.1 hx with rfl | hrest
      · exact List.foldlRecOn (motive := marks) rest step (hmark b) fun b hb a _ => hstays b a hb
      · exact ih hrest (step b first)

/-- A steady rule settles each of the directories, whatever the other rules do. -/
theorem settled_applyAll {directories : List Path} {rules : List Rule} {rule : Rule}
    {directory : Path} (hrule : rule ∈ rules) (hsteady : rule.isSteady = true)
    (hdirectory : directory ∈ directories) (hnormal : directory.IsNormal) (progress : Progress) :
    Settled rule directory (applyAll .idle .live directories rules progress) := by
  have hstays : ∀ progress other place, Settled rule directory progress →
      Settled rule directory (applyIn .idle .live other progress place) :=
    fun _ other place h => h.applyIn hsteady hnormal.rooted other place
  refine foldl_marks (Settled rule directory) hrule ?_ ?_ progress
  · refine foldl_marks (Settled rule directory) hdirectory ?_ ?_
    · exact settled_applyIn rule hnormal
    · exact fun progress place h => hstays progress rule place h
  · intro progress other h
    exact List.foldlRecOn (motive := Settled rule directory) directories _ h
      fun progress h place _ => hstays progress other place h

/-- After a live scan with steady rules in which no removal has failed, a second scan finds nothing
and leaves the disk alone, be it live or dry. -/
theorem scan_after_scan (disk : Disk) (root : Path) (rules : List Rule)
    (hrooted : root.rooted = true) (hsteady : ∀ rule ∈ rules, rule.isSteady = true)
    (hsound : ∀ path trouble,
      .failed .deletion path trouble ∉ (scan .idle .live disk root rules).events) (mode : Mode) :
    (scan .idle mode (scan .idle .live disk root rules).disk root rules).found = [] ∧
      (scan .idle mode (scan .idle .live disk root rules).disk root rules).disk =
        (scan .idle .live disk root rules).disk := by
  obtain ⟨remarks, -, hmodes⟩ := scan_eq disk root rules
  obtain ⟨last, hlast, hscan⟩ := hmodes .live
  have hpruned : Pruned disk last.disk := by
    rw [← hlast]
    exact applyAll_pruned .live (disk.collected (disk.absolutize root)) rules ⟨disk, remarks, []⟩
  have hclean : last.Sound := by
    intro path trouble hfailed
    refine hsound path trouble ?_
    rw [hscan]
    exact List.mem_append_left _ (List.mem_reverse.2 hfailed)
  have hsame : last.disk.absolutize root = disk.absolutize root := by
    simp only [Disk.absolutize, Path.absolutize_of_rooted _ hrooted]
  have hnothing : (scan .idle .dry last.disk root rules).found = [] := by
    refine List.eq_nil_iff_forall_not_mem.2 fun path hpath => ?_
    obtain ⟨rule, hrule, directory, kind, hdirectory, happlies, hnamed⟩ :=
      mem_found_scan_dry_iff.1 hpath
    have hbefore := hdirectory.of_prunedWithin hpruned
    rw [hsame] at hbefore
    obtain ⟨listing, hlist⟩ := (hnamed.of_prunedWithin hpruned).listed
    have hcollected := mem_snapshot_of_scanned ⟨disk, [], []⟩ hbefore hlist
    have hsettled : Settled rule directory last := by
      rw [← hlast]
      exact settled_applyAll hrule (hsteady rule hrule) hcollected hdirectory.isNormal
        ⟨disk, remarks, []⟩
    have hyield : path ∈ last.disk.yield rule directory := by
      rw [Disk.yield, if_pos happlies]
      exact Disk.mem_named_iff.2 ⟨kind, hnamed⟩
    rw [hsettled hclean] at hyield
    cases hyield
  have hdry := disk_scan_dry last.disk root rules
  rw [hscan]
  cases mode with
  | dry => exact ⟨hnothing, hdry⟩
  | live =>
      rw [scan_live_of_found_nil hnothing]
      exact ⟨hnothing, hdry⟩

/-- Rules that remove each `b`, and each `p` beside which there is an `a`. -/
def nestedRules : List Rule :=
  [⟨.delete, ⟨"b"⟩, none⟩, ⟨.delete, ⟨"p"⟩, some (.present .here ⟨"a"⟩)⟩]

/-- A scan that removes a file and then its directory leaves nothing for a second scan. -/
theorem scan_after_scan_of_nested :
    (scan .idle .live nestedDisk (Path.ofText "/w") nestedRules).found =
        [Path.ofText "/w/p/b", Path.ofText "/w/p"] ∧
      ∀ mode, (scan .idle mode (scan .idle .live nestedDisk (Path.ofText "/w") nestedRules).disk
          (Path.ofText "/w") nestedRules).found = [] := by
  have hevents : (scan .idle .live nestedDisk (Path.ofText "/w") nestedRules).events =
      [.started (Path.ofText "/w") 2, .entered (Path.ofText "/w"), .entered (Path.ofText "/w/p"),
        .found (Path.ofText "/w/p/b"), .deleted (Path.ofText "/w/p/b") false,
        .entered (Path.ofText "/w"), .found (Path.ofText "/w/p"), .deleted (Path.ofText "/w/p") true,
        .entered (Path.ofText "/w/p"), .finished (Path.ofText "/w") 2] := by
    simp only [scan_eq_scanToDepth]
    cbv
  refine ⟨?_, fun mode => ?_⟩
  · rw [← foundBy_scan, hevents]
    rfl
  · refine (scan_after_scan nestedDisk (Path.ofText "/w") nestedRules rfl (by decide) ?_ mode).1
    intro path trouble
    simp [hevents]

end Sweep
