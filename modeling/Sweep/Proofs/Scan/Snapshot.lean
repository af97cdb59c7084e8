import Mathlib
import Sweep.Proofs.Disk.Spelled
import Sweep.Proofs.Scan.Collected
import Sweep.Proofs.Scan.Course
/-!
# What collecting directories comes to

A walk visits a directory before it finds out that it cannot be listed, so the directories that a
scan goes to are those that it has visited without those that it has then failed to list. What it
tells on the way are these failures alone: one for each directory that is reached and cannot be
listed, or one for a root that cannot even be looked up.

## Main results

* `progress_snapshot` — what is told while directories are collected.
* `snapshot_surveys` — which directories are collected, and which failures are told.
-/

namespace Sweep

open Disk

/-! ## What cannot be listed -/

/-- The paths that cannot be listed, with the reasons. -/
def Disk.barred (disk : Disk) (paths : List Path) : List (Path × Fault) :=
  paths.filterMap fun path =>
    match disk.list path with
    | .error fault => some (path, fault)
    | .ok _ => none

theorem Disk.barred_of_listed {disk : Disk} {path : Path} {listing : Listing}
    (h : disk.list path = .ok listing) (rest : List Path) :
    disk.barred (path :: rest) = disk.barred rest := by
  rw [Disk.barred, List.filterMap_cons, h]
  rfl

theorem Disk.barred_of_unlisted {disk : Disk} {path : Path} {fault : Fault}
    (h : disk.list path = .error fault) (rest : List Path) :
    disk.barred (path :: rest) = (path, fault) :: disk.barred rest := by
  rw [Disk.barred, List.filterMap_cons, h]
  rfl

theorem Disk.mem_barred_iff {disk : Disk} {paths : List Path} {path : Path} {fault : Fault} :
    (path, fault) ∈ disk.barred paths ↔ path ∈ paths ∧ disk.list path = .error fault := by
  rw [Disk.barred, List.mem_filterMap]
  constructor
  · intro h
    obtain ⟨other, hother, hbar⟩ := h
    cases hlist : disk.list other with
    | error cause =>
        simp only [hlist, Option.some.injEq, Prod.mk.injEq] at hbar
        obtain ⟨rfl, rfl⟩ := hbar
        exact ⟨hother, hlist⟩
    | ok listing => simp [hlist] at hbar
  · intro h
    obtain ⟨hpath, hlist⟩ := h
    exact ⟨path, hpath, by rw [hlist]⟩

theorem Disk.map_fst_barred_sublist (disk : Disk) (paths : List Path) :
    ((disk.barred paths).map Prod.fst).Sublist paths := by
  induction paths with
  | nil => exact List.nil_sublist []
  | cons path rest ih =>
      cases hlist : disk.list path with
      | error fault =>
          rw [Disk.barred_of_unlisted hlist, List.map_cons]
          exact ih.cons_cons path
      | ok listing =>
          rw [Disk.barred_of_listed hlist]
          exact ih.cons path

/-! ## What is told -/

/-- On a walk through a disk that stays as it is, what cannot be listed is told in order. -/
theorem progress_foldl_pass (disk : Disk) (entries : List Entry) (collection : Collection) :
    (entries.foldl ((snapshotVisitor .idle).pass disk) collection).progress =
      { collection.progress with
        trace := ((disk.barred ((entries.filter fun entry =>
          entry.kind = .directory).map (·.path))).map walkFailure).reverse ++
            collection.progress.trace } := by
  induction entries generalizing collection with
  | nil => rfl
  | cons entry rest ih =>
      rw [List.foldl_cons, ih]
      by_cases hkind : entry.kind = .directory
      · cases hlist : disk.list entry.path with
        | error fault =>
            rw [Visitor.pass_unlisted _ collection hkind hlist]
            simp [Disk.barred_of_unlisted hlist, hkind, snapshotVisitor, Progress.tell,
              Observer.idle, walkFailure]
        | ok listing =>
            rw [Visitor.pass_listed _ collection hlist, progress_visit_snapshot]
            simp [Disk.barred_of_listed hlist, hkind]
      · rw [Visitor.pass_plain _ _ collection hkind, progress_visit_snapshot]
        simp [hkind]

/-- What cannot be walked at and below a root: the root, if it cannot be looked up, or else the
directories that cannot be listed. -/
def Disk.obstacles (disk : Disk) (root : Path) : List (Path × Fault) :=
  match disk.ownKind root with
  | .error fault => [(root, fault)]
  | .ok _ => disk.barred (disk.reached root)

/-- Nothing is reached from what is neither a directory nor a link to one. -/
theorem Disk.reached_of_file {disk : Disk} {root : Path} (h : disk.ownKind root = .ok .file) :
    disk.reached root = [] := by
  have hnone : disk.allBelow root = [] := by
    cases hlist : disk.list root with
    | error fault => exact Disk.allBelow_of_unlisted hlist
    | ok listing => rcases Disk.kinds_of_list hlist with hkind | ⟨hkind, -⟩ <;> simp [h] at hkind
  simp [Disk.reached, h, hnone]

/-- Collecting directories tells what cannot be walked, and does nothing else. -/
theorem progress_snapshot {root : Path} {progress : Progress}
    (hlink : progress.disk.ownKind root ≠ .ok .link) :
    (snapshot .idle root progress).1 =
      { progress with
        trace := ((progress.disk.obstacles root).map walkFailure).reverse ++ progress.trace } := by
  rw [snapshot, Disk.obstacles]
  show ((snapshotVisitor .idle).run root true ⟨progress, [], []⟩).progress = _
  cases hkind : progress.disk.ownKind root with
  | error fault =>
      show _ = { progress with trace := walkFailure (root, fault) :: progress.trace }
      simp [Visitor.run, snapshotVisitor, hkind, Progress.tell, Observer.idle, walkFailure]
  | ok kind =>
      cases kind with
      | link => exact absurd hkind hlink
      | file =>
          show _ = { progress with
            trace := ((progress.disk.barred (progress.disk.reached root)).map walkFailure).reverse ++
              progress.trace }
          rw [Disk.reached_of_file hkind]
          simp [Visitor.run, snapshotVisitor, hkind, Disk.barred]
      | directory =>
          have hreached : progress.disk.reached root = root ::
              ((progress.disk.allBelow root).filter fun entry =>
                entry.kind = .directory).map (·.path) := by
            rw [Disk.reached, if_pos hkind, List.singleton_append]
          simp only [hreached]
          rw [run_snapshot, if_pos hkind]
          cases hlist : progress.disk.list root with
          | error fault =>
              rw [Disk.barred_of_unlisted hlist, Disk.allBelow_of_unlisted hlist]
              simp [Visitor.run, Visitor.visitDirectory, snapshotVisitor, hkind, hlist,
                Progress.tell, Observer.idle, walkFailure, Disk.barred]
          | ok listing =>
              rw [Disk.barred_of_listed hlist,
                (snapshotVisitor_still progress.disk).run_eq_foldl hlist rfl, progress_foldl_pass]

/-! ## Which directories are collected -/

/-- What is shown as a directory and can be listed is one, and not a link that has taken its
place. -/
theorem Disk.Under.ownKind {disk : Disk} {path directory : Path} {below names : Place}
    {listing : Listing} (hnormal : path.IsNormal)
    (h : disk.Under path below ⟨directory, names, .directory⟩)
    (hlist : disk.list directory = .ok listing) : disk.ownKind directory = .ok .directory := by
  generalize hentry : (⟨directory, names, .directory⟩ : Entry) = entry at h
  induction h with
  | @entry path below name kind hlisted =>
      cases hentry
      obtain ⟨place, rights, held, node, hplace, hdir, -, hnode, hkind⟩ := mem_entries_iff.1 hlisted
      have hlook : ∃ target, disk.resolve .user .look (path.child name.bytes) = .ok target := by
        cases hresolve : disk.resolve .user .look (path.child name.bytes) with
        | ok target => exact ⟨target, rfl⟩
        | error fault =>
            rcases Disk.kinds_of_list hlist with hown | ⟨hown, -⟩ <;>
              simp [Disk.ownKind, Disk.node, hresolve, Except.map] at hown
      obtain ⟨target, htarget⟩ := hlook
      rcases resolve_look_child_cases hnormal hplace hdir name with hfound | ⟨fault, hmissed, -⟩
      · rw [Disk.ownKind, node_eq_ok_iff.2 ⟨_, hfound, hnode⟩, ← hkind]
        rfl
      · rw [hmissed] at htarget
        cases htarget
  | inner hlisted next ih => exact ih (hnormal.child _) hentry

/-- What collecting the directories at and below a root is to find out. -/
structure Disk.Survey (disk : Disk) (root : Path) (directories : List Path)
    (failures : List (Path × Fault)) : Prop where
  /-- The directories are those that are reached and can be listed. -/
  mem_iff : ∀ directory, directory ∈ directories ↔
    disk.Scanned root directory ∧ ∃ listing, disk.list directory = .ok listing
  /-- None of them is a link. -/
  real : ∀ directory ∈ directories, disk.ownKind directory = .ok .directory
  ordered : directories.Pairwise Path.Before
  nodup : directories.Nodup
  /-- The failures are the directories that are reached and cannot be listed, or the root if it
  cannot be looked up. -/
  mem_failures_iff : ∀ path fault, (path, fault) ∈ failures ↔
    disk.Scanned root path ∧ disk.list path = .error fault ∨
      path = root ∧ disk.ownKind root = .error fault
  ordered_failures : (failures.map Prod.fst).Pairwise Path.Before
  nodup_failures : (failures.map Prod.fst).Nodup

theorem Disk.mem_obstacles_iff {disk : Disk} {root path : Path} {fault : Fault} :
    (path, fault) ∈ disk.obstacles root ↔
      disk.Scanned root path ∧ disk.list path = .error fault ∨
        path = root ∧ disk.ownKind root = .error fault := by
  cases hkind : disk.ownKind root with
  | error cause =>
      have hunscanned : ¬ disk.Scanned root path := by
        intro h
        cases h with
        | root hdirectory => simp [hkind] at hdirectory
        | below hunder =>
            obtain ⟨listing, hlist⟩ := hunder.listed
            exact Disk.unlisted_of_ownKind_error hkind listing hlist
      simp [Disk.obstacles, hkind, hunscanned, eq_comm]
  | ok kind => simp [Disk.obstacles, hkind, Disk.mem_barred_iff, Disk.mem_reached_iff]

theorem Disk.ordered_obstacles {root : Path} (hfolded : root.IsFolded) (disk : Disk) :
    ((disk.obstacles root).map Prod.fst).Pairwise Path.Before := by
  rw [Disk.obstacles]
  split
  · exact List.pairwise_singleton _ root
  · exact (Disk.pairwise_reached hfolded disk).sublist (disk.map_fst_barred_sublist _)

theorem Disk.survey_collected (disk : Disk) (root : Path) :
    disk.Survey (disk.absolutize root) (disk.collected (disk.absolutize root))
      (disk.obstacles (disk.absolutize root)) := by
  have hfolded : (disk.absolutize root).IsFolded := Path.isFolded_fold _
  have hmem : ∀ directory, directory ∈ disk.collected (disk.absolutize root) ↔
      disk.Scanned (disk.absolutize root) directory ∧
        ∃ listing, disk.list directory = .ok listing := by
    intro directory
    rw [Disk.collected_eq, List.mem_filter, Disk.mem_reached_iff, Disk.lists_iff]
  have hordered := Disk.pairwise_collected hfolded disk
  have hfailures := Disk.ordered_obstacles hfolded disk
  exact {
    mem_iff := hmem
    real := by
      intro directory hdirectory
      obtain ⟨hscanned, listing, hlist⟩ := (hmem directory).1 hdirectory
      have hrooted := hscanned.rooted
      cases hscanned with
      | root hkind => exact hkind
      | below hunder => exact hunder.ownKind ⟨hfolded, hunder.rooted.symm.trans hrooted⟩ hlist
    ordered := hordered
    nodup := Path.nodup_of_ordered hordered
    mem_failures_iff := fun path fault => Disk.mem_obstacles_iff
    ordered_failures := hfailures
    nodup_failures := Path.nodup_of_ordered hfailures }

/-- Collecting directories from a root that is no link leaves the disk as it is. It comes to the
directories at and below the root that can be listed and are reached through such directories, each
once and in order; and it tells in order, once for each, what is reached that cannot be listed, or
that the root cannot be looked up. -/
theorem snapshot_surveys (disk : Disk) (root : Path) (trace : List Event) (found : List Path)
    (hlink : disk.ownKind (disk.absolutize root) ≠ .ok .link) :
    ∃ directories failures, snapshot .idle (disk.absolutize root) ⟨disk, trace, found⟩ =
        (⟨disk, (failures.map walkFailure).reverse ++ trace, found⟩, directories) ∧
      disk.Survey (disk.absolutize root) directories failures := by
  refine ⟨disk.collected (disk.absolutize root), disk.obstacles (disk.absolutize root), ?_,
    disk.survey_collected root⟩
  apply Prod.ext
  · exact progress_snapshot hlink
  · exact snapshot_eq_collected (disk.absolutize root) ⟨disk, trace, found⟩

/-- A disk with a directory `/w` that holds a directory `b` with a directory `c` in it, a directory
`a` that nobody may read, and a link `l` to `b`. -/
def surveyDisk : Disk :=
  .ofLeaves [("/w/a", .directory ⟨false, true, true⟩ []), ("/w/a/x", .ofContent ""),
    ("/w/b/c", .empty), ("/w/l", .link (Path.ofText "b").bytes)]

/-- From `/w` the directories `/w`, `/w/b` and `/w/b/c` are collected, and `/w/a` fails. -/
theorem snapshot_surveys_of_unreadable :
    surveyDisk.ownKind (surveyDisk.absolutize (Path.ofText "/w")) ≠ .ok .link ∧
      (snapshot .idle (Path.ofText "/w") ⟨surveyDisk, [], []⟩).2 =
        ["/w", "/w/b", "/w/b/c"].map Path.ofText ∧
      ∃ directories failures, snapshot .idle (surveyDisk.absolutize (Path.ofText "/w"))
          ⟨surveyDisk, [], []⟩ =
            (⟨surveyDisk, (failures.map walkFailure).reverse ++ [], []⟩, directories) ∧
        surveyDisk.Survey (surveyDisk.absolutize (Path.ofText "/w")) directories failures := by
  have hlink : surveyDisk.ownKind (surveyDisk.absolutize (Path.ofText "/w")) ≠ .ok .link := by
    have hkind : surveyDisk.ownKind (surveyDisk.absolutize (Path.ofText "/w")) =
        .ok .directory := by cbv
    rw [hkind]
    decide
  refine ⟨hlink, ?_, snapshot_surveys surveyDisk (Path.ofText "/w") [] [] hlink⟩
  rw [snapshot, Visitor.run_eq_runToDepth]
  cbv

end Sweep
