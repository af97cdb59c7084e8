import Sweep.Proofs.Scan.Evaluated
import Sweep.Proofs.Scan.Harvest
/-!
# Scans in two parts

A scan collects its directories once. Some of them may be gone when a later rule is applied in them;
the condition of the rule is still asked there, and may be answered yes. But in a directory that
cannot be listed nothing is named, and of the directories that still can be listed none is missed by
a scan that begins only now. So a scan does the same as a scan with the first rules and then one with
the others.

What is told differs: the second scan tells again what it could not collect, and the long scan tells
that it enters directories that are gone.

## Main results

* `filter_collected` — what a scan collects later on, as far as it can be listed.
* `applyAll_alike` — directories that cannot be listed do not matter.
* `scan_append` — a scan may be split between two rules.
-/

namespace Sweep

open Disk

/-- Whether the directory at a path can be listed. -/
def Disk.lists (disk : Disk) (path : Path) : Bool :=
  (disk.list path).toOption.isSome

theorem Disk.lists_iff {disk : Disk} {path : Path} :
    disk.lists path = true ↔ ∃ listing, disk.list path = .ok listing := by
  unfold Disk.lists
  cases disk.list path <;> simp [Except.toOption]

theorem Disk.Unlisted.lists {disk : Disk} {path : Path} (h : disk.Unlisted path) :
    disk.lists path = false := by
  rw [← Bool.not_eq_true, Disk.lists_iff]
  exact fun ⟨listing, hlist⟩ => h listing hlist

/-- What can be listed on a pruned disk could be listed before. -/
theorem Disk.PrunedWithin.lists {p : Place → Prop} {old new : Disk} (hpruned : PrunedWithin p old new)
    {path : Path} (h : new.lists path = true) : old.lists path = true := by
  obtain ⟨listing, hlist⟩ := Disk.lists_iff.1 h
  obtain ⟨place, rights, entries, hplace, hdir, hread, -⟩ := list_eq_ok_iff.1 hlist
  obtain ⟨held, hheld⟩ := hpruned.root.at?_directory hdir
  exact Disk.lists_iff.2
    ⟨_, list_eq_ok_iff.2 ⟨place, rights, held, hpruned.resolve hplace, hheld, hread, rfl⟩⟩

/-! ## What is collected later on -/

/-- Collecting directories begins with the root, if it is a directory itself. -/
theorem run_snapshot (root : Path) (collection : Collection) :
    (snapshotVisitor .idle).run root true collection =
      (snapshotVisitor .idle).run root false
        (if collection.progress.disk.ownKind root = .ok .directory then
          { collection with directories := root :: collection.directories }
        else collection) := by
  have hdisk : (snapshotVisitor .idle).disk = fun collection => collection.progress.disk := rfl
  unfold Visitor.run Visitor.visitDirectory
  simp only [hdisk]
  cases hkind : collection.progress.disk.ownKind root with
  | error fault => simp [hkind]
  | ok kind =>
      cases kind with
      | directory => simp [hkind, snapshotVisitor]
      | file => simp [hkind, snapshotVisitor]
      | link =>
          simp only [reduceCtorEq, Except.ok.injEq, if_false, hkind]
          rfl

theorem directories_visit_snapshot (entry : Entry) (collection : Collection) :
    ((snapshotVisitor .idle).visit entry collection).1.directories.reverse =
      collection.directories.reverse ++ if entry.kind = .directory then [entry.path] else [] := by
  simp only [snapshotVisitor]
  split <;> simp

/-- Collecting directories on a pruned disk follows those of the disk before, as far as they can be
listed later on. -/
theorem collecting_follows {disk now later : Disk} (hnow : Pruned disk now)
    (hlater : Pruned now later) (start : List Path) :
    (snapshotVisitor .idle).Follows disk Path.IsNormal (fun _ _ => True)
      fun passed collection => collection.progress.disk = now ∧
        collection.directories.reverse.filter later.lists =
          (start ++ (passed.filter fun entry => entry.kind = .directory).map (·.path)).filter
            later.lists where
  normal := id
  inner := fun hwalks _ => hwalks.child _
  pruned := by
    rintro passed collection ⟨rfl, -⟩
    exact hnow
  prunes := by
    intro path name entry collection _
    have hdisk : (snapshotVisitor .idle).disk ((snapshotVisitor .idle).visit entry collection).1 =
        (snapshotVisitor .idle).disk collection :=
      congrArg Progress.disk (progress_visit_snapshot .idle entry collection)
    rw [hdisk]
    exact .refl _ _
  visit := by
    rintro passed path name entry collection - - ⟨hdisk, hpassed⟩
    refine ⟨by simpa using hdisk, ?_⟩
    rw [directories_visit_snapshot, List.filter_append, hpassed]
    by_cases hkind : entry.kind = .directory <;> simp [hkind]
  skip := by
    rintro passed path name entry collection ⟨hwalks, hlisted, hpath⟩ hhides ⟨rfl, hpassed⟩
    refine ⟨rfl, ?_⟩
    rw [hpassed]
    by_cases hkind : entry.kind = .directory
    · have hgone : later.lists entry.path = false := by
        rw [← Bool.not_eq_true, hpath]
        intro hlists
        obtain ⟨listing, hlist⟩ := Disk.lists_iff.1 (hlater.lists hlists)
        rw [hkind] at hlisted
        exact hhides .directory (mem_entries_of_list_child hnow hwalks hlisted hlist)
      simp [hkind, hgone]
    · simp [hkind]
  leaves := by
    intro path name entry collection _ _ hleft
    cases hleft
  listed := fun _ _ _ => trivial
  stays := fun _ _ _ => trivial
  fail := id
  fail_disk := rfl
  fail_there := id

/-- What is collected on a pruned disk, as far as it can be listed later on, are directories at and
below the root that were there before. -/
theorem filter_collected {disk now later : Disk} (hnow : Pruned disk now)
    (hlater : Pruned now later) {root : Path} (hnormal : root.IsNormal) :
    (now.collected root).filter later.lists =
      ((if now.ownKind root = .ok .directory then [root] else []) ++
        ((disk.allBelow root).filter fun entry => entry.kind = .directory).map (·.path)).filter
          later.lists := by
  have hunlisted := unlisted_of_mem_snapshot root ⟨now, [], []⟩
  rw [Disk.collected, snapshot]
  rw [run_snapshot] at hunlisted ⊢
  simp only [List.filter_filter] at hunlisted ⊢
  generalize hstart : (if now.ownKind root = .ok .directory then
    (⟨⟨now, [], []⟩, [root], []⟩ : Collection) else ⟨⟨now, [], []⟩, [], []⟩) = start at hunlisted ⊢
  have hbegins : start.progress.disk = now ∧ start.directories.reverse.filter later.lists =
      ((if now.ownKind root = .ok .directory then [root] else []) ++
        (([] : List Entry).filter fun entry => entry.kind = .directory).map (·.path)).filter
          later.lists := by
    rw [← hstart]
    split <;> simp
  have hpassed := ((collecting_follows hnow hlater _).run hnormal hbegins).2
  rw [List.nil_append] at hpassed
  rw [← hpassed]
  refine List.filter_congr fun directory _ => ?_
  cases hlists : later.lists directory with
  | false => simp
  | true =>
      have hnot : directory ∉ ((snapshotVisitor .idle).run root false start).unlisted := by
        intro hmem
        have hnone := (hunlisted directory hmem).lists
        rw [hlater.lists hlists] at hnone
        cases hnone
      simp [hnot]

/-- Of the directories that can be listed later on, a scan that begins later collects the same. -/
theorem filter_collected_later {disk later : Disk} (hlater : Pruned disk later) {root : Path}
    (hnormal : root.IsNormal) :
    (disk.collected root).filter later.lists = (later.collected root).filter later.lists := by
  rw [filter_collected (.refl _ _) hlater hnormal,
    filter_collected hlater (.refl _ _) hnormal, List.filter_append, List.filter_append]
  congr 1
  cases hlists : later.lists root with
  | false =>
      split <;> split <;> simp [hlists]
  | true =>
      obtain ⟨listing, hlist⟩ := Disk.lists_iff.1 hlists
      have hsame : disk.ownKind root = later.ownKind root := by
        rcases Disk.kinds_of_list hlist with hown | ⟨hown, -⟩
        · rw [hown, hlater.ownKind hown]
        · rw [hown, hlater.ownKind hown]
      rw [hsame]

/-! ## Scans that are alike -/

/-- Two scans have the same disk, and the second one has found the same as the first one after what
it had found before. -/
def Progress.Alike (past : List Path) (s t : Progress) : Prop :=
  t.disk = s.disk ∧ t.found = s.found ++ past

namespace Progress.Alike

variable {past : List Path} {s t : Progress}

theorem tell (h : Alike past s t) (event other : Event) :
    Alike past (s.tell .idle event) (t.tell .idle other) :=
  h

theorem take (h : Alike past s t) (mode : Mode) (path : Path) (isDirectory : Bool) :
    Alike past (s.take .idle mode path isDirectory).1 (t.take .idle mode path isDirectory).1 ∧
      (t.take .idle mode path isDirectory).2 = (s.take .idle mode path isDirectory).2 := by
  obtain ⟨hdisk, hfound⟩ := h
  cases mode with
  | dry =>
      rw [take_dry, take_dry]
      exact ⟨⟨hdisk, congrArg (path :: ·) hfound⟩, rfl⟩
  | live =>
      refine ⟨?_, Bool.eq_iff_iff.2 ?_⟩
      · simp only [take_live, hdisk]
        exact ⟨rfl, congrArg (path :: ·) hfound⟩
      · rw [gone_take_live, gone_take_live, hdisk]

theorem takeTargets (h : Alike past s t) (mode : Mode) (target : Glob) (directory : Path) :
    Alike past (takeTargets .idle mode target directory s)
      (takeTargets .idle mode target directory t) := by
  unfold Sweep.takeTargets
  split
  · refine Visitor.run_alike (Alike past) (fun _ _ h => h.1) ?_ (fun _ _ _ _ h => h) directory false
      s t h
    intro entry s t h
    cases haccepts : target.accepts (slashed entry.below) with
    | true =>
        obtain ⟨htaken, hgone⟩ := h.take mode entry.path (entry.kind = .directory)
        rw [visit_target_of_accepts haccepts, visit_target_of_accepts haccepts, hgone]
        exact ⟨htaken, rfl⟩
    | false =>
        rw [visit_target_of_not_accepts haccepts, visit_target_of_not_accepts haccepts]
        exact ⟨h, rfl⟩
  · unfold takeEntries
    rw [h.1]
    refine List.foldl_rel h fun entry _ s t h => ?_
    split
    · exact (h.take mode _ _).1
    · exact h

theorem applyIn (h : Alike past s t) (mode : Mode) (rule : Rule) (directory : Path) :
    Alike past (applyIn .idle mode rule s directory) (applyIn .idle mode rule t directory) := by
  have hentered := h.tell (.entered directory) (.entered directory)
  unfold Sweep.applyIn
  simp only [hentered.1]
  split
  · exact hentered.takeTargets mode rule.target directory
  · exact hentered

/-- What has been told before does not matter for what rules find and remove. -/
theorem applyAll (h : Alike past s t) (mode : Mode) (directories : List Path)
    (rules : List Rule) :
    Alike past (applyAll .idle mode directories rules s)
      (applyAll .idle mode directories rules t) := by
  refine List.foldl_rel h fun rule _ s t h => ?_
  exact List.foldl_rel h fun directory _ s t h => h.applyIn mode rule directory

end Progress.Alike

/-- In a directory that cannot be listed a target takes nothing. -/
theorem takeTargets_of_unlisted {mode : Mode} {target : Glob} {directory : Path}
    {progress : Progress} (h : progress.disk.lists directory = false) :
    takeTargets .idle mode target directory progress = progress := by
  cases hlist : progress.disk.list directory with
  | ok listing => simp [Disk.lists, hlist, Except.toOption] at h
  | error fault =>
      have hnone : progress.disk.entries directory = [] := by
        simp [Disk.entries, hlist, Except.toOption]
      unfold takeTargets takeBelow takeEntries
      split
      · have hrun : (targetVisitor .idle mode target).run directory false progress = progress ∨
            ∃ cause, (targetVisitor .idle mode target).run directory false progress =
              (targetVisitor .idle mode target).fail directory cause progress :=
          Visitor.run_of_list_error _ hlist
        rcases hrun with hsame | ⟨cause, hfail⟩
        · exact hsame
        · exact hfail
      · rw [hnone, List.foldl_nil]

/-- Where a directory cannot be listed, applying a rule in it does not matter. -/
theorem Progress.Alike.applyIn_of_unlisted {past : List Path} {s t : Progress}
    (h : Progress.Alike past s t) (mode : Mode) (rule : Rule) {directory : Path}
    (hunlisted : s.disk.lists directory = false) :
    Progress.Alike past s (Sweep.applyIn .idle mode rule t directory) := by
  have hentered : Progress.Alike past s (t.tell .idle (.entered directory)) := h
  unfold Sweep.applyIn
  simp only
  split
  · rw [takeTargets_of_unlisted (by rw [hentered.1]; exact hunlisted)]
    exact hentered
  · exact hentered

/-! ## The whole scan -/

/-- Directories that cannot be listed any more may be left out. -/
theorem foldl_applyIn_alike {disk : Disk} {past : List Path} (mode : Mode) (rule : Rule)
    (directories : List Path) {s t : Progress} (hpruned : Pruned disk s.disk)
    (h : Progress.Alike past s t) :
    Pruned disk ((directories.filter disk.lists).foldl (applyIn .idle mode rule) s).disk ∧
      Progress.Alike past ((directories.filter disk.lists).foldl (applyIn .idle mode rule) s)
        (directories.foldl (applyIn .idle mode rule) t) := by
  induction directories generalizing s t with
  | nil => exact ⟨hpruned, h⟩
  | cons directory directories ih =>
      rw [List.foldl_cons]
      cases hlists : disk.lists directory with
      | true =>
          rw [List.filter_cons_of_pos hlists, List.foldl_cons]
          exact ih (hpruned.trans (applyIn_pruned mode rule directory s))
            (h.applyIn mode rule directory)
      | false =>
          have hunlisted : s.disk.lists directory = false := by
            rw [← Bool.not_eq_true]
            intro hnow
            rw [hpruned.lists hnow] at hlists
            cases hlists
          rw [List.filter_cons_of_neg (by simp [hlists])]
          exact ih hpruned (h.applyIn_of_unlisted mode rule hunlisted)

theorem applyAll_alike {disk : Disk} {past : List Path} (mode : Mode) (directories : List Path)
    (rules : List Rule) {s t : Progress} (hpruned : Pruned disk s.disk)
    (h : Progress.Alike past s t) :
    Progress.Alike past (applyAll .idle mode (directories.filter disk.lists) rules s)
      (applyAll .idle mode directories rules t) := by
  unfold applyAll
  induction rules generalizing s t with
  | nil => exact h
  | cons rule rules ih =>
      obtain ⟨hlater, halike⟩ := foldl_applyIn_alike mode rule directories hpruned h
      rw [List.foldl_cons, List.foldl_cons]
      exact ih hlater halike

/-- A scan with two lists of rules does the same as a scan with the first one and then a scan with
the second one. -/
theorem scan_append (mode : Mode) (disk : Disk) (root : Path) (first second : List Rule)
    (hrooted : root.rooted = true) :
    (scan .idle mode disk root (first ++ second)).found =
        (scan .idle mode disk root first).found ++
          (scan .idle mode (scan .idle mode disk root first).disk root second).found ∧
      (scan .idle mode disk root (first ++ second)).disk =
        (scan .idle mode (scan .idle mode disk root first).disk root second).disk := by
  obtain ⟨remarks, -, hmodes⟩ := scan_eq disk root (first ++ second)
  obtain ⟨last, hlast, hwhole⟩ := hmodes mode
  obtain ⟨before, -, hmodes⟩ := scan_eq disk root first
  obtain ⟨middle, hmiddle, hfirst⟩ := hmodes mode
  obtain ⟨after, -, hmodes⟩ := scan_eq middle.disk root second
  obtain ⟨final, hfinal, hsecond⟩ := hmodes mode
  have hroot : ∀ disk : Disk, disk.absolutize root = root.fold :=
    fun disk => Path.absolutize_of_rooted disk.workingPath? hrooted
  rw [hroot] at hlast hmiddle hfinal
  have hpruned : Pruned disk middle.disk := by
    rw [← hmiddle]
    exact applyAll_pruned mode (disk.collected root.fold) first ⟨disk, before, []⟩
  have hcollected : (disk.collected root.fold).filter middle.disk.lists =
      (middle.disk.collected root.fold).filter middle.disk.lists :=
    filter_collected_later hpruned ⟨Path.isFolded_fold root, hrooted⟩
  have hbegun : Progress.Alike middle.found ⟨middle.disk, after, []⟩
      (applyAll .idle mode (disk.collected root.fold) first ⟨disk, remarks, []⟩) := by
    have hstart : Progress.Alike [] ⟨disk, before, []⟩ ⟨disk, remarks, []⟩ := ⟨rfl, rfl⟩
    have halike := hstart.applyAll mode (disk.collected root.fold) first
    rw [hmiddle] at halike
    exact ⟨halike.1, by rw [halike.2, List.append_nil, List.nil_append]⟩
  -- both second parts do what is done in the directories that can still be listed
  have hlong := applyAll_alike mode (disk.collected root.fold) second (.refl _ _) hbegun
  have hshort := applyAll_alike mode (middle.disk.collected root.fold) second (.refl _ _)
    (show Progress.Alike [] ⟨middle.disk, after, []⟩ ⟨middle.disk, after, []⟩ from ⟨rfl, rfl⟩)
  have happlied : applyAll .idle mode (disk.collected root.fold) second
      (applyAll .idle mode (disk.collected root.fold) first ⟨disk, remarks, []⟩) = last := by
    rw [← hlast]
    exact List.foldl_append.symm
  rw [hfinal] at hshort
  rw [happlied, hcollected] at hlong
  rw [hwhole, hfirst, hsecond]
  refine ⟨?_, hlong.1.trans hshort.1.symm⟩
  rw [hlong.2, hshort.2, List.append_nil, List.reverse_append]

/-- Once a directory has been removed, the question for a `b` in it is answered no; that finds nothing
more than a scan which does not know the directory. -/
theorem scan_append_of_removed :
    (scan .idle .live nestedDisk (Path.ofText "/w") ([⟨.delete, ⟨"p"⟩, none⟩] ++
        [⟨.delete, ⟨"**"⟩, some (.negated (.present .here ⟨"b"⟩))⟩])).found =
      (scan .idle .live nestedDisk (Path.ofText "/w") [⟨.delete, ⟨"p"⟩, none⟩]).found ++
        (scan .idle .live
          (scan .idle .live nestedDisk (Path.ofText "/w") [⟨.delete, ⟨"p"⟩, none⟩]).disk
          (Path.ofText "/w")
          [⟨.delete, ⟨"**"⟩, some (.negated (.present .here ⟨"b"⟩))⟩]).found ∧
    (scan .idle .live nestedDisk (Path.ofText "/w") ([⟨.delete, ⟨"p"⟩, none⟩] ++
        [⟨.delete, ⟨"**"⟩, some (.negated (.present .here ⟨"b"⟩))⟩])).found =
      [Path.ofText "/w/p", Path.ofText "/w/a"] := by
  refine ⟨(scan_append .live nestedDisk (Path.ofText "/w") [⟨.delete, ⟨"p"⟩, none⟩]
    [⟨.delete, ⟨"**"⟩, some (.negated (.present .here ⟨"b"⟩))⟩] rfl).1, ?_⟩
  simp only [scan_eq_scanToDepth]
  cbv

end Sweep
