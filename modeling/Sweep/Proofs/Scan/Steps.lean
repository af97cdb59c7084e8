import Sweep.Proofs.Disk.Removed
import Sweep.Proofs.Path
import Sweep.Proofs.Walk
import Sweep.Report.Basic
import Sweep.Scan.Basic
/-!
# What a scan does, step by step

A scan that nobody disturbs makes remarks and takes matches. Each match is something that the target
of a rule names in one of the scanned directories, by listings of the disk as it was at the start:
what is removed on the way only makes the listings shorter. So what is kept by remarks and by taking
such matches is kept by the whole scan, and `scan_keeps` is the induction behind all that is said
about scans.

## Main results

* `Progress.take_live`, `Progress.take_dry` — what taking a match does.
* `mem_snapshot_of_scanned`, `scanned_of_mem_snapshot` — which directories are scanned.
* `scan_eq` — a scan collects directories, and then applies the rules in them.
* `scan_keeps` — what remarks and matches keep, a scan keeps.
* `paths_ofEvents_scan` — a report of a scan lists its matches.
-/

namespace Sweep

open Disk

/-! ## Taking a match -/

/-- Removes a match as what it was listed as. -/
def Disk.removeMatch (disk : Disk) (path : Path) (isDirectory : Bool) : Disk × Option Fault :=
  if isDirectory then disk.removeDirectory .user path else disk.removeFile .user path

/-- What is told of a removal, by its outcome. -/
def tidings (path : Path) (isDirectory : Bool) : Option Fault → List Event
  | none => [.deleted path isDirectory]
  | some .notFound => []
  | some fault => [.failed .deletion path (.plain fault)]

/-- An event that is not about a match. -/
def Event.isRemark : Event → Bool
  | .started .. | .entered _ | .failed .traversal .. | .finished .. => true
  | .found _ | .deleted .. | .failed .deletion .. => false

namespace Progress

/-- A live scan removes a match and tells how that went. -/
theorem take_live (progress : Progress) (path : Path) (isDirectory : Bool) :
    (progress.take .idle .live path isDirectory).1 =
      ⟨(progress.disk.removeMatch path isDirectory).1,
        tidings path isDirectory (progress.disk.removeMatch path isDirectory).2 ++
          .found path :: progress.trace,
        path :: progress.found⟩ := by
  simp only [take, removeMatch, tell, Observer.idle, Disk.removeMatch]
  generalize (if isDirectory = true then progress.disk.removeDirectory .user path
    else progress.disk.removeFile .user path) = removed
  obtain ⟨disk, fault⟩ := removed
  cases fault with
  | none => rfl
  | some fault => cases fault <;> rfl

/-- A dry scan notes a match and leaves it. -/
theorem take_dry (progress : Progress) (path : Path) (isDirectory : Bool) :
    progress.take .idle .dry path isDirectory =
      (⟨progress.disk, .found path :: progress.trace, path :: progress.found⟩, false) := rfl

/-- Taking a match changes nothing beyond its path. -/
theorem take_prunedWithin {path : Path} {steps : List Bytes} {name : Name}
    (hsteps : path.steps = steps ++ [name.bytes]) (progress : Progress) (mode : Mode)
    (isDirectory : Bool) :
    PrunedWithin (progress.disk.Covers path) progress.disk
      (progress.take .idle mode path isDirectory).1.disk := by
  cases mode with
  | dry => exact .refl _ _
  | live =>
      rw [take_live]
      simp only [Disk.removeMatch]
      split
      · exact removeDirectory_prunedWithin hsteps
      · exact removeFile_prunedWithin hsteps

end Progress

/-! ## What a target names -/

/-- What a target names in a directory, and what the listings say it is. -/
inductive Disk.Named (disk : Disk) (target : Glob) (directory : Path) : Path → Kind → Prop where
  /-- An entry of the directory. -/
  | entry {name : Name} {kind : Kind} (hplain : target.isRecursive = false)
      (hlisted : (name, kind) ∈ disk.entries directory)
      (haccepts : target.accepts name.text = true) :
      Named disk target directory (directory.child name.bytes) kind
  /-- Something below the directory. -/
  | below {entry : Entry} (hrecursive : target.isRecursive = true)
      (hunder : disk.Under directory [] entry)
      (haccepts : target.accepts (slashed entry.below) = true) :
      Named disk target directory entry.path entry.kind

theorem steps_child (path : Path) (step : Bytes) :
    ∃ steps, (path.child step).steps = steps ++ [step] := by
  simp only [Path.child, Path.pushStep]
  split <;> exact ⟨_, rfl⟩

theorem Disk.Under.steps {disk : Disk} {path : Path} {below : Place} {entry : Entry}
    (h : disk.Under path below entry) :
    ∃ steps, ∃ name : Name, entry.path.steps = steps ++ [name.bytes] := by
  induction h with
  | @entry path below name kind _ =>
      obtain ⟨steps, hsteps⟩ := steps_child path name.bytes
      exact ⟨steps, name, hsteps⟩
  | inner _ _ ih => exact ih

/-- The path of what a target names ends in a name. -/
theorem Disk.Named.steps {disk : Disk} {target : Glob} {directory path : Path} {kind : Kind}
    (h : disk.Named target directory path kind) :
    ∃ steps, ∃ name : Name, path.steps = steps ++ [name.bytes] := by
  cases h with
  | @entry name _ _ _ _ =>
      obtain ⟨steps, hsteps⟩ := steps_child directory name.bytes
      exact ⟨steps, name, hsteps⟩
  | below _ hunder _ => exact hunder.steps

/-- Only in a directory that can be listed a target names anything. -/
theorem Disk.Named.listed {disk : Disk} {target : Glob} {directory path : Path} {kind : Kind}
    (h : disk.Named target directory path kind) : ∃ listing, disk.list directory = .ok listing := by
  cases h with
  | entry _ hlisted _ =>
      have hunder : disk.Under directory [] _ := .entry hlisted
      exact hunder.listed
  | below _ hunder _ => exact hunder.listed

/-! ## Which directories are scanned -/

/-- The directories at and below a root, as the listings show them. -/
inductive Disk.Scanned (disk : Disk) (root : Path) : Path → Prop where
  /-- The root itself. -/
  | root (hkind : disk.ownKind root = .ok .directory) : Scanned disk root root
  /-- A directory below it. -/
  | below {directory : Path} {below : Place}
      (hunder : disk.Under root [] ⟨directory, below, .directory⟩) : Scanned disk root directory

/-- Directories are scanned only if the root can be looked up. -/
theorem Disk.Scanned.resolve {disk : Disk} {root directory : Path}
    (h : disk.Scanned root directory) :
    ∃ purpose place, disk.resolve .user purpose root = .ok place := by
  cases h with
  | root hkind =>
      cases hresolve : disk.resolve .user .look root with
      | ok place => exact ⟨.look, place, hresolve⟩
      | error fault => simp [Disk.ownKind, Disk.node, hresolve, Except.map] at hkind
  | below hunder =>
      obtain ⟨listing, hlist⟩ := hunder.listed
      obtain ⟨place, -, -, hplace, -⟩ := list_eq_ok_iff.1 hlist
      exact ⟨.reach, place, hplace⟩

/-- Only a path that begins at the root leads anywhere once it is folded. -/
theorem rooted_of_start_absolutize {disk : Disk} {path : Path} {here : Place}
    (h : disk.start (disk.absolutize path) = .ok here) : (disk.absolutize path).rooted = true := by
  unfold Disk.absolutize Path.absolutize at h ⊢
  cases habsolute : Path.absolute? disk.workingPath? path with
  | some absolute =>
      have hrooted := Path.rooted_of_absolute? habsolute
      exact hrooted
  | none =>
      rw [habsolute, Option.getD_none] at h
      rcases Path.absolute?_eq_none_iff.1 habsolute with rfl | ⟨hrooted, hnone⟩
      · have hbytes : Path.empty.fold.bytes = [] := rfl
        simp [Disk.start, hbytes] at h
      · have hfold : path.fold.rooted = false := hrooted
        have hworking : disk.hasWorking = false := by
          simpa [Disk.workingPath?] using hnone
        simp only [Disk.start, hfold, hworking] at h
        grind

theorem Disk.Under.rooted {disk : Disk} {path : Path} {below : Place} {entry : Entry}
    (h : disk.Under path below entry) : entry.path.rooted = path.rooted := by
  induction h with
  | entry => rfl
  | inner _ _ ih => exact ih

/-- The paths of scanned directories begin at the root of the disk. -/
theorem Disk.Scanned.rooted {disk : Disk} {root directory : Path}
    (h : disk.Scanned (disk.absolutize root) directory) : directory.rooted = true := by
  obtain ⟨purpose, place, hplace⟩ := h.resolve
  obtain ⟨here, left, hstart, -⟩ := resolve_eq_ok_iff.1 hplace
  have hroot := rooted_of_start_absolutize hstart
  cases h with
  | root => exact hroot
  | below hunder => exact hunder.rooted.trans hroot

theorem mem_visit_snapshot {observer : Observer} {entry : Entry} {collection : Collection}
    {directory : Path} :
    directory ∈ ((snapshotVisitor observer).visit entry collection).1.directories ↔
      directory ∈ collection.directories ∨ entry.kind = .directory ∧ directory = entry.path := by
  simp only [snapshotVisitor]
  split <;> simp_all [or_comm]

@[simp] theorem progress_visit_snapshot (observer : Observer) (entry : Entry)
    (collection : Collection) :
    ((snapshotVisitor observer).visit entry collection).1.progress = collection.progress := by
  simp only [snapshotVisitor]
  split <;> rfl

@[simp] theorem unlisted_visit_snapshot (observer : Observer) (entry : Entry)
    (collection : Collection) :
    ((snapshotVisitor observer).visit entry collection).1.unlisted = collection.unlisted := by
  simp only [snapshotVisitor]
  split <;> rfl

/-- Only directories at or below the root are scanned. -/
theorem scanned_of_mem_snapshot {root directory : Path} {progress : Progress}
    (h : directory ∈ (snapshot .idle root progress).2) : progress.disk.Scanned root directory := by
  have hkept : ((snapshotVisitor .idle).run root true ⟨progress, [], []⟩).progress.disk =
        progress.disk ∧
      ∀ other ∈ ((snapshotVisitor .idle).run root true ⟨progress, [], []⟩).directories,
        progress.disk.Scanned root other := by
    refine Visitor.run_keeps_under progress.disk
      (fun collection : Collection => collection.progress.disk = progress.disk ∧
        ∀ other ∈ collection.directories, progress.disk.Scanned root other)
      (fun entry => entry.kind = .directory → progress.disk.Scanned root entry.path)
      ?_ ?_ ?_ root true _ ?_ ?_ ⟨rfl, by simp⟩
    · rintro collection path ⟨hdisk, -⟩ entry hentry
      exact hdisk ▸ hentry
    · rintro entry collection hentry ⟨hdisk, hdirectories⟩
      refine ⟨by simpa using hdisk, fun other hother => ?_⟩
      rcases mem_visit_snapshot.1 hother with hbefore | ⟨hkind, rfl⟩
      · exact hdirectories other hbefore
      · exact hentry hkind
    · exact fun _ _ _ _ _ _ h => h
    · rintro ⟨path, below, kind⟩ hunder rfl
      exact .below hunder
    · rintro - kind hkind rfl
      exact .root hkind
  simp only [snapshot, List.mem_filter, List.mem_reverse] at h
  exact hkept.2 directory h.1

/-- What a snapshot sets apart cannot be listed. -/
theorem unlisted_of_mem_snapshot (root : Path) (progress : Progress) :
    ∀ directory ∈ ((snapshotVisitor .idle).run root true ⟨progress, [], []⟩).unlisted,
      progress.disk.Unlisted directory := by
  refine (Visitor.run_keeps_under progress.disk
    (fun collection : Collection => collection.progress.disk = progress.disk ∧
      ∀ other ∈ collection.unlisted, progress.disk.Unlisted other)
    (fun _ => True) ?_ ?_ ?_ root true _ (fun _ _ => trivial) (fun _ _ _ => trivial)
    ⟨rfl, by simp⟩).2
  · rintro collection path ⟨hdisk, -⟩ entry hentry
    exact hdisk ▸ hentry
  · rintro entry collection - hkept
    simpa using hkept
  · rintro path fault earlier collection ⟨hearlier, -⟩ hpath ⟨hdisk, hothers⟩
    refine ⟨hdisk, fun other hother => ?_⟩
    rcases List.mem_cons.1 hother with rfl | hbefore
    · exact hearlier ▸ hpath
    · exact hothers other hbefore

/-- A directory at or below the root is scanned if it can be listed. -/
theorem mem_snapshot_of_scanned {root directory : Path} (progress : Progress) {listing : Listing}
    (h : progress.disk.Scanned root directory)
    (hlist : progress.disk.list directory = .ok listing) :
    directory ∈ (snapshot .idle root progress).2 := by
  have hcollected : directory ∈
      ((snapshotVisitor .idle).run root true ⟨progress, [], []⟩).directories := by
    cases h with
    | root hkind =>
        have hstart : root ∈ ((snapshotVisitor .idle).visit ⟨root, [], .directory⟩
            ⟨progress, [], []⟩).1.directories := mem_visit_snapshot.2 (Or.inr ⟨rfl, rfl⟩)
        unfold Visitor.run
        simp only [snapshotVisitor, hkind, Visitor.visitDirectory, hlist] at hstart ⊢
        refine Visitor.visitListing_keeps (fun collection : Collection =>
          root ∈ collection.directories) ?_ (fun _ _ _ h => h) _ _ _ _ hstart
        exact fun entry collection h => mem_visit_snapshot.2 (Or.inl h)
    | @below directory below hunder =>
        have hstill : (snapshotVisitor .idle).Still progress.disk
            fun collection : Collection => collection.progress.disk = progress.disk :=
          ⟨fun _ h => h, fun _ _ h => by simpa using h, fun _ _ _ h => h, fun _ _ => rfl⟩
        refine Visitor.run_marks (fun entry collection =>
          entry.kind = .directory → entry.path ∈ collection.directories) hstill ?_ ?_
          (fun _ _ _ _ h => h) root true ⟨progress, [], []⟩ rfl hunder rfl
        · exact fun entry collection hkind => mem_visit_snapshot.2 (Or.inr ⟨hkind, rfl⟩)
        · exact fun entry other collection h hkind => mem_visit_snapshot.2 (Or.inl (h hkind))
  simp only [snapshot, List.mem_filter, List.mem_reverse, decide_not, Bool.not_eq_true',
    decide_eq_false_iff_not]
  exact ⟨hcollected, fun hmem =>
    unlisted_of_mem_snapshot root progress directory hmem listing hlist⟩

/-- The directories that a scan collects at and below a root. -/
def Disk.collected (disk : Disk) (root : Path) : List Path :=
  (snapshot .idle root ⟨disk, [], []⟩).2

/-- What has been told before does not matter for what is collected. -/
theorem snapshot_eq_collected (root : Path) (progress : Progress) :
    (snapshot .idle root progress).2 = progress.disk.collected root := by
  have halike : ∀ s t : Collection, t.progress.disk = s.progress.disk ∧
      t.directories = s.directories ∧ t.unlisted = s.unlisted →
      ((snapshotVisitor .idle).run root true t).directories =
          ((snapshotVisitor .idle).run root true s).directories ∧
        ((snapshotVisitor .idle).run root true t).unlisted =
          ((snapshotVisitor .idle).run root true s).unlisted := by
    intro s t h
    refine (Visitor.run_alike (fun s t : Collection => t.progress.disk = s.progress.disk ∧
      t.directories = s.directories ∧ t.unlisted = s.unlisted) ?_ ?_ ?_ root true s t h).2
    · exact fun s t h => h.1
    · rintro entry s t ⟨hdisk, hdirectories, hunlisted⟩
      simp only [snapshotVisitor]
      split <;> simp [hdisk, hdirectories, hunlisted]
    · rintro path fault s t ⟨hdisk, hdirectories, hunlisted⟩
      exact ⟨hdisk, hdirectories, congrArg (path :: ·) hunlisted⟩
  obtain ⟨hdirectories, hunlisted⟩ :=
    halike ⟨⟨progress.disk, [], []⟩, [], []⟩ ⟨progress, [], []⟩ ⟨rfl, rfl, rfl⟩
  simp only [Disk.collected, snapshot, hdirectories, hunlisted]

/-- A scan tells remarks while it collects directories, and then applies the rules in them. -/
theorem scan_eq (disk : Disk) (root : Path) (rules : List Rule) :
    ∃ remarks, (∀ event ∈ remarks, event.isRemark = true) ∧ ∀ mode, ∃ last,
      applyAll .idle mode (disk.collected (disk.absolutize root)) rules ⟨disk, remarks, []⟩ = last ∧
      scan .idle mode disk root rules =
        ⟨last.disk, last.trace.reverse ++ [.finished (disk.absolutize root) last.found.length],
          last.found.reverse⟩ := by
  have hcollects : ∃ remarks, (∀ event ∈ remarks, event.isRemark = true) ∧
      (snapshot .idle (disk.absolutize root)
        ⟨disk, [.started (disk.absolutize root) rules.length], []⟩).1 = ⟨disk, remarks, []⟩ := by
    refine Visitor.run_keeps (fun collection : Collection =>
      ∃ remarks, (∀ event ∈ remarks, event.isRemark = true) ∧
        collection.progress = ⟨disk, remarks, []⟩) ?_ ?_ _ true _ ?_
    · rintro entry collection ⟨remarks, hremarks, hprogress⟩
      exact ⟨remarks, hremarks, by simpa using hprogress⟩
    · rintro path fault collection ⟨remarks, hremarks, hprogress⟩
      refine ⟨.failed .traversal path (.walking path fault) :: remarks, ?_, ?_⟩
      · simpa [Event.isRemark] using hremarks
      · simp [snapshotVisitor, Progress.tell, Observer.idle, hprogress]
    · exact ⟨_, by simp [Event.isRemark], rfl⟩
  obtain ⟨remarks, hremarks, hprogress⟩ := hcollects
  have hdirectories := snapshot_eq_collected (disk.absolutize root)
    ⟨disk, [.started (disk.absolutize root) rules.length], []⟩
  refine ⟨remarks, hremarks, fun mode => ⟨_, rfl, ?_⟩⟩
  simp only [scan, Progress.tell, Observer.idle, hprogress, hdirectories, List.reverse_cons]

/-! ## What is kept -/

/-- What is kept by remarks holds after some of them. -/
theorem keeps_of_remarks (keeps : Progress → Prop)
    (htell : ∀ progress event, event.isRemark = true → keeps progress →
      keeps (progress.tell .idle event))
    {disk : Disk} {remarks : List Event} (h : keeps ⟨disk, [], []⟩)
    (hremarks : ∀ event ∈ remarks, event.isRemark = true) : keeps ⟨disk, remarks, []⟩ := by
  induction remarks with
  | nil => exact h
  | cons event remarks ih =>
      have hbefore := ih fun other hother => hremarks other (List.mem_cons_of_mem _ hother)
      exact htell _ event (hremarks event List.mem_cons_self) hbefore

section Keeps

variable (disk : Disk) (mode : Mode) (keeps : Progress → Prop) (p : Path → Kind → Prop)
  (htake : ∀ progress path kind, p path kind → Pruned disk progress.disk → keeps progress →
    keeps (progress.take .idle mode path (kind = .directory)).1)

include htake

/-- What is kept by taking what a target names, applying the target keeps. -/
theorem takeTargets_keeps (target : Glob) (directory : Path) (progress : Progress)
    (hnamed : ∀ path kind, disk.Named target directory path kind → p path kind)
    (hpruned : Pruned disk progress.disk) (h : keeps progress) :
    Pruned disk (takeTargets .idle mode target directory progress).disk ∧
      keeps (takeTargets .idle mode target directory progress) := by
  have hstep : ∀ progress path kind, disk.Named target directory path kind →
      Pruned disk progress.disk ∧ keeps progress →
        Pruned disk (progress.take .idle mode path (kind = .directory)).1.disk ∧
          keeps (progress.take .idle mode path (kind = .directory)).1 := by
    rintro progress path kind hpath ⟨hpruned, hkept⟩
    obtain ⟨steps, name, hsteps⟩ := hpath.steps
    have htaken := progress.take_prunedWithin hsteps mode (kind = .directory)
    exact ⟨hpruned.trans htaken.pruned,
      htake progress path kind (hnamed path kind hpath) hpruned hkept⟩
  unfold takeTargets
  split
  · rename_i hrecursive
    refine Visitor.run_keeps_under disk
      (fun progress : Progress => Pruned disk progress.disk ∧ keeps progress)
      (disk.Under directory []) ?_ ?_ ?_ directory false progress (fun _ h => h) (by simp)
      ⟨hpruned, h⟩
    · exact fun progress path hkept entry hentry => hkept.1.mem_entries hentry
    · intro entry progress hentry hkept
      simp only [targetVisitor]
      split
      · rename_i haccepts
        exact hstep progress entry.path entry.kind (.below hrecursive hentry haccepts) hkept
      · exact hkept
    · exact fun _ _ _ _ _ _ hkept => hkept
  · rename_i hplain
    unfold takeEntries
    -- the listing is that of the disk as it was before the first of these matches
    refine List.foldlRecOn
      (motive := fun progress : Progress => Pruned disk progress.disk ∧ keeps progress)
      (progress.disk.entries directory) _ ⟨hpruned, h⟩ fun later hkept entry hentry => ?_
    split
    · rename_i haccepts
      have hlisted := hpruned.mem_entries hentry
      exact hstep later _ entry.2 (.entry (by simpa using hplain) hlisted haccepts) hkept
    · exact hkept

variable (htell : ∀ progress event, event.isRemark = true → keeps progress →
  keeps (progress.tell .idle event))

include htell

/-- What is kept by remarks and by taking what a rule names, applying the rule keeps. -/
theorem applyIn_keeps (rule : Rule) (directory : Path) (progress : Progress)
    (hnamed : applies progress.disk directory rule.condition = true →
      ∀ path kind, disk.Named rule.target directory path kind → p path kind)
    (hpruned : Pruned disk progress.disk) (h : keeps progress) :
    Pruned disk (applyIn .idle mode rule progress directory).disk ∧
      keeps (applyIn .idle mode rule progress directory) := by
  have hentered := htell progress (.entered directory) rfl h
  unfold applyIn
  simp only
  split
  · rename_i happlies
    exact takeTargets_keeps disk mode keeps p htake rule.target directory _ (hnamed happlies) hpruned
      hentered
  · exact ⟨hpruned, hentered⟩

theorem applyAll_keeps (directories : List Path) (rules : List Rule) (progress : Progress)
    (hnamed : ∀ rule ∈ rules, ∀ directory ∈ directories,
      ∀ progress : Progress, Pruned disk progress.disk → keeps progress →
        applies progress.disk directory rule.condition = true →
          ∀ path kind, disk.Named rule.target directory path kind → p path kind)
    (hpruned : Pruned disk progress.disk) (h : keeps progress) :
    Pruned disk (applyAll .idle mode directories rules progress).disk ∧
      keeps (applyAll .idle mode directories rules progress) := by
  unfold applyAll
  refine List.foldlRecOn
    (motive := fun progress : Progress => Pruned disk progress.disk ∧ keeps progress) rules _
    ⟨hpruned, h⟩ fun before hbefore rule hrule => ?_
  refine List.foldlRecOn
    (motive := fun progress : Progress => Pruned disk progress.disk ∧ keeps progress) directories _
    hbefore fun here hhere directory hdirectory => ?_
  exact applyIn_keeps disk mode keeps p htake htell rule directory here
    (hnamed rule hrule directory hdirectory here hhere.1 hhere.2) hhere.1 hhere.2

/-- What is kept by remarks and by taking what the rules name, a scan keeps. -/
theorem scan_keeps (root : Path) (rules : List Rule)
    (hnamed : ∀ rule ∈ rules, ∀ directory, disk.Scanned (disk.absolutize root) directory →
      ∀ progress : Progress, Pruned disk progress.disk → keeps progress →
        applies progress.disk directory rule.condition = true →
          ∀ path kind, disk.Named rule.target directory path kind → p path kind)
    (h : keeps ⟨disk, [], []⟩) :
    ∃ progress : Progress, keeps progress ∧
      scan .idle mode disk root rules =
        ⟨progress.disk, progress.trace.reverse, progress.found.reverse⟩ := by
  obtain ⟨remarks, hremarks, hmodes⟩ := scan_eq disk root rules
  obtain ⟨last, hlast, hscan⟩ := hmodes mode
  have hready := keeps_of_remarks keeps htell h hremarks
  have happlied := applyAll_keeps disk mode keeps p htake htell
    (disk.collected (disk.absolutize root)) rules _
    (fun rule hrule directory hdirectory =>
      hnamed rule hrule directory (scanned_of_mem_snapshot hdirectory))
    (.refl _ _) hready
  rw [hlast] at happlied
  refine ⟨last.tell .idle (.finished (disk.absolutize root) last.found.length),
    htell _ _ rfl happlied.2, ?_⟩
  simp [hscan, Progress.tell, Observer.idle]

end Keeps

/-- Applying rules prunes the disk. -/
theorem applyAll_pruned (mode : Mode) (directories : List Path) (rules : List Rule)
    (progress : Progress) :
    Pruned progress.disk (applyAll .idle mode directories rules progress).disk :=
  (applyAll_keeps progress.disk mode (fun _ => True) (fun _ _ => True)
    (fun _ _ _ _ _ _ => trivial) (fun _ _ _ _ => trivial) directories rules progress
    (fun _ _ _ _ _ _ _ _ _ _ _ => trivial) (.refl _ _) trivial).1

theorem applyIn_pruned (mode : Mode) (rule : Rule) (directory : Path) (progress : Progress) :
    Pruned progress.disk (applyIn .idle mode rule progress directory).disk :=
  applyAll_pruned mode [directory] [rule] progress

/-! ## Matches in events and reports -/

theorem foundBy_of_isRemark {event : Event} (h : event.isRemark = true) :
    Report.foundBy event = [] := by
  cases event <;> simp_all [Event.isRemark, Report.foundBy]

theorem foundBy_tidings (path : Path) (isDirectory : Bool) (fault : Option Fault) :
    (tidings path isDirectory fault).flatMap Report.foundBy = [] := by
  cases fault with
  | none => rfl
  | some fault => cases fault <;> rfl

/-- The matches that a scan tells are those that it finds. -/
theorem foundBy_scan (mode : Mode) (disk : Disk) (root : Path) (rules : List Rule) :
    (scan .idle mode disk root rules).events.flatMap Report.foundBy =
      (scan .idle mode disk root rules).found := by
  obtain ⟨progress, hkept, hscan⟩ := scan_keeps disk mode
    (fun progress => progress.trace.flatMap Report.foundBy = progress.found) (fun _ _ => True)
    (fun progress path kind _ _ hkept => by
      cases mode with
      | dry => simpa [Progress.take_dry, Report.foundBy] using hkept
      | live => simpa [Progress.take_live, foundBy_tidings, Report.foundBy] using hkept)
    (fun progress event hremark hkept => by
      simpa [Progress.tell, foundBy_of_isRemark hremark] using hkept)
    root rules (fun _ _ _ _ _ _ _ _ _ _ _ => trivial) rfl
  have hsingle : ∀ event, (Report.foundBy event).reverse = Report.foundBy event := by
    intro event
    cases event <;> rfl
  rw [hscan]
  simp only [← hkept, List.reverse_flatMap, Function.comp_def, hsingle]

theorem paths_foldl_record (home : Option Path) (events : List Event) (report : Report) :
    (events.foldl (Report.record home) report).paths =
      report.paths ++ events.flatMap Report.foundBy := by
  induction events generalizing report with
  | nil => simp
  | cons event rest ih =>
      rw [List.foldl_cons, ih, Report.paths_record, List.flatMap_cons, List.append_assoc]

/-- The report of a scan lists its matches. -/
theorem paths_ofEvents_scan (home : Option Path) (dryRun : Bool) (mode : Mode) (disk : Disk)
    (root : Path) (rules : List Rule) :
    (Report.ofEvents home dryRun (scan .idle mode disk root rules).events).paths =
      (scan .idle mode disk root rules).found := by
  rw [Report.ofEvents, paths_foldl_record, foundBy_scan]
  rfl

end Sweep
