import Sweep.Disk.Change
import Sweep.Scan.Event
import Sweep.Search
/-!
# Scanning a directory tree

A scan applies rules below a root. First the directories at and below the root that can be listed
are collected, once and for all. Then each rule in turn is applied in each of these directories: if
its condition holds there, the paths that its target names are *found*, and in a live scan each of
them is removed before the next one is looked for.

A target without `**` names entries of the directory, by their names. One with `**` names whatever
is below it, by the relative path; what is below a removed directory is not looked for.

Others may change the disk meanwhile. They act when an event is told: an *observer* says what the
disk is after an event, knowing all events before it. `Observer.idle` leaves the disk alone.

## Main results

* `snapshot_idle_disk` — collecting the directories leaves the disk alone, unless others act.
-/

namespace Sweep

open Disk

/-- What others do to the disk when an event is told. The earlier events are given, last one
first. -/
abbrev Observer := Event → List Event → Disk → Disk

/-- Nobody else acts. -/
def Observer.idle : Observer :=
  fun _ _ disk => disk

/-- Whether matches are removed. -/
inductive Mode where
  /-- Matches are only found. -/
  | dry
  /-- Matches are removed. -/
  | live
deriving DecidableEq, Repr

/-- How far a scan has come. -/
structure Progress where
  disk : Disk
  /-- The events told, last one first. -/
  trace : List Event
  /-- The matches found, last one first. -/
  found : List Path

namespace Progress

/-- Tells an event, upon which others may act. -/
def tell (observer : Observer) (event : Event) (progress : Progress) : Progress :=
  { progress with
    disk := observer event progress.trace progress.disk
    trace := event :: progress.trace }

/-- Removes a match. Says whether it is gone, be it that it was gone before. -/
def removeMatch (observer : Observer) (path : Path) (isDirectory : Bool) (progress : Progress) :
    Progress × Bool :=
  let (disk, fault) :=
    if isDirectory then progress.disk.removeDirectory .user path
    else progress.disk.removeFile .user path
  let progress := { progress with disk := disk }
  match fault with
  | none => (progress.tell observer (.deleted path isDirectory), true)
  | some .notFound => (progress, true)
  | some fault => (progress.tell observer (.failed .deletion path (.plain fault)), false)

/-- Reports a match and, in a live scan, removes it. Says whether it is gone. -/
def take (observer : Observer) (mode : Mode) (path : Path) (isDirectory : Bool)
    (progress : Progress) : Progress × Bool :=
  let progress := progress.tell observer (.found path)
  let (progress, gone) := match mode with
    | .dry => (progress, false)
    | .live => progress.removeMatch observer path isDirectory
  ({ progress with found := path :: progress.found }, gone)

end Progress

/-! ## Which directories are scanned -/

/-- What has been collected so far. -/
structure Collection where
  progress : Progress
  /-- The directories seen, last one first. -/
  directories : List Path
  /-- Those of them that could not be listed. -/
  unlisted : List Path

/-- Collects directories on a walk, and tells what could not be walked. -/
def snapshotVisitor (observer : Observer) : Visitor Collection where
  disk := fun collection => collection.progress.disk
  visit := fun entry collection =>
    (if entry.kind = .directory then
      { collection with directories := entry.path :: collection.directories }
    else collection, true)
  fail := fun path fault collection =>
    { collection with
      progress := collection.progress.tell observer
        (.failed .traversal path (.walking path fault))
      unlisted := path :: collection.unlisted }

/-- The directories at and below the root that can be listed, each before those below it. -/
def snapshot (observer : Observer) (root : Path) (progress : Progress) : Progress × List Path :=
  let collection := (snapshotVisitor observer).run root true ⟨progress, [], []⟩
  (collection.progress, collection.directories.reverse.filter (· ∉ collection.unlisted))

/-- Collecting the directories leaves the disk alone, unless others act. -/
theorem snapshot_idle_disk (root : Path) (progress : Progress) :
    (snapshot .idle root progress).1.disk = progress.disk :=
  Visitor.run_keeps (fun collection : Collection => collection.progress.disk = progress.disk)
    (fun _ _ h => by simp only [snapshotVisitor]; split <;> exact h)
    (fun _ _ _ h => h) root true ⟨progress, [], []⟩ rfl

/-! ## What a target names -/

/-- Names joined by slashes, as text. -/
def slashed (names : Place) : String :=
  joinTexts "/" (names.map (·.text))

/-- Takes what matches the target on a walk, and leaves out what is below a removed directory. -/
def targetVisitor (observer : Observer) (mode : Mode) (target : Glob) : Visitor Progress where
  disk := fun progress => progress.disk
  visit := fun entry progress =>
    if target.accepts (slashed entry.below) then
      let isDirectory := entry.kind = .directory
      let (progress, gone) := progress.take observer mode entry.path isDirectory
      (progress, !(gone && isDirectory))
    else (progress, true)
  fail := fun _ _ progress => progress

/-- Takes what matches the target below a directory, at any depth. -/
def takeBelow (observer : Observer) (mode : Mode) (target : Glob) (directory : Path)
    (progress : Progress) : Progress :=
  (targetVisitor observer mode target).run directory false progress

/-- Takes what matches the target in a directory. -/
def takeEntries (observer : Observer) (mode : Mode) (target : Glob) (directory : Path)
    (progress : Progress) : Progress :=
  (progress.disk.entries directory).foldl (fun progress entry =>
    if target.accepts entry.1.text then
      (progress.take observer mode (directory.child entry.1.bytes) (entry.2 = .directory)).1
    else progress) progress

/-- Takes what a target names in a directory. -/
def takeTargets (observer : Observer) (mode : Mode) (target : Glob) (directory : Path)
    (progress : Progress) : Progress :=
  if target.isRecursive then takeBelow observer mode target directory progress
  else takeEntries observer mode target directory progress

/-! ## The scan -/

/-- Applies a rule in a directory. -/
def applyIn (observer : Observer) (mode : Mode) (rule : Rule) (progress : Progress)
    (directory : Path) : Progress :=
  let progress := progress.tell observer (.entered directory)
  if applies progress.disk directory rule.condition then
    match rule.action with
    | .delete => takeTargets observer mode rule.target directory progress
  else progress

/-- Applies rules in directories, rule by rule. -/
def applyAll (observer : Observer) (mode : Mode) (directories : List Path) (rules : List Rule)
    (progress : Progress) : Progress :=
  rules.foldl (fun progress rule =>
    directories.foldl (applyIn observer mode rule) progress) progress

/-- What a scan comes to. -/
structure Outcome where
  disk : Disk
  /-- The events in order. -/
  events : List Event
  /-- The matches in the order in which they were found. -/
  found : List Path

/-- Scans the tree at a root. -/
def scan (observer : Observer) (mode : Mode) (disk : Disk) (root : Path) (rules : List Rule) :
    Outcome :=
  let root := disk.absolutize root
  let progress : Progress := ⟨disk, [], []⟩
  let progress := progress.tell observer (.started root rules.length)
  let (progress, directories) := snapshot observer root progress
  let progress := applyAll observer mode directories rules progress
  let progress := progress.tell observer (.finished root progress.found.length)
  ⟨progress.disk, progress.trace.reverse, progress.found.reverse⟩

end Sweep
