import Mathlib
import Sweep.Proofs.Disk.Spelled
import Sweep.Proofs.Scan.Steps
/-!
# The extent of a live scan

Where no symbolic link is on the way to the root, a live scan removes only what it reports, and only
below the root. It looks for matches along straight paths, so a match lies where its path says; a
link that it comes upon is removed itself and never followed.

`Extent` is what holds after each step, also after removals that fail or stop half way: the disk has
been pruned within the matches, and what was told to be removed is gone. Hence nothing is told to be
removed twice, nor after something above it.

## Main results

* `Extent.take` — removing one more match keeps the invariant.
* `scan_live_extent` — the law of a whole scan.
-/

namespace Sweep

open Disk

/-! ## Where matches lie -/

theorem contains_pathOf_iff {a b : Place} : (pathOf a).Contains (pathOf b) ↔ a <+: b :=
  ⟨fun h => map_bytes_prefix_iff.1 h.2, fun h => ⟨rfl, map_bytes_prefix_iff.2 h⟩⟩

/-- A path names an entry of a directory at or below a root, and leads there without a link. -/
def Disk.Inside (disk : Disk) (root path : Path) : Prop :=
  ∃ place name, path = pathOf (place ++ [name]) ∧ disk.Straight (pathOf place) ∧
    root.Contains (pathOf place)

/-- A path inside a root is below it. -/
theorem Disk.Inside.below {disk : Disk} {root path : Path} (h : disk.Inside root path) :
    root.Contains path ∧ root ≠ path := by
  obtain ⟨place, name, rfl, -, hroot⟩ := h
  refine ⟨hroot.trans (contains_pathOf_iff.2 (List.prefix_append place [name])), fun heq => ?_⟩
  rw [heq, contains_pathOf_iff] at hroot
  have hlength := hroot.length_le
  rw [List.length_append, List.length_singleton] at hlength
  omega

/-- What lies below a straight path is reached along straight paths. -/
theorem Disk.Under.straight {disk : Disk} {place : Place} {below : Place} {entry : Entry}
    (hstraight : disk.Straight (pathOf place)) (h : disk.Under (pathOf place) below entry) :
    disk.Inside (pathOf place) entry.path ∧
      (entry.kind = .directory → ∃ inner, entry.path = pathOf inner ∧ place <+: inner ∧
        disk.Straight (pathOf inner)) := by
  generalize hpath : pathOf place = path at h
  induction h generalizing place with
  | @entry path below name kind hlisted =>
      subst hpath
      obtain ⟨node, hnode, rfl⟩ := mem_entries_pathOf hstraight hlisted
      refine ⟨⟨place, name, pathOf_child place name, hstraight, .refl _⟩, fun hkind => ?_⟩
      refine ⟨place ++ [name], pathOf_child place name, List.prefix_append place [name],
        straight_of_concat hstraight fun target htarget => ?_⟩
      rw [hnode, Option.some.injEq] at htarget
      simp [htarget, Node.kind] at hkind
  | @inner path below name entry hlisted _ ih =>
      subst hpath
      obtain ⟨node, hnode, hkind⟩ := mem_entries_pathOf hstraight hlisted
      have hinner : disk.Straight (pathOf (place ++ [name])) := by
        refine straight_of_concat hstraight fun target htarget => ?_
        rw [hnode, Option.some.injEq] at htarget
        simp [htarget, Node.kind] at hkind
      have hprefix : place <+: place ++ [name] := List.prefix_append place [name]
      obtain ⟨⟨holder, last, hentry, hholder, hcontains⟩, hdirectory⟩ :=
        ih hinner (pathOf_child place name).symm
      rw [pathOf_child] at hcontains
      refine ⟨⟨holder, last, hentry, hholder, (contains_pathOf_iff.2 hprefix).trans hcontains⟩,
        fun hkind => ?_⟩
      obtain ⟨further, hfurther, hbelow, hstill⟩ := hdirectory hkind
      exact ⟨further, hfurther, hprefix.trans hbelow, hstill⟩

/-- What can be looked up at a straight root is at the place that the root spells. -/
theorem pathOf_of_resolve_absolutize {disk : Disk} {actor : Actor} {purpose : Purpose} {root : Path}
    {place : Place} (hstraight : disk.Straight (disk.absolutize root))
    (h : disk.resolve actor purpose (disk.absolutize root) = .ok place) :
    disk.absolutize root = pathOf place := by
  obtain ⟨here, left, hstart, -⟩ := resolve_eq_ok_iff.1 h
  exact pathOf_of_resolve (Path.isFolded_fold _) (rooted_of_start_absolutize hstart) hstraight h

/-- A directory that is scanned is at or below the root, and its path is straight. -/
theorem Disk.Scanned.straight {disk : Disk} {root directory : Path}
    (hstraight : disk.Straight (disk.absolutize root))
    (h : disk.Scanned (disk.absolutize root) directory) :
    ∃ place, directory = pathOf place ∧ disk.Straight (pathOf place) ∧
      (disk.absolutize root).Contains (pathOf place) := by
  obtain ⟨purpose, place, hplace⟩ := h.resolve
  have hpath := pathOf_of_resolve_absolutize hstraight hplace
  rw [hpath] at h hstraight ⊢
  cases h with
  | root => exact ⟨place, rfl, hstraight, .refl _⟩
  | below hunder =>
      obtain ⟨inner, hinner, hprefix, hstill⟩ := (hunder.straight hstraight).2 rfl
      exact ⟨inner, hinner, hstill, contains_pathOf_iff.2 hprefix⟩

/-- What a target names in a scanned directory is inside the root. -/
theorem Disk.Named.inside {disk : Disk} {root directory path : Path} {target : Glob} {kind : Kind}
    (hstraight : disk.Straight (disk.absolutize root))
    (hdirectory : disk.Scanned (disk.absolutize root) directory)
    (h : disk.Named target directory path kind) : disk.Inside (disk.absolutize root) path := by
  obtain ⟨place, rfl, hplace, hroot⟩ := hdirectory.straight hstraight
  cases h with
  | @entry name _ _ _ _ => exact ⟨place, name, pathOf_child place name, hplace, hroot⟩
  | below _ hunder _ =>
      obtain ⟨holder, name, hpath, hholder, hcontains⟩ := (hunder.straight hplace).1
      exact ⟨holder, name, hpath, hholder, hroot.trans hcontains⟩

/-! ## The invariant -/

/-- The path that an event tells to be removed. -/
def Event.deletion? : Event → Option Path
  | .deleted path _ => some path
  | _ => none

/-- A path leads to a place at which there is nothing. -/
def Disk.Void (disk : Disk) (path : Path) : Prop :=
  ∃ place, path = pathOf place ∧ disk.at? place = none

theorem Disk.Void.of_prunedWithin {p : Place → Prop} {old new : Disk} {path : Path}
    (hpruned : PrunedWithin p old new) (h : old.Void path) : new.Void path := by
  obtain ⟨place, hpath, hnone⟩ := h
  exact ⟨place, hpath, hpruned.root.at?_eq_none hnone⟩

/-- How far a live scan of a disk below a root has gone. -/
structure Extent (disk : Disk) (root : Path) (progress : Progress) : Prop where
  /-- Nothing has changed but within the matches. -/
  pruned : PrunedWithin (fun place => ∃ path ∈ progress.found, path.Contains (pathOf place)) disk
    progress.disk
  /-- All matches are below the root. -/
  inside : ∀ path ∈ progress.found, root.Contains path ∧ root ≠ path
  /-- A match whose removal did not fail is gone. -/
  gone : ∀ path ∈ progress.found, (∀ trouble, .failed .deletion path trouble ∉ progress.trace) →
    progress.disk.Void path
  /-- What was told to be removed is gone. -/
  deleted : ∀ path ∈ progress.trace.filterMap Event.deletion?, progress.disk.Void path
  /-- Nothing was told to be removed after something that contains it. -/
  ordered : (progress.trace.filterMap Event.deletion?).Pairwise
    fun later earlier => ¬ earlier.Contains later

namespace Extent

variable {disk : Disk} {root : Path} {progress : Progress}

theorem start (disk : Disk) (root : Path) : Extent disk root ⟨disk, [], []⟩ :=
  ⟨.refl _ _, by simp, by simp, by simp, .nil⟩

theorem tell (h : Extent disk root progress) {event : Event} (hremark : event.isRemark = true) :
    Extent disk root (progress.tell .idle event) := by
  have hdeletion : event.deletion? = none := by
    cases event <;> simp_all [Event.isRemark, Event.deletion?]
  have htrace : (event :: progress.trace).filterMap Event.deletion? =
      progress.trace.filterMap Event.deletion? := List.filterMap_cons_none hdeletion
  refine ⟨h.pruned, h.inside, fun path hpath hsound => ?_, ?_, ?_⟩
  · exact h.gone path hpath fun trouble hfailed => hsound trouble (List.mem_cons_of_mem _ hfailed)
  · exact fun path hpath => h.deleted path (htrace ▸ hpath)
  · exact htrace ▸ h.ordered

theorem deletion?_tidings (path : Path) (isDirectory : Bool) (fault : Option Fault)
    (earlier : List Event) :
    (tidings path isDirectory fault ++ .found path :: earlier).filterMap Event.deletion? =
      (if fault = none then [path] else []) ++ earlier.filterMap Event.deletion? := by
  cases fault with
  | none => rfl
  | some fault => cases fault <;> rfl

/-- Without news of a failure a removal has succeeded, or its match was not there. -/
theorem of_tidings {path : Path} {isDirectory : Bool} {fault : Option Fault}
    (h : ∀ trouble, .failed .deletion path trouble ∉ tidings path isDirectory fault) :
    fault = none ∨ fault = some .notFound := by
  cases fault with
  | none => exact Or.inl rfl
  | some fault =>
      by_cases hfault : fault = .notFound
      · exact Or.inr (congrArg some hfault)
      · exact absurd (by simp [tidings]) (h (.plain fault))

/-- Removing one more match keeps the invariant, however the removal goes. -/
theorem take (h : Extent disk root progress) {path : Path} (hpath : disk.Inside root path)
    (isDirectory : Bool) :
    Extent disk root (progress.take .idle .live path isDirectory).1 := by
  obtain ⟨hroot, hne⟩ := hpath.below
  obtain ⟨place, name, rfl, hstraight, -⟩ := hpath
  have hnow : progress.disk.Straight (pathOf place) := h.pruned.straight hstraight
  have hwithin := progress.take_prunedWithin (steps_pathOf_concat place name) .live isDirectory
  have htells : TellsOf (place ++ [name]) progress.disk
      (progress.disk.removeMatch (pathOf (place ++ [name])) isDirectory).1
      (progress.disk.removeMatch (pathOf (place ++ [name])) isDirectory).2 := by
    unfold Disk.removeMatch
    split
    · exact removeDirectory_tells hnow rfl
    · exact removeFile_tells hnow rfl
  rw [Progress.take_live] at hwithin ⊢
  generalize progress.disk.removeMatch (pathOf (place ++ [name])) isDirectory = removed
    at hwithin htells ⊢
  obtain ⟨after, fault⟩ := removed
  simp only at hwithin htells ⊢
  have hcontains : ∀ q, progress.disk.Covers (pathOf (place ++ [name])) q →
      (pathOf (place ++ [name])).Contains (pathOf q) := by
    rintro q ⟨entry, hentry, hprefix⟩
    rw [resolve_look_pathOf hnow hentry] at hprefix
    exact contains_pathOf_iff.2 hprefix
  refine ⟨?_, ?_, ?_, ?_, ?_⟩
  · refine (h.pruned.mono ?_).trans (hwithin.mono fun q hq => ⟨_, by simp, hcontains q hq⟩)
    exact fun q ⟨other, hother, hq⟩ => ⟨other, List.mem_cons_of_mem _ hother, hq⟩
  · intro other hother
    rcases List.mem_cons.1 hother with rfl | hbefore
    · exact ⟨hroot, hne⟩
    · exact h.inside other hbefore
  · intro other hother hsound
    rcases List.mem_cons.1 hother with rfl | hbefore
    · have houtcome := of_tidings fun trouble hfailed =>
        hsound trouble (List.mem_append_left _ hfailed)
      exact ⟨_, rfl, htells.gone houtcome⟩
    · refine (h.gone other hbefore fun trouble hfailed => ?_).of_prunedWithin hwithin
      exact hsound trouble (List.mem_append_right _ (List.mem_cons_of_mem _ hfailed))
  · intro other hother
    rw [deletion?_tidings] at hother
    rcases List.mem_append.1 hother with hnew | hbefore
    · split at hnew
      · rename_i hfault
        obtain rfl := List.mem_singleton.1 hnew
        exact ⟨_, rfl, htells.gone (Or.inl hfault)⟩
      · cases hnew
    · exact (h.deleted other hbefore).of_prunedWithin hwithin
  · rw [deletion?_tidings]
    split
    · rename_i hfault
      refine List.pairwise_cons.2 ⟨fun earlier hearlier hover => ?_, h.ordered⟩
      obtain ⟨q, rfl, hnone⟩ := h.deleted earlier hearlier
      obtain ⟨rest, hrest⟩ := contains_pathOf_iff.1 hover
      -- what was told to be removed before is gone, and so is all below it
      refine htells.present hfault ?_
      rw [← hrest]
      exact Node.at?_append_eq_none hnone rest
    · exact h.ordered

end Extent

/-! ## The whole scan -/

/-- A live scan below a straight root changes nothing that is not below the root, takes away nothing
beyond its matches, has removed each match of which it tells no failure, and never tells of
something removed after something that contains it. -/
theorem scan_live_extent (disk : Disk) (root : Path) (rules : List Rule)
    (hstraight : disk.Straight (disk.absolutize root)) :
    (∀ place, ¬ ((disk.absolutize root).Contains (pathOf place) ∧
        disk.absolutize root ≠ pathOf place) →
      (scan .idle .live disk root rules).disk.root.surfaceAt place = disk.root.surfaceAt place) ∧
    (∀ place,
      (scan .idle .live disk root rules).disk.root.surfaceAt place = disk.root.surfaceAt place ∨
      (scan .idle .live disk root rules).disk.at? place = none ∧
        ∃ path ∈ (scan .idle .live disk root rules).found, path.Contains (pathOf place)) ∧
    (∀ path ∈ (scan .idle .live disk root rules).found,
      (∀ trouble, .failed .deletion path trouble ∉ (scan .idle .live disk root rules).events) →
        (scan .idle .live disk root rules).disk.Void path) ∧
    ((scan .idle .live disk root rules).events.filterMap Event.deletion?).Pairwise
      fun earlier later => ¬ earlier.Contains later := by
  obtain ⟨progress, hextent, hscan⟩ := scan_keeps disk .live (Extent disk (disk.absolutize root))
    (fun path _ => disk.Inside (disk.absolutize root) path)
    (fun progress path kind hpath _ hextent => hextent.take hpath (kind = .directory))
    (fun progress event hremark hextent => hextent.tell hremark) root rules
    (fun rule _ directory hdirectory _ _ _ _ path kind hpath => hpath.inside hstraight hdirectory)
    (Extent.start disk _)
  rw [hscan]
  have hwithin := hextent.pruned.root
  refine ⟨fun place hplace => ?_, fun place => ?_, fun path hpath hsound => ?_, ?_⟩
  · refine (hwithin place).resolve_right ?_
    rintro ⟨-, path, hpath, hover⟩
    obtain ⟨hbelow, hne⟩ := hextent.inside path hpath
    exact hplace ⟨hbelow.trans hover, fun heq => hne (hbelow.antisymm (heq ▸ hover))⟩
  · simpa [Disk.at?] using hwithin place
  · refine hextent.gone path (List.mem_reverse.1 hpath) fun trouble hfailed => ?_
    exact hsound trouble (List.mem_reverse.2 hfailed)
  · rw [List.filterMap_reverse, List.pairwise_reverse]
    exact hextent.ordered

/-- A disk with a file `/k` and a directory `/w` that holds a link to the root. -/
def extentDisk : Disk :=
  .ofLeaves [("/k", .ofContent ""), ("/w/l", .link (Path.ofText "/").bytes)]

/-- A scan of `/w` that removes everything removes the link, and not what it leads to. -/
theorem scan_live_extent_of_link :
    (scan .idle .live extentDisk (Path.ofText "/w") [⟨.delete, ⟨"**"⟩, none⟩]).disk.root.surfaceAt
        (.ofText "/k") = some (.ofContent "") ∧
      (scan .idle .live extentDisk (Path.ofText "/w") [⟨.delete, ⟨"**"⟩, none⟩]).disk.Void
        (Path.ofText "/w/l") := by
  have hroot : extentDisk.absolutize (Path.ofText "/w") = pathOf (.ofText "/w") := by cbv
  have hstraight : extentDisk.Straight (extentDisk.absolutize (Path.ofText "/w")) := by
    rw [hroot]
    exact straight_of_directory rfl
  have hfound : (scan .idle .live extentDisk (Path.ofText "/w") [⟨.delete, ⟨"**"⟩, none⟩]).found =
      [Path.ofText "/w/l"] := by cbv
  have hevents : (scan .idle .live extentDisk (Path.ofText "/w") [⟨.delete, ⟨"**"⟩, none⟩]).events =
      [.started (Path.ofText "/w") 1, .entered (Path.ofText "/w"), .found (Path.ofText "/w/l"),
        .deleted (Path.ofText "/w/l") false, .finished (Path.ofText "/w") 1] := by cbv
  obtain ⟨houtside, -, hgone, -⟩ := scan_live_extent extentDisk (Path.ofText "/w")
    [⟨.delete, ⟨"**"⟩, none⟩] hstraight
  refine ⟨houtside _ ?_, hgone _ ?_ ?_⟩
  · rw [hroot]
    decide
  · rw [hfound]
    exact List.mem_singleton_self _
  · intro trouble
    simp [hevents]

end Sweep
