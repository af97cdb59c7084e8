import Mathlib.Logic.Relation
import Sweep.Proofs.Disk.Listed
import Sweep.Proofs.Path
import Sweep.Proofs.Walk
/-!
# The directories around a directory

`Vicinity.Around` says which directories a vicinity has by two relations: by the spelling, a path has
a holder and is contained in others, and on a disk, a directory has as children the directories that
its listing shows. What is further down is what some steps from child to child lead to. How the
directories are looked for plays no part.

## Main results

* `transGen_child_iff` — what a walk finds below a directory is what such steps lead to.
* `mem_directories_iff` — the search for a vicinity finds the directories around.
-/

namespace Sweep

open Disk

/-- The user is shown an entry of this name and kind at a path: the path leads the user to a directory
that may be read, and the directory holds such an entry. -/
def Disk.Shows (disk : Disk) (path : Path) (name : Name) (kind : Kind) : Prop :=
  ∃ place rights held node, disk.resolve .user .reach path = .ok place ∧
    disk.at? place = some (.directory rights held) ∧ rights.read = true ∧
    disk.at? (place ++ [name]) = some node ∧ node.kind = kind

/-- A directory shows a real directory at this path; a link to one does not count. -/
def Disk.Child (disk : Disk) (directory found : Path) : Prop :=
  ∃ name, disk.Shows directory name .directory ∧ found = directory.child name.bytes

/-- The directories around a directory. -/
def Vicinity.Around (disk : Disk) (directory found : Path) : Vicinity → Prop
  | here => found = directory
  | parent => found.HolderOf directory
  | parents => found.Contains directory ∧ found ≠ directory
  | child => disk.Child directory found
  | children => Relation.TransGen disk.Child directory found
  | sibling => found ≠ directory ∧ ∃ holder, Path.HolderOf holder directory ∧ disk.Child holder found

variable {disk : Disk} {directory found : Path}

theorem mem_entries_iff_shows {path : Path} {name : Name} {kind : Kind} :
    (name, kind) ∈ disk.entries path ↔ disk.Shows path name kind :=
  mem_entries_iff

theorem mem_directoriesIn_iff :
    found ∈ disk.directoriesIn directory ↔ disk.Child directory found := by
  simp only [Disk.directoriesIn, List.mem_map, List.mem_filter, decide_eq_true_eq, Disk.Child,
    ← mem_entries_iff_shows]
  constructor
  · intro h
    obtain ⟨⟨name, kind⟩, ⟨hlisted, rfl⟩, rfl⟩ := h
    exact ⟨name, hlisted, rfl⟩
  · intro h
    obtain ⟨name, hlisted, rfl⟩ := h
    exact ⟨(name, .directory), ⟨hlisted, rfl⟩, rfl⟩

/-- The directories below a directory are those that steps from child to child lead to. -/
theorem transGen_child_iff (below : Place) :
    Relation.TransGen disk.Child directory found ↔
      ∃ names, disk.Under directory below ⟨found, names, .directory⟩ := by
  constructor
  · intro h
    induction h using Relation.TransGen.head_induction_on generalizing below with
    | single hchild =>
        obtain ⟨name, hshows, rfl⟩ := hchild
        exact ⟨below ++ [name], .entry (mem_entries_iff_shows.2 hshows)⟩
    | head hchild _ ih =>
        obtain ⟨name, hshows, rfl⟩ := hchild
        obtain ⟨names, hunder⟩ := ih (below ++ [name])
        exact ⟨names, .inner (mem_entries_iff_shows.2 hshows) hunder⟩
  · rintro ⟨names, hunder⟩
    generalize hentry : (⟨found, names, .directory⟩ : Entry) = entry at hunder
    induction hunder with
    | entry hlisted =>
        cases hentry
        exact .single ⟨_, mem_entries_iff_shows.1 hlisted, rfl⟩
    | inner hlisted next ih =>
        exact .head ⟨_, mem_entries_iff_shows.1 hlisted, rfl⟩ (ih hentry)

theorem mem_directoriesBelow_iff_transGen :
    found ∈ disk.directoriesBelow directory ↔ Relation.TransGen disk.Child directory found :=
  mem_directoriesBelow_iff.trans (transGen_child_iff []).symm

/-- Beside a directory are the children of its holder with other names. -/
theorem Path.IsFolded.fileName?_child_eq_iff {holder path : Path} (hfolded : path.IsFolded)
    (hholder : holder.HolderOf path) (name : Name) :
    (holder.child name.bytes).fileName? = path.fileName? ↔ holder.child name.bytes = path := by
  have hheld := hfolded.of_holderOf hholder
  rw [(hheld.child name).fileName?_eq_getLast?, hfolded.fileName?_eq_getLast?,
    hheld.steps_child]
  obtain ⟨key, rfl⟩ := hholder
  have hsteps := hheld.steps_child name.bytes
  simp only [List.getLast?_concat, Option.some.injEq]
  constructor
  · rintro rfl
    exact congrArg (Path.mk holder.rooted) hsteps
  · intro hsame
    rw [hsame] at hsteps
    simpa using hsteps.symm

/-- The search for a vicinity finds the directories around, and no others. -/
theorem Vicinity.mem_directories_iff (hfolded : directory.IsFolded) (vicinity : Vicinity) :
    found ∈ vicinity.directories disk directory ↔ vicinity.Around disk directory found := by
  cases vicinity with
  | here => exact List.mem_singleton
  | parent => simp [Vicinity.directories, Vicinity.Around, hfolded.parent?_eq_some_iff]
  | parents => exact hfolded.mem_above_iff
  | child => exact mem_directoriesIn_iff
  | children => exact mem_directoriesBelow_iff_transGen
  | sibling =>
      simp only [Vicinity.directories, Vicinity.Around]
      cases hparent : directory.parent? with
      | none =>
          simp only [List.not_mem_nil, false_iff]
          rintro ⟨-, holder, hholder, -⟩
          rw [hfolded.parent?_eq_some_iff.2 hholder] at hparent
          cases hparent
      | some holder =>
          have hholder := hfolded.parent?_eq_some_iff.1 hparent
          simp only [List.mem_filter, mem_directoriesIn_iff, decide_not, Bool.not_eq_true',
            decide_eq_false_iff_not]
          constructor
          · intro h
            obtain ⟨⟨name, hshows, rfl⟩, hname⟩ := h
            exact ⟨mt (hfolded.fileName?_child_eq_iff hholder name).2 hname, holder, hholder,
              name, hshows, rfl⟩
          · intro h
            obtain ⟨hne, other, hother, name, hshows, rfl⟩ := h
            obtain rfl := hholder.unique hother
            exact ⟨⟨name, hshows, rfl⟩, mt (hfolded.fileName?_child_eq_iff hholder name).1 hne⟩

end Sweep
