import Sweep.Disk.Reading
/-!
# Removing from a disk

A file or a symbolic link is removed from the directory that holds it, which must be writable. A
directory is removed with all that is below it: it is opened, its entries are removed in the order
of their names, and then it is taken out itself. The first failure ends that, and what was removed
before stays removed. A link inside is removed and not followed.

The directory at the top is taken out by its path, which is followed a second time for that. A path
that led through a link inside the directory leads nowhere by then. That is no failure: the entry
to be taken out is not there, so nothing more is done, and the directory stays as an empty one.

## Main results

* `remainder_none_iff` — nothing remains of a node exactly when removing it did not fail.
* `removeDirectory_of_gone` — an emptied directory stays if its path has become void.
-/

namespace Sweep.Disk

/-- Whether an entry may be taken out of a directory. -/
def Actor.mayTake (actor : Actor) (holder : Rights) : Bool :=
  actor.may holder.search && actor.may holder.write

mutual

/-- Removes a node with all below it from a directory with the given rights. Gives what remains of
the node, and why anything does. -/
def remove (actor : Actor) (holder : Rights) : Node → Option Node × Option Fault
  | .file rights content =>
    if actor.mayTake holder then (none, none) else (some (.file rights content), some .denied)
  | .link target =>
    if actor.mayTake holder then (none, none) else (some (.link target), some .denied)
  | .directory rights entries =>
    if !actor.may holder.search || !actor.may rights.read then
      (some (.directory rights entries), some .denied)
    else
      match clear actor rights entries with
      | (remaining, some fault) => (some (.directory rights remaining), some fault)
      | (remaining, none) =>
        if actor.mayTake holder then (none, none)
        else (some (.directory rights remaining), some .denied)
termination_by structural node => node

/-- Removes the entries of a directory with the given rights. Gives the entries that remain, and why
any do. Once an entry is removed there is none of its name. -/
def clear (actor : Actor) (rights : Rights) :
    List (Name × Node) → List (Name × Node) × Option Fault
  | [] => ([], none)
  | (name, node) :: rest =>
    match remove actor rights node with
    | (none, _) =>
      let (remaining, fault) := clear actor rights rest
      (remaining.filter (·.1 ≠ name), fault)
    | (some remaining, fault) => ((name, remaining) :: rest, fault)
termination_by structural entries => entries

end

/-- Nothing remains of a node exactly when removing it did not fail. -/
theorem remainder_none_iff (actor : Actor) (holder : Rights) (node : Node) :
    (remove actor holder node).1 = none ↔ (remove actor holder node).2 = none := by
  cases node with
  | file rights content => simp only [remove]; split <;> simp
  | link target => simp only [remove]; split <;> simp
  | directory rights entries =>
    simp only [remove]
    split
    · simp
    · split
      · simp
      · split <;> simp

def Node.withEntries (entries : List (Name × Node)) : Node → Node
  | directory rights _ => directory rights entries
  | node => node

/-- Removes what the directory at a place holds. -/
def clearAt (disk : Disk) (actor : Actor) (place : Place) : Disk × Option Fault :=
  match disk.at? place with
  | some (.directory rights entries) =>
    if actor.may rights.read then
      let (remaining, fault) := clear actor rights entries
      ({ disk with root := disk.root.modify (·.withEntries remaining) place }, fault)
    else (disk, some .denied)
  | _ => (disk, some .notDirectory)

/-- The rights on the directory at a place. -/
def rightsAt (disk : Disk) (place : Place) : Rights :=
  match disk.at? place with
  | some (.directory rights _) => rights
  | _ => ⟨false, false, false⟩

/-- Takes an entry out of the directory at a place. -/
def takeOut (disk : Disk) (actor : Actor) (place : Place) (name : Name) : Disk × Option Fault :=
  if actor.mayTake (disk.rightsAt place) then
    ({ disk with root := disk.root.modify (·.eraseEntry name) place }, none)
  else (disk, some .denied)

/-- Removes the file or symbolic link that a path names. -/
def removeFile (disk : Disk) (actor : Actor) (path : Path) : Disk × Option Fault :=
  match disk.entry actor path with
  | .error fault => (disk, some fault)
  | .ok (place, name) =>
    match disk.at? (place ++ [name]) with
    | none => (disk, some .notFound)
    | some (.directory ..) =>
      (disk, some (if actor.mayTake (disk.rightsAt place) then .isDirectory else .denied))
    | some _ => disk.takeOut actor place name

/-- Removes the empty directory that a path names. -/
def removeEmpty (disk : Disk) (actor : Actor) (path : Path) : Disk × Option Fault :=
  match disk.entry actor path with
  | .error fault => (disk, some fault)
  | .ok (place, name) =>
    match disk.at? (place ++ [name]) with
    | none => (disk, some .notFound)
    | some (.directory _ []) => disk.takeOut actor place name
    | some (.directory ..) => (disk, some .notEmpty)
    | some _ => (disk, some .notDirectory)

/-- Removes what a path leads to with all below it, if it is a directory or a symbolic link. -/
def removeDirectory (disk : Disk) (actor : Actor) (path : Path) : Disk × Option Fault :=
  match disk.resolve actor .look path with
  | .error fault => (disk, some fault)
  | .ok place =>
    match disk.at? place with
    | some (.link _) => disk.removeFile actor path
    | _ =>
      match disk.clearAt actor place with
      | (cleared, some fault) => (cleared, some fault)
      | (cleared, none) =>
        match cleared.removeEmpty actor path with
        | (cleared, some .notFound) => (cleared, none)
        | removed => removed

/-- An emptied directory stays if its path has become void. -/
theorem removeDirectory_of_gone {disk cleared : Disk} {actor : Actor} {path : Path} {place : Place}
    {rights : Rights} {entries : List (Name × Node)}
    (hplace : disk.resolve actor .look path = .ok place)
    (hnode : disk.at? place = some (.directory rights entries))
    (hcleared : disk.clearAt actor place = (cleared, none))
    (hgone : cleared.entry actor path = .error .notFound) :
    disk.removeDirectory actor path = (cleared, none) := by
  simp [removeDirectory, removeEmpty, hplace, hnode, hcleared, hgone]

end Sweep.Disk
