import Sweep.Disk.Reading
/-!
# Writing to a disk

Making directories and writing files. A new entry needs a directory that may be searched and
written. Writing through a symbolic link writes what the link leads to, and makes it if it is
missing.

## Main results

* `makeDirectories_empty` — for the empty path there is nothing to make.
-/

namespace Sweep.Disk

/-- Puts a new entry into the directory at a place. -/
def putAt (disk : Disk) (actor : Actor) (place : Place) (name : Name) (entry : Node) :
    Except Fault Disk :=
  match disk.at? place with
  | some (.directory rights _) =>
    if actor.may rights.search && actor.may rights.write then
      .ok { disk with root := disk.root.modify (·.putEntry name entry) place }
    else .error .denied
  | _ => .error .notDirectory

/-- Makes a directory under a free name. What has no name, as the root, is there already. -/
def makeDirectory (disk : Disk) (actor : Actor) (path : Path) : Except Fault Disk :=
  match disk.entry actor path with
  | .error .unnamed => .error .taken
  | .error fault => .error fault
  | .ok (place, name) =>
    if (disk.at? (place ++ [name])).isSome then .error .taken
    else disk.putAt actor place name (.directory .ofDirectory [])

/-- Whether a path leads an actor to a directory. -/
def leadsToDirectory (disk : Disk) (actor : Actor) (path : Path) : Bool :=
  match disk.node actor .reach path with
  | .ok (.directory ..) => true
  | _ => false

/-- Makes a directory and all directories that are missing above it, outermost first. Where that
fails, the ones made before stay. -/
def makeDirectories (disk : Disk) (actor : Actor) (path : Path) : Disk × Option Fault :=
  if path.bytes = [] then (disk, none)
  else
    match disk.makeDirectory actor path with
    | .ok made => (made, none)
    | .error .notFound =>
      match _h : path.parent? with
      | none => (disk, some .notFound)
      | some parent =>
        match makeDirectories disk actor parent with
        | (disk, some fault) => (disk, some fault)
        | (disk, none) =>
          match disk.makeDirectory actor path with
          | .ok made => (made, none)
          | .error fault =>
            (disk, if disk.leadsToDirectory actor path then none else some fault)
    | .error fault => (disk, if disk.leadsToDirectory actor path then none else some fault)
termination_by path.steps.length
decreasing_by exact Path.length_parent?_lt _h

@[simp] theorem makeDirectories_empty (disk : Disk) (actor : Actor) :
    disk.makeDirectories actor Path.empty = (disk, none) := by
  rw [makeDirectories]
  simp [Path.empty, Path.bytes, Text.join]

def Node.withContent (content : Bytes) : Node → Node
  | file rights _ => file rights content
  | node => node

/-- Writes a file, made anew or with its old content lost. -/
def write (disk : Disk) (actor : Actor) (path : Path) (content : Bytes) : Except Fault Disk :=
  match disk.locate actor .write path with
  | .error fault => .error fault
  | .ok (.found place) =>
    match disk.at? place with
    | some (.file rights _) =>
      if actor.may rights.write then
        .ok { disk with root := disk.root.modify (·.withContent content) place }
      else .error .denied
    | _ => .error .isDirectory
  | .ok (.vacant place name) => disk.putAt actor place name (.file .ofFile content)

end Sweep.Disk
