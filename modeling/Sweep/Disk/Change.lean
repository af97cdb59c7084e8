import Sweep.Disk.Removal
import Sweep.Disk.Writing
/-!
# Changes from outside

While a scan goes on, others may change the disk. A *change* is what they do: make an entry with all
directories above it, remove one with all below it, set the rights on one, or move one. The rights
do not bind them. What cannot be done is left undone.
-/

namespace Sweep.Disk

/-- What is made at a path. -/
inductive Making where
  | directory
  | file (content : Bytes)
  | link (target : Bytes)
deriving DecidableEq, Repr

/-- What is done to a disk from outside. -/
inductive Change where
  /-- Make an entry, and give it rights. -/
  | make (path : Path) (making : Making) (rights : Option Rights)
  | remove (path : Path)
  | setRights (path : Path) (rights : Rights)
  /-- Move an entry, over a file or an empty directory if need be. -/
  | move (path target : Path)
deriving Repr

def setRights (disk : Disk) (path : Path) (rights : Rights) : Except Fault Disk :=
  match disk.resolve .outside .reach path with
  | .error fault => .error fault
  | .ok place => .ok { disk with root := disk.root.modify (·.withRights rights) place }

/-- Makes a symbolic link under a free name. -/
def makeLink (disk : Disk) (path : Path) (target : Bytes) : Except Fault Disk :=
  match disk.entry .outside path with
  | .error fault => .error fault
  | .ok (place, name) =>
    if (disk.at? (place ++ [name])).isSome then .error .taken
    else if path.endsSlash || target = [] then .error .notFound
    else disk.putAt .outside place name (.link target)

/-- A disk after an attempt: the new one, or the old one and why nothing changed. -/
def settle (disk : Disk) : Except Fault Disk → Disk × Option Fault
  | .ok changed => (changed, none)
  | .error fault => (disk, some fault)

/-- Makes an entry with all directories above it. Where the entry cannot be made, directories made
for it stay. -/
def make (disk : Disk) (path : Path) : Making → Disk × Option Fault
  | .directory => disk.makeDirectories .outside path
  | .file content =>
    match disk.makeDirectories .outside (path.parent?.getD .empty) with
    | (disk, some fault) => (disk, some fault)
    | (disk, none) => disk.settle (disk.write .outside path content)
  | .link target =>
    match disk.makeDirectories .outside (path.parent?.getD .empty) with
    | (disk, some fault) => (disk, some fault)
    | (disk, none) => disk.settle (disk.makeLink path target)

/-- Whether an entry may be put over another one. -/
def mayReplace (moved : Node) (present : Option Node) : Except Fault Unit :=
  match moved.kind, present with
  | _, none => .ok ()
  | .directory, some (.directory _ []) => .ok ()
  | .directory, some (.directory ..) => .error .notEmpty
  | .directory, some _ => .error .notDirectory
  | _, some (.directory ..) => .error .isDirectory
  | _, some _ => .ok ()

/-- Moves an entry. Only a directory may have a slash after its old or new name. -/
def move (disk : Disk) (path target : Path) : Except Fault Disk :=
  match disk.entry .outside path, disk.entry .outside target with
  | .error fault, _ | _, .error fault => .error fault
  | .ok (holder, name), .ok (newHolder, newName) =>
    let source := holder ++ [name]
    match disk.at? source with
    | none => .error .notFound
    | some node =>
      if node.kind ≠ .directory && (path.endsSlash || target.endsSlash) then .error .notDirectory
      else if source = newHolder ++ [newName] then .ok disk
      else if source.isPrefixOf newHolder then .error .intoItself
      else
        match mayReplace node (disk.at? (newHolder ++ [newName])) with
        | .error fault => .error fault
        | .ok () =>
          let taken := disk.root.modify (·.eraseEntry name) holder
          .ok { disk with root := taken.modify (·.putEntry newName node) newHolder }

/-- Removes what a path leads to with all below it. -/
def removeAll (disk : Disk) (path : Path) : Disk × Option Fault :=
  match disk.node .outside .look path with
  | .error fault => (disk, some fault)
  | .ok (.directory ..) => disk.removeDirectory .outside path
  | .ok _ => disk.removeFile .outside path

/-- Makes a change. Gives the disk afterwards, and why the change could not be made in full. -/
def apply (disk : Disk) : Change → Disk × Option Fault
  | .make path making rights =>
    match disk.make path making, rights with
    | (disk, some fault), _ => (disk, some fault)
    | (disk, none), none => (disk, none)
    | (disk, none), some rights => disk.settle (disk.setRights path rights)
  | .remove path => disk.removeAll path
  | .setRights path rights => disk.settle (disk.setRights path rights)
  | .move path target => disk.settle (disk.move path target)

/-- The disk after a change, so far as it can be made. -/
def attempt (disk : Disk) (change : Change) : Disk :=
  (disk.apply change).1

end Sweep.Disk
