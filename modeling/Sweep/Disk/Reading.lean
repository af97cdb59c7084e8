import Sweep.Disk.Locate
/-!
# Reading a disk

What the user can learn about a disk through paths: what a node is, what a directory holds and what
a file says. A listing needs the right to read the directory and shows names and kinds; it needs no
right to search it.

## Main results

* `length_lt_of_list` — a directory that can be listed has a path shorter than `pathLimit`.
-/

namespace Sweep.Disk

/-- What the node at a path is, a link at its end being a link. -/
def ownKind (disk : Disk) (path : Path) : Except Fault Kind :=
  (disk.node .user .look path).map (·.kind)

/-- What a path leads to through all links. -/
def kind (disk : Disk) (path : Path) : Except Fault Kind :=
  (disk.node .user .reach path).map (·.kind)

/-- Whether a path leads to anything. -/
def holds (disk : Disk) (path : Path) : Bool :=
  (disk.kind path).toOption.isSome

def isDirectory (disk : Disk) (path : Path) : Bool :=
  (disk.kind path).toOption = some .directory

def isFile (disk : Disk) (path : Path) : Bool :=
  (disk.kind path).toOption = some .file

/-- What the directory at a path holds, in the order of names. -/
def list (disk : Disk) (path : Path) : Except Fault Listing :=
  match disk.node .user .reach path with
  | .error fault => .error fault
  | .ok (.directory rights entries) =>
    if rights.read then .ok (Node.listing entries) else .error .denied
  | .ok _ => .error .notDirectory

/-- A directory that can be listed has a path shorter than `pathLimit`. -/
theorem length_lt_of_list {disk : Disk} {path : Path} {listing : Listing}
    (h : disk.list path = .ok listing) : path.length < pathLimit := by
  unfold list at h
  cases hnode : disk.node .user .reach path with
  | error fault => simp [hnode] at h
  | ok node => exact length_lt_of_node hnode

/-- What the directory at a path holds, nothing where that cannot be found out. -/
def entries (disk : Disk) (path : Path) : Listing :=
  (disk.list path).toOption.getD []

/-- What the file at a path holds. -/
def read (disk : Disk) (path : Path) : Except Fault Bytes :=
  match disk.node .user .reach path with
  | .error fault => .error fault
  | .ok (.file rights content) => if rights.read then .ok content else .error .denied
  | .ok (.directory rights _) => .error (if rights.read then .isDirectory else .denied)
  | .ok (.link _) => .error .linkLoop

/-- What the file at a path says. -/
def readText (disk : Disk) (path : Path) : Except Fault String :=
  match disk.read path with
  | .error fault => .error fault
  | .ok content =>
    match Text.Utf8.decode? content with
    | none => .error .notText
    | some cs => .ok (String.ofList cs)

end Sweep.Disk
