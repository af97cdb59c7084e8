import Sweep.Disk.Change
/-!
# What has changed

The changes that turn one node into another. An entry that is gone is removed, a new one is made,
and a file whose content differs is written again; what is the same on both sides needs no change.
Rights do not count.

## Main results

* `changesTo_file_self` — a file that is the same needs no change.
-/

namespace Sweep.Disk

/-- The changes that remove an entry, if there is one. -/
def removalOf (path : Path) (old : Option Node) : List Change :=
  if old.isSome then [.remove path] else []

mutual

/-- The changes that put a node at a path, in place of another node or of none. -/
def changesTo (path : Path) (old : Option Node) : Node → List Change
  | .file _ content =>
    match old with
    | some (.file _ before) => if before = content then [] else [.make path (.file content) none]
    | _ => removalOf path old ++ [.make path (.file content) none]
  | .link target =>
    match old with
    | some (.link before) =>
      if before = target then [] else [.remove path, .make path (.link target) none]
    | _ => removalOf path old ++ [.make path (.link target) none]
  | .directory _ entries =>
    match old with
    | some (.directory _ before) =>
      (before.filter fun entry => (entries.lookup entry.1).isNone).map
        (fun entry => .remove (path.child entry.1.bytes)) ++ entryChanges path before entries
    | _ => removalOf path old ++ .make path .directory none :: entryChanges path [] entries
termination_by structural node => node

/-- The changes that put entries into the directory at a path, which has held others. -/
def entryChanges (path : Path) (before : List (Name × Node)) :
    List (Name × Node) → List Change
  | [] => []
  | (name, node) :: rest =>
    changesTo (path.child name.bytes) (before.lookup name) node ++ entryChanges path before rest
termination_by structural entries => entries

end

/-- A file that is the same needs no change. -/
theorem changesTo_file_self (path : Path) (rights : Rights) (content : Bytes) :
    changesTo path (some (.file rights content)) (.file rights content) = [] := by
  simp [changesTo]

/-- The changes that turn a disk into another one. -/
def changesBetween (old new : Disk) : List Change :=
  changesTo .root (some old.root) new.root

end Sweep.Disk
