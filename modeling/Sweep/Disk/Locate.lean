import Sweep.Disk.Fault
import Sweep.Disk.Node
/-!
# Where a path leads

A disk is a tree of nodes and the place of the working directory. A path is followed step by step:
each step needs a directory that may be searched, `..` leads to the directory above, and a symbolic
link is followed by walking its target in its stead, at most forty times on the way. What becomes of
the last step depends on the `Purpose`.

To make, move or take out an entry, a path is followed to the directory that holds the entry. There
its last step is a name, which `entry` gives together with the directory.

Two actors look things up. The user is subject to the rights; changes from outside are not.

## Main results

* `length_lt_of_locate` — a path that leads anywhere is shorter than `pathLimit`, which bounds the
  depth of every walk through a disk.
-/

namespace Sweep

/-- A tree of nodes, and the place that paths not beginning at the root start from. -/
structure Disk where
  root : Disk.Node
  /-- The place of the working directory. -/
  working : Disk.Place

namespace Disk

/-- Who acts on a disk. -/
inductive Actor where
  /-- The user, who needs the rights. -/
  | user
  /-- Someone else, whom the rights do not bind. -/
  | outside
deriving DecidableEq, Repr

/-- Whether an actor may do what a right is for. -/
def Actor.may (actor : Actor) (right : Bool) : Bool :=
  actor = .outside || right

/-- How often a path may lead through a symbolic link. -/
def linkLimit : Nat := 40

/-- What the spelling of a path must be shorter than. -/
def pathLimit : Nat := 4096

/-- What a path is followed for. -/
inductive Purpose where
  /-- To reach what it leads to: a link at the end is followed. A slash at the end asks for a
  directory. -/
  | reach
  /-- To look at an entry: a link at the end is not followed, unless a slash comes after it. -/
  | look
  /-- To write a file: a link at the end is followed, but a name with a slash after it cannot be
  that of a file. -/
  | write
deriving DecidableEq, Repr

/-- Where a path leads. -/
inductive Landing where
  | found (place : Place)
  /-- To a free name in a directory that may be searched. -/
  | vacant (directory : Place) (name : Name)
deriving DecidableEq

/-- Follows steps from a place. `links` is how many symbolic links may still be followed. -/
def walk (root : Node) (actor : Actor) (purpose : Purpose) (links : Nat) (here : Place)
    (steps : List Bytes) : Except Fault Landing :=
  match steps with
  | [] => .ok (.found here)
  | step :: rest =>
    match root.at? here with
    | some (.directory rights entries) =>
      if step = [] then walk root actor purpose links here rest
      else if !actor.may rights.search then .error .denied
      else if step = dot then walk root actor purpose links here rest
      else if step = dotDot then walk root actor purpose links here.dropLast rest
      else if purpose = .write && rest ≠ [] && rest.all (· = []) then .error .isDirectory
      else
        match Name.ofBytes? step with
        | none => .error .tooLong
        | some name =>
          match entries.lookup name with
          | none =>
            if rest.all (· = []) then .ok (.vacant here name) else .error .notFound
          | some (.link target) =>
            if purpose ≠ .look || rest ≠ [] then
              match links with
              | 0 => .error .linkLoop
              | links + 1 =>
                let target := Path.ofBytes target
                walk root actor purpose links (if target.rooted then [] else here)
                  (target.steps ++ rest)
            else .ok (.found (here ++ [name]))
          | some _ => walk root actor purpose links (here ++ [name]) rest
    | some _ => .error .notDirectory
    | none => .error .notFound
termination_by (links, steps.length)

/-- The node at a place of a disk. -/
def at? (disk : Disk) (place : Place) : Option Node :=
  disk.root.at? place

def hasWorking (disk : Disk) : Bool :=
  match disk.at? disk.working with
  | some (.directory ..) => true
  | _ => false

/-- The path of a place from the root. -/
def pathOf (place : Place) : Path :=
  ⟨true, place.map (·.bytes)⟩

/-- The path of the working directory, while it exists. -/
def workingPath? (disk : Disk) : Option Path :=
  if disk.hasWorking then some (pathOf disk.working) else none

/-- The place where a path is followed from, if it can be followed at all. -/
def start (disk : Disk) (path : Path) : Except Fault Place :=
  if 0 ∈ path.bytes then .error .zeroByte
  else if path.bytes = [] then .error .notFound
  else if pathLimit ≤ path.length then .error .tooLong
  else if path.rooted then .ok []
  else if disk.hasWorking then .ok disk.working
  else .error .notFound

/-- Follows a path. -/
def locate (disk : Disk) (actor : Actor) (purpose : Purpose) (path : Path) :
    Except Fault Landing :=
  match disk.start path with
  | .error fault => .error fault
  | .ok place => walk disk.root actor purpose linkLimit place path.steps

/-- A path that can be followed is shorter than `pathLimit`. -/
theorem length_lt_of_start {disk : Disk} {path : Path} {place : Place}
    (h : disk.start path = .ok place) : path.length < pathLimit := by
  unfold start at h
  split at h
  · simp at h
  · split at h
    · simp at h
    · split at h
      · simp at h
      · omega

/-- A path that leads anywhere is shorter than `pathLimit`. -/
theorem length_lt_of_locate {disk : Disk} {actor : Actor} {purpose : Purpose} {path : Path}
    {landing : Landing} (h : disk.locate actor purpose path = .ok landing) :
    path.length < pathLimit := by
  cases hstart : disk.start path with
  | error fault => simp [locate, hstart] at h
  | ok place => exact length_lt_of_start hstart

/-- The place of the node that a path leads to. -/
def resolve (disk : Disk) (actor : Actor) (purpose : Purpose) (path : Path) : Except Fault Place :=
  match disk.locate actor purpose path with
  | .error fault => .error fault
  | .ok (.found place) => .ok place
  | .ok (.vacant ..) => .error .notFound

/-- The node that a path leads to. -/
def node (disk : Disk) (actor : Actor) (purpose : Purpose) (path : Path) : Except Fault Node :=
  match disk.resolve actor purpose path with
  | .error fault => .error fault
  | .ok place =>
    match disk.at? place with
    | none => .error .notFound
    | some node => .ok node

theorem length_lt_of_node {disk : Disk} {actor : Actor} {purpose : Purpose} {path : Path}
    {node : Node} (h : disk.node actor purpose path = .ok node) : path.length < pathLimit := by
  unfold Disk.node resolve at h
  cases hlocate : disk.locate actor purpose path with
  | error fault => simp [hlocate] at h
  | ok landing => exact length_lt_of_locate hlocate

/-- The directory that holds the entry which a path names, whether or not the entry is there, and
the name. Slashes at the end do not count, and a link there is not followed. The directory must be
one that may be searched, which is what staying in it by a dot asks for as well. -/
def entry (disk : Disk) (actor : Actor) (path : Path) : Except Fault (Place × Name) :=
  let steps := Path.dropSlashEnd path.steps
  match disk.start path with
  | .error fault => .error fault
  | .ok place =>
    match walk disk.root actor .reach linkLimit place (steps.dropLast ++ [dot]) with
    | .error fault => .error fault
    | .ok (.vacant ..) => .error .notFound
    | .ok (.found holder) =>
      match steps.getLast? with
      | none => .error .unnamed
      | some step =>
        if step = dot || step = dotDot then .error .unnamed
        else
          match Name.ofBytes? step with
          | none => .error .tooLong
          | some name => .ok (holder, name)

end Disk

end Sweep
