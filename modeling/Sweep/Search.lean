import Sweep.Path.Folded
import Sweep.Rule.Basic
import Sweep.Walk
/-!
# Conditions on a disk

A condition is evaluated in a directory: each of its questions looks at the directories that its
vicinity names around that directory, and is answered yes if any of them holds an entry with a
matching name. Names match as text, bad bytes being replacement characters. A directory that cannot
be listed holds nothing.

The vicinities upwards are taken from the spelling of the path, which is why a question is asked at
the folded absolute path; those downwards and sideways are read from the disk.
-/

namespace Sweep

open Disk

/-- The directories in a directory, in the order of their names; links are none. -/
def Disk.directoriesIn (disk : Disk) (path : Path) : List Path :=
  ((disk.entries path).filter (·.2 = .directory)).map fun entry => path.child entry.1.bytes

/-- Collects the paths of directories on a walk through a disk that stays as it is, last one
first. -/
def directoryCollector (disk : Disk) : Visitor (List Path) where
  disk := fun _ => disk
  visit := fun entry paths =>
    (if entry.kind = .directory then entry.path :: paths else paths, true)
  fail := fun _ _ paths => paths

/-- The directories below a directory, at any depth. -/
def Disk.directoriesBelow (disk : Disk) (path : Path) : List Path :=
  ((directoryCollector disk).run path false []).reverse

/-- The directories of a vicinity of the directory at a path. -/
def Vicinity.directories (disk : Disk) (path : Path) : Vicinity → List Path
  | here => [path]
  | parent => path.parent?.toList
  | parents => path.above
  | child => disk.directoriesIn path
  | children => disk.directoriesBelow path
  | sibling =>
    match path.parent? with
    | none => []
    | some holder => (disk.directoriesIn holder).filter (·.fileName? ≠ path.fileName?)

/-- Whether a directory holds an entry whose name matches a pattern. -/
def Disk.holdsMatch (disk : Disk) (pattern : Glob) (path : Path) : Bool :=
  (disk.entries path).any fun entry => pattern.accepts entry.1.text

/-- The folded absolute path of a path, read from the working directory. -/
def Disk.absolutize (disk : Disk) (path : Path) : Path :=
  path.absolutize disk.workingPath?

mutual

/-- Whether a condition holds in the directory at a path. -/
def Condition.holds (disk : Disk) (path : Path) : Condition → Bool
  | .present vicinity pattern =>
    (vicinity.directories disk (disk.absolutize path)).any (disk.holdsMatch pattern)
  | .negated condition => !condition.holds disk path
  | .every conditions => allHold disk path conditions
termination_by structural condition => condition

/-- Whether all conditions hold in the directory at a path. -/
def allHold (disk : Disk) (path : Path) : List Condition → Bool
  | [] => true
  | condition :: rest => condition.holds disk path && allHold disk path rest
termination_by structural conditions => conditions

end

/-- Whether a rule with this condition applies in the directory at a path. -/
def applies (disk : Disk) (path : Path) : Option Condition → Bool
  | none => true
  | some condition => condition.holds disk path

end Sweep
