import Sweep.Command.Perform
import Sweep.Disk.Difference
/-!
# The command line

Reads the part of the disk that a command can be about, lets the command be carried out there,
writes what it says, and makes on disk the changes that it has made. Nothing is decided here.

A *survey* reads the directories on the way to some places, everything below those that are scanned,
and one level more around them, as rules may ask about the neighbours of a directory.
-/

namespace Sweep.CommandLine

open Disk

/-- A place that is read on a survey. -/
structure Interest where
  /-- The names that lead to it. -/
  place : Place
  /-- Whether all below it is read, and no content of files. -/
  whole : Bool

/-- What is left of an interest one directory further down. -/
def Interest.below? (interest : Interest) (name : Name) : Option Interest :=
  match interest.place with
  | [] => if interest.whole then some interest else none
  | first :: rest => if first = name then some { interest with place := rest } else none

def bytesOf (text : String) : Bytes :=
  text.toUTF8.toList

/-- Reads a node. Entries beside the places are read `spare` levels deep. -/
partial def survey (file : String) (interests : List Interest) (spare : Nat) : IO Node := do
  let here := (← IO.currentDir) / file
  match (← here.symlinkMetadata).type with
  | .symlink =>
    let target ← try pure (← IO.FS.realPath here).toString catch _ => pure file
    return .link (bytesOf target)
  | .dir =>
    let listing ← try pure (some (← here.readDir)) catch _ => pure none
    match listing with
    | none => return .directory ⟨false, true, true⟩ []
    | some listing =>
      let depth := if interests.any fun i => i.whole && i.place.length = 1 then 1 else spare
      let mut entries := []
      for entry in listing do
        match Name.ofBytes? (bytesOf entry.fileName) with
        | none => pure ()
        | some name =>
          let inner := interests.filterMap (·.below? name)
          let node ←
            if inner.isEmpty && depth = 0 then
              match (← entry.path.symlinkMetadata).type with
              | .dir => pure (.directory .ofDirectory [])
              | .symlink => pure (.link (bytesOf entry.path.toString))
              | _ => pure (.file .ofFile [])
            else survey entry.path.toString inner (depth - 1)
          entries := (name, node) :: entries
      return .directory .ofDirectory entries
  | _ =>
    if interests.any fun i => i.place.isEmpty && !i.whole then
      let content ← try pure (some (← IO.FS.readBinFile here)) catch _ => pure none
      match content with
      | none => return .file ⟨false, false, false⟩ []
      | some content => return .file .ofFile content.toList
    else return .file .ofFile []

/-- The interests in a path: where it leads by its spelling, and where it leads through links. -/
def interestsIn (working : Path) (whole : Bool) (path : Path) : IO (List Interest) := do
  let placeOf := fun path : Path => path.steps.filterMap Name.ofBytes?
  let spelled := path.absolutize (some working)
  let real ← try pure [Path.ofText (← IO.FS.realPath spelled.text).toString] catch _ => pure []
  return (spelled :: real).map fun path => ⟨placeOf path, whole⟩

/-- Reads a disk as far as some paths need it; the second ones are read as a whole. -/
def readDisk (working : Path) (paths roots : List Path) : IO Disk := do
  let read ← (working :: paths).mapM (interestsIn working false)
  let scanned ← roots.mapM (interestsIn working true)
  let root ← survey "/" (read.flatten ++ scanned.flatten) 0
  return ⟨root, working.steps.filterMap Name.ofBytes?⟩

/-- The paths that a command reads, and the ones that it scans. -/
def pathsOf (config : Config) : Command → List Path × List Path
  | .run request =>
    (request.rulesFile.toList ++
      [request.root.join (Path.ofText RuleSource.localName),
        request.root.join (Path.ofText config.rulesFile)], [request.root])
  | .check file => ([file], [])
  | _ => ([], [])

/-- Makes a change on disk. What cannot be done is left undone. -/
def carryOut (change : Change) : IO Unit := do
  let fileOf := fun path : Path => return (← IO.currentDir) / path.text
  try
    match change with
    | .make path .directory _ => IO.FS.createDirAll (← fileOf path)
    | .make path (.file content) _ =>
      IO.FS.writeBinFile (← fileOf path) (ByteArray.mk content.toArray)
    | .remove path =>
      let file ← fileOf path
      match (← file.symlinkMetadata).type with
      | .dir => IO.FS.removeDirAll file
      | _ => IO.FS.removeFile file
    | _ => pure ()
  catch error => IO.eprintln (toString error)

/-- Writes to both streams. -/
def write (written : Written) : IO Unit := do
  IO.print written.out
  IO.eprint written.err
  (← IO.getStdout).flush

/-- Ends a command: writes what is still unwritten and makes its changes. -/
def finish (disk : Disk) (said : Written) (ending : Ending) : IO UInt32 := do
  let rest : Written :=
    ⟨(ending.written.out.drop said.out.length).toString,
      (ending.written.err.drop said.err.length).toString⟩
  (changesBetween disk ending.disk).forM carryOut
  write rest
  return UInt32.ofNat ending.code

/-- Carries an invocation out. -/
def perform (env : Environment) (invocation : Invocation) : IO UInt32 := do
  let working := Path.ofText (← IO.currentDir).toString
  let configured ← readDisk working [env.configPath] []
  let config := (Config.load configured env.configPath).toOption.getD {}
  let (paths, roots) := pathsOf config invocation.command
  let disk ← readDisk working (env.configPath :: paths) roots
  match invocation.perform env disk with
  | .ends ending => finish disk {} ending
  | .asks said resume =>
    write said
    let line ← (← IO.getStdin).getLine
    finish disk said (resume (.ok line))

end Sweep.CommandLine

/-- Runs the program. -/
def main (arguments : List String) : IO UInt32 := do
  let names := ["HOME", "TIDYRULES_HOME", "TIDYRULES_RULES", "CLICOLOR_FORCE"]
  let values ← names.mapM fun name => do return (name, ← IO.getEnv name)
  let env := Sweep.Environment.ofVariables fun name => (values.lookup name).join
  match Sweep.Invocation.ofArguments env arguments with
  | .error refusal =>
    Sweep.CommandLine.write refusal.told.2
    return UInt32.ofNat refusal.told.1
  | .ok invocation => Sweep.CommandLine.perform env invocation
