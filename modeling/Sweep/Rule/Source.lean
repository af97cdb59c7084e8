import Sweep.Disk.Reading
import Sweep.Display
import Sweep.Failure
/-!
# Where rules come from

The rules of a run are those of a file or of a preset. A file that was named comes first, then a
preset that was named, then the file `.tidyrules` where the run starts, and last the file that the
configuration names; a relative name is taken from where the run starts.

## Main results

* `resolve_of_file` — a file that was named is taken, whether it exists or not.
-/

namespace Sweep

/-- Where rules come from. -/
inductive RuleSource where
  | file (path : Path)
  | preset (name : String)
deriving DecidableEq, Repr

namespace RuleSource

/-- The rule file that a directory can have. -/
def localName : String := ".tidyrules"

/-- The source of the rules of a run. -/
def resolve (disk : Disk) (root : Path) (rulesFile : Option Path) (preset : Option String)
    (config : Config) : Except Failure RuleSource :=
  let ofRoot := root.join (Path.ofText localName)
  let configured := root.join (Path.ofText config.rulesFile)
  match rulesFile, preset with
  | some path, _ => .ok (.file path)
  | none, some name => .ok (.preset name)
  | none, none =>
    if disk.isFile ofRoot then .ok (.file ofRoot)
    else if disk.isFile configured then .ok (.file configured)
    else .error (.noRules root)

/-- A file that was named is taken, whether it exists or not. -/
theorem resolve_of_file (disk : Disk) (root path : Path) (preset : Option String)
    (config : Config) : resolve disk root (some path) preset config = .ok (.file path) := by
  simp [resolve]

/-- How a source is shown. -/
def text (home : Option Path) : RuleSource → String
  | file path => displayPath home path
  | preset name => "preset '" ++ name ++ "'"

def loadFile (disk : Disk) (path : Path) : Except Failure (List Rule) :=
  match disk.readText path with
  | .error fault => .error (.unreadableRules path fault)
  | .ok text => (Rule.ofText text).mapError (.malformedRules path)

def loadPreset (name : String) : Except Failure (List Rule) :=
  match Preset.ofName? name with
  | none => .error (.unknownPreset name)
  | some known => .ok known.rules

/-- Loads the rules of a source. -/
def load (disk : Disk) : RuleSource → Except Failure (List Rule)
  | file path => loadFile disk path
  | preset name => loadPreset name

end RuleSource

end Sweep
