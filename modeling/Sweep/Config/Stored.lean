import Sweep.Config.Document
import Sweep.Disk.Writing
import Sweep.Environment
import Sweep.Failure
/-!
# The configuration on disk

The configuration is a file. Where there is none, everything has its default; a file that cannot be
read, or that is no configuration, is a failure. Saving makes the directories that are missing.

## Main results

* `load_of_missing` — without a file the configuration is the default one.
-/

namespace Sweep.Config

def load (disk : Disk) (path : Path) : Except Failure Config :=
  if disk.holds path then
    match disk.readText path with
    | .error fault => .error (.unreadableConfig path fault)
    | .ok text =>
      match ofText? text with
      | none => .error (.malformedConfig path)
      | some config => .ok config
  else .ok {}

/-- Without a file the configuration is the default one. -/
theorem load_of_missing {disk : Disk} {path : Path} (h : disk.holds path = false) :
    load disk path = .ok {} := by
  simp [load, h]

/-- Saves a configuration to a file. Gives the disk afterwards, and why saving failed. -/
def save (config : Config) (disk : Disk) (path : Path) : Disk × Option Failure :=
  let (disk, fault) := match path.parent? with
    | none => (disk, none)
    | some directory =>
      let (disk, fault) := disk.makeDirectories .user directory
      (disk, fault.map (Failure.noConfigDirectory directory))
  match fault with
  | some failure => (disk, some failure)
  | none =>
    match disk.write .user path (Text.Utf8.encode config.text.toList) with
    | .error fault => (disk, some (.unwritableConfig path fault))
    | .ok disk => (disk, none)

end Sweep.Config
