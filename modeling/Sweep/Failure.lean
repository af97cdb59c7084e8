import Sweep.Config.Basic
import Sweep.Disk.Fault
import Sweep.Path.Basic
import Sweep.Preset
/-!
# Why a command fails

The causes for which a command gives up. Each has a message of its own, and some have a cause
beneath them, which is told apart from it.
-/

namespace Sweep

/-- Why a command fails. -/
inductive Failure where
  /-- A run would start at something that is no directory. -/
  | notDirectory (root : Path)
  /-- A relative path cannot be read, as the working directory is gone. -/
  | noWorking
  | noRules (root : Path)
  | unknownPreset (name : String)
  | unreadableRules (path : Path) (fault : Disk.Fault)
  /-- A rule file is not written in the rule language. -/
  | malformedRules (path : Path) (fault : Rule.TextFault)
  | protectedRoot (root : Path)
  | unreadableAnswer (fault : Disk.Fault)
  | unreadableConfig (path : Path) (fault : Disk.Fault)
  /-- The configuration is no document with the settings in it. -/
  | malformedConfig (path : Path)
  | noConfigDirectory (directory : Path) (fault : Disk.Fault)
  | unwritableConfig (path : Path) (fault : Disk.Fault)
  | badSetting (path : Path) (fault : SettingFault)
deriving DecidableEq, Repr

namespace Failure

/-- The message of a failure, without its cause. -/
def message : Failure → String
  | notDirectory root => "Path is not a directory: " ++ root.text
  | noWorking => Disk.Fault.notFound.message
  | noRules root =>
    "No rules found for '" ++ root.text ++
      "'. Pass --rules FILE, --preset NAME, or create a .tidyrules file"
  | unknownPreset name =>
    "Preset '" ++ name ++ "' not found. Available: " ++
      joinTexts ", " (Preset.all.map (·.name))
  | unreadableRules path _ => "Failed to read rules: " ++ path.text
  | malformedRules path _ => "Failed to parse rules: " ++ path.text
  | protectedRoot root => "SAFETY: Refusing to delete under protected path: " ++ root.text
  | unreadableAnswer fault => fault.message
  | unreadableConfig path _ => "Failed to read config: " ++ path.text
  | malformedConfig path => "Failed to parse config: " ++ path.text
  | noConfigDirectory directory _ => "Failed to create config dir: " ++ directory.text
  | unwritableConfig path _ => "Failed to write config: " ++ path.text
  | badSetting path fault => "Config error in '" ++ path.text ++ "': " ++ fault.message

/-- What is beneath a failure. -/
def cause? : Failure → Option String
  | unreadableRules _ fault => some fault.message
  | malformedRules _ fault => some fault.message
  | unreadableConfig _ fault => some fault.message
  | malformedConfig _ => some "TOML parse error"
  | noConfigDirectory _ fault => some fault.message
  | unwritableConfig _ fault => some fault.message
  | _ => none

/-- The message of a failure and its cause on one line. -/
def inLine (failure : Failure) : String :=
  match failure.cause? with
  | none => failure.message
  | some cause => failure.message ++ ": " ++ cause

/-- The message of a failure and its cause as a command tells them. -/
def told (failure : Failure) : String :=
  "Error: " ++ failure.message ++
    (match failure.cause? with
    | none => ""
    | some cause => "\n\nCaused by:\n    " ++ cause) ++ "\n"

end Failure

end Sweep
