import Sweep.Number.Binary64
import Sweep.Path.Basic
/-!
# The environment

What a command is told about the user besides its arguments, and what a clock shows while it is
carried out. What concerns the user comes from variables of the environment;
`Environment.ofVariables` says which.

## Main results

* `dataDirectory_of_dataHome` — a data directory that was named is taken as it is.
-/

namespace Sweep

/-- How many seconds scans take. -/
structure Elapsed where
  /-- A scan that only finds matches. -/
  dry : Number.Binary64 := .ofNat 0
  /-- A scan that removes them. -/
  live : Number.Binary64 := .ofNat 0
deriving DecidableEq, Repr

/-- What a command knows about the user and about time. -/
structure Environment where
  home : Option Path
  /-- The data directory that the user named. -/
  dataHome : Option Path
  /-- The rule file that the user named for all runs. -/
  rulesFile : Option String
  /-- Whether output is coloured even where no terminal shows it. -/
  forcesColor : Bool
  elapsed : Elapsed := {}
deriving DecidableEq, Repr

namespace Environment

/-- Reads the variables of the environment. An empty home directory is none, while an empty data
directory is the working directory. No clock is read. -/
def ofVariables (valueOf : String → Option String) : Environment where
  home := ((valueOf "HOME").filter (· ≠ "")).map Path.ofText
  dataHome := (valueOf "TIDYRULES_HOME").map Path.ofText
  rulesFile := valueOf "TIDYRULES_RULES"
  forcesColor := (valueOf "CLICOLOR_FORCE").any (· ≠ "0")

/-- The directory that holds the data of the program. -/
def dataDirectory (env : Environment) : Path :=
  match env.dataHome with
  | some directory => directory
  | none => (env.home.getD (Path.ofText "/tmp")).join (Path.ofText ".tidyrules")

theorem dataDirectory_of_dataHome {env : Environment} {directory : Path}
    (h : env.dataHome = some directory) : env.dataDirectory = directory := by
  simp [dataDirectory, h]

def configPath (env : Environment) : Path :=
  env.dataDirectory.join (Path.ofText "config.toml")

end Environment

end Sweep
