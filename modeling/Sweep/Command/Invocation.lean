import Sweep.Command.Arguments
import Sweep.Environment
import Sweep.Config.Basic
/-!
# What a command line asks for

The program has five commands. `run` scans a directory tree, `check` reads a rule file, `presets`
shows built-in rules, `config` shows and changes the configuration, and `completions` writes a
completion script. Four switches can be given to the program as well as to any command: a flag holds
wherever it is given, and of two formats the one further in counts.

## Main results

* `Shell.ofWord?_word` — names read back.
-/

namespace Sweep

/-- What a run is asked to do. -/
structure RunRequest where
  /-- Where it starts. -/
  root : Path
  rulesFile : Option Path
  preset : Option String
  /-- Matches are to be removed. -/
  apply : Bool
  /-- Nothing is to be removed. -/
  dryRun : Bool
  /-- Nothing is to be asked. -/
  yes : Bool
deriving DecidableEq, Repr

/-- What is done with the configuration. -/
inductive ConfigAction where
  | display
  | reset
  | set (name value : String)
  /-- The default one is written. -/
  | init
deriving DecidableEq, Repr

/-- A shell that can complete command lines. -/
inductive Shell where
  | bash
  | zsh
  | fish
deriving DecidableEq, Repr

def Shell.all : List Shell :=
  [.bash, .zsh, .fish]

def Shell.word : Shell → String
  | bash => "bash"
  | zsh => "zsh"
  | fish => "fish"

def Shell.ofWord? (word : String) : Option Shell :=
  all.find? (·.word = word)

theorem Shell.ofWord?_word (shell : Shell) : ofWord? shell.word = some shell := by
  cases shell <;> rfl

/-- What the program is asked to do. -/
inductive Command where
  | run (request : RunRequest)
  | check (file : Path)
  /-- Show the presets or the rules of one. -/
  | presets (name : Option String)
  | config (action : ConfigAction)
  | completions (shell : Shell)
deriving DecidableEq, Repr

/-- A command and how its output is written. -/
structure Invocation where
  command : Command
  format : Option Format
  noColor : Bool
  verbose : Bool
  quiet : Bool
deriving DecidableEq, Repr

/-! ## Usage -/

open Arguments

def flagSwitch (name : String) (letter : Option Char) : Switch :=
  ⟨name, letter, .flag⟩

/-- The switches of the program and of every command. -/
def commonSwitches : List Switch :=
  [⟨"format", none, .option "FORMAT" (.oneOf (Format.all.map (·.word)))⟩,
    flagSwitch "no-color" none, flagSwitch "verbose" (some 'v'), flagSwitch "quiet" (some 'q'),
    ⟨helpWord, some 'h', .question .usage⟩]

def rulesSwitch : Switch := ⟨"rules", some 'r', .option "FILE" .nonempty⟩

def presetSwitch : Switch := ⟨"preset", none, .option "NAME" .any⟩

/-- The switch for removing matches. -/
def applySwitch : Switch := flagSwitch "apply" none

/-- The switch for removing nothing. -/
def drySwitch : Switch := flagSwitch "dry-run" none

/-- The switch for asking nothing. -/
def yesSwitch : Switch := flagSwitch "yes" (some 'y')

def configUsage : List (String × Usage) :=
  [("show", .leaf commonSwitches []), ("reset", .leaf commonSwitches []),
    ("set", .leaf commonSwitches [⟨"KEY", .any, true⟩, ⟨"VALUE", .any, true⟩]),
    ("init", .leaf commonSwitches [])]

/-- How the program is called. -/
def programUsage : Usage :=
  .branch (⟨"version", some 'V', .question .version⟩ :: commonSwitches)
    [("run", .leaf (commonSwitches ++
        [rulesSwitch, presetSwitch, applySwitch, drySwitch, yesSwitch])
        [⟨"ROOT", .nonempty, false⟩]),
      ("check", .leaf commonSwitches [⟨"FILE", .nonempty, true⟩]),
      ("presets", .leaf commonSwitches [⟨"NAME", .any, false⟩]),
      ("config", .branch commonSwitches configUsage),
      ("completions", .leaf commonSwitches
        [⟨"SHELL", .oneOf (Shell.all.map (·.word)), true⟩])]

/-! ## Reading an invocation -/

def Arguments.Given.has (given : Given) (switch : Switch) : Bool :=
  (given.switches.lookup switch.name).isSome

/-- What a run is asked to do. The rule file of the environment counts where none is named. A rule
file and a preset exclude each other, and so do removing and not removing. -/
def RunRequest.ofGiven (env : Environment) (given : Given) : Except Refusal RunRequest :=
  let rulesFile := (given.switches.lookup rulesSwitch.name).or env.rulesFile
  let preset := given.switches.lookup presetSwitch.name
  if rulesFile = some "" then .error (.misused (.missingValue rulesSwitch.label []))
  else if rulesFile.isSome && preset.isSome then
    .error (.misused (.conflict presetSwitch.label rulesSwitch.label))
  else if given.has applySwitch && given.has drySwitch then
    .error (.misused (.conflict applySwitch.label drySwitch.label))
  else .ok {
    root := Path.ofText (given.operands.head?.getD ".")
    rulesFile := rulesFile.map Path.ofText
    preset := preset
    apply := given.has applySwitch
    dryRun := given.has drySwitch
    yes := given.has yesSwitch }

/-- The command of a path of names and of what was given to the last of them. -/
def Command.ofPath (env : Environment) (path : List String) (given : Given) :
    Except Refusal Command :=
  match path, given.operands with
  | ["run"], _ => (RunRequest.ofGiven env given).map .run
  | ["check"], [file] => .ok (.check (Path.ofText file))
  | ["presets"], operands => .ok (.presets operands.head?)
  | ["config", "show"], _ => .ok (.config .display)
  | ["config", "reset"], _ => .ok (.config .reset)
  | ["config", "set"], [name, value] => .ok (.config (.set name value))
  | ["config", "init"], _ => .ok (.config .init)
  | ["completions"], [shell] =>
    match Shell.ofWord? shell with
    | some shell => .ok (.completions shell)
    | none => .error (.misused (.unexpectedArgument shell))
  | _, _ => .error (.misused .missingCommand)

/-- The format that was given furthest in. -/
def formatOfLevels (levels : List Given) : Option Format :=
  (levels.filterMap (·.switches.lookup "format")).getLast?.bind Format.ofWord?

def Invocation.ofArguments (env : Environment) (arguments : List String) :
    Except Refusal Invocation := do
  let reading ← Arguments.read programUsage arguments
  let given := reading.levels.getLast?.getD ⟨[], []⟩
  let hasFlag := fun name => reading.levels.any fun given => given.has (flagSwitch name none)
  return {
    command := ← Command.ofPath env reading.path given
    format := formatOfLevels reading.levels
    noColor := hasFlag "no-color"
    verbose := hasFlag "verbose"
    quiet := hasFlag "quiet" }

end Sweep
