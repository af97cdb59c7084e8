/-!
# Configuration

Four settings say how a run behaves where its arguments leave that open. Each setting has a name and
takes its value as text.

## Main results

* `Format.ofWord?_word`, `Setting.ofWord?_word` — names read back.
* `set_rulesFile` — any text names a rule file.
-/

namespace Sweep

/-- How a command writes its output. -/
inductive Format where
  /-- For people. -/
  | human
  | json
  /-- One item a line. -/
  | quiet
deriving DecidableEq, Repr

namespace Format

def all : List Format :=
  [.human, .json, .quiet]

def word : Format → String
  | human => "human"
  | json => "json"
  | quiet => "quiet"

def ofWord? (word : String) : Option Format :=
  all.find? (·.word = word)

theorem ofWord?_word (format : Format) : ofWord? format.word = some format := by
  cases format <;> rfl

end Format

/-- What can be configured. -/
inductive Setting where
  /-- The rule file that is looked for where a run starts. -/
  | rulesFile
  /-- Whether a run removes nothing unless it is told to. -/
  | dryRun
  /-- Whether a run asks before it removes anything. -/
  | confirm
  /-- How output is written. -/
  | format
deriving DecidableEq, Repr

namespace Setting

/-- All settings, in the order in which they are written. -/
def all : List Setting :=
  [.rulesFile, .dryRun, .confirm, .format]

def word : Setting → String
  | rulesFile => "default_rules_file"
  | dryRun => "dry_run"
  | confirm => "confirm"
  | format => "output_format"

def ofWord? (word : String) : Option Setting :=
  all.find? (·.word = word)

theorem ofWord?_word (setting : Setting) : ofWord? setting.word = some setting := by
  cases setting <;> rfl

end Setting

inductive SettingFault where
  | notBoolean (setting : Setting) (value : String)
  | notFormat (value : String)
  | unknown (name : String)
deriving DecidableEq, Repr

def SettingFault.message : SettingFault → String
  | notBoolean setting value => setting.word ++ " must be true or false, got '" ++ value ++ "'"
  | notFormat value => "expected human, json or quiet, got '" ++ value ++ "'"
  | unknown name => "Unknown config key: " ++ name

/-- The configuration. As it is by default, a run removes nothing without being told to and asks
first. -/
structure Config where
  rulesFile : String := ".tidyrules"
  dryRun : Bool := true
  confirm : Bool := true
  format : Format := .human
deriving DecidableEq, Repr, Inhabited

/-- How a truth value is written. -/
def truthText (value : Bool) : String :=
  if value then "true" else "false"

def truthOfText? (text : String) : Option Bool :=
  if text = "true" then some true else if text = "false" then some false else none

theorem truthOfText?_truthText (value : Bool) : truthOfText? (truthText value) = some value := by
  cases value <;> rfl

namespace Config

/-- Changes the setting of a name. -/
def set (config : Config) (name value : String) : Except SettingFault Config :=
  match Setting.ofWord? name with
  | none => .error (.unknown name)
  | some .rulesFile => .ok { config with rulesFile := value }
  | some .dryRun =>
    match truthOfText? value with
    | none => .error (.notBoolean .dryRun value)
    | some truth => .ok { config with dryRun := truth }
  | some .confirm =>
    match truthOfText? value with
    | none => .error (.notBoolean .confirm value)
    | some truth => .ok { config with confirm := truth }
  | some .format =>
    match Format.ofWord? value with
    | none => .error (.notFormat value)
    | some format => .ok { config with format := format }

/-- Any text names a rule file. -/
theorem set_rulesFile (config : Config) (value : String) :
    config.set Setting.rulesFile.word value = .ok { config with rulesFile := value } := by
  simp [set, Setting.ofWord?_word]

end Config

end Sweep
