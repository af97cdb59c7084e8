import Sweep.Command.Run
import Sweep.Config.Stored
/-!
# Carrying out commands

Every command begins with loading the configuration, and fails with it. The format of the command
line goes before that of the configuration. Arguments that call no command end the program at once.

## Main results

* `perform_of_load_error` — no command gets past a configuration that cannot be loaded.
-/

namespace Sweep

/-- How the output of an invocation is to look. -/
def Invocation.view (invocation : Invocation) (env : Environment) (config : Config) : View where
  home := env.home
  format := invocation.format.getD config.format
  colored := env.forcesColor && !invocation.noColor
  verbose := invocation.verbose
  quiet := invocation.quiet
  elapsed := env.elapsed

/-- Rules as `check` writes them. -/
def checked (view : View) (file : Path) (rules : List Rule) : String :=
  if view.format = .human && !view.quiet then
    Screen.ofRules view.colored view.home (.file file) rules
  else if view.format = .json then
    (Text.Json.object [("file", .string file.text),
      ("rules", .array (rules.map fun rule => .string rule.text))]).text ++ "\n"
  else Screen.ofLines (rules.map (·.text))

/-- Reads a rule file and writes its rules. -/
def performCheck (view : View) (disk : Disk) (file : Path) : Ending :=
  match RuleSource.loadFile disk file with
  | .error failure => .ofFailure disk {} failure
  | .ok rules => .ofSuccess disk (.ofOut (checked view file rules))

/-- Shows the presets, or the rules of one. -/
def performPresets (view : View) (disk : Disk) : Option String → Ending
  | none => .ofSuccess disk (.ofOut (Screen.ofPresets view.colored))
  | some name =>
    match RuleSource.loadPreset name with
    | .error failure => .ofFailure disk {} failure
    | .ok rules =>
      .ofSuccess disk (.ofOut (Screen.ofRules view.colored view.home (.preset name) rules))

/-- Saves a configuration and says so. -/
def performSave (env : Environment) (view : View) (disk : Disk) (config : Config) (news : String) :
    Ending :=
  match config.save disk env.configPath with
  | (disk, some failure) => .ofFailure disk {} failure
  | (disk, none) =>
    .ofSuccess disk (.ofOut ("  " ++ paint view.colored .green "✓" ++ " " ++ news ++ "\n"))

/-- Shows or changes the configuration. -/
def performConfig (env : Environment) (view : View) (config : Config) (disk : Disk) :
    ConfigAction → Ending
  | .display => .ofSuccess disk (.ofOut (config.text ++ "\n"))
  | .reset => performSave env view disk {} "Configuration reset to defaults"
  | .init =>
    performSave env view disk {}
      ("TidyRules initialized at " ++ displayPath env.home env.configPath)
  | .set name value =>
    match config.set name value with
    | .error fault => .ofFailure disk {} (.badSetting env.configPath fault)
    | .ok config => performSave env view disk config ("Set " ++ name ++ " = " ++ value)

/-- A script that completes the commands of the program. -/
def Shell.script (shell : Shell) : String :=
  let words := "run check presets config completions " ++ Arguments.helpWord
  match shell with
  | bash => "complete -W '" ++ words ++ "' tidyrules\n"
  | zsh => "compctl -k '(" ++ words ++ ")' tidyrules\n"
  | fish => "complete -c tidyrules -f -a '" ++ words ++ "'\n"

/-- Carries an invocation out. -/
def Invocation.perform (env : Environment) (disk : Disk) (invocation : Invocation) : Talk :=
  match Config.load disk env.configPath with
  | .error failure => .ends (.ofFailure disk {} failure)
  | .ok config =>
    let view := invocation.view env config
    match invocation.command with
    | .run request =>
      match Run.prepare env.home config disk request with
      | .error failure => .ends (.ofFailure disk {} failure)
      | .ok run => run.talk view (config.confirm && !request.yes) disk
    | .check file => .ends (performCheck view disk file)
    | .presets name => .ends (performPresets view disk name)
    | .config action => .ends (performConfig env view config disk action)
    | .completions shell => .ends (.ofSuccess disk (.ofOut shell.script))

/-- No command gets past a configuration that cannot be loaded. -/
theorem Invocation.perform_of_load_error {env : Environment} {disk : Disk} {failure : Failure}
    (h : Config.load disk env.configPath = .error failure) (invocation : Invocation) :
    invocation.perform env disk = .ends (.ofFailure disk {} failure) := by
  simp [perform, h]

/-- What the program says about how it is called. -/
def usageText : String :=
  Screen.ofLines
    ["Usage: tidyrules [OPTIONS] <COMMAND>", "",
      "Commands:",
      "  run [ROOT]           Apply rules to a directory tree",
      "  check <FILE>         Parse a rule file and print its rules",
      "  presets [NAME]       List built-in rule sets, or the rules of one",
      "  config <ACTION>      Manage configuration: show, reset, set KEY VALUE, init",
      "  completions <SHELL>  Generate shell completions: bash, zsh, fish", "",
      "Options:",
      "      --format <FORMAT>  human, json or quiet",
      "      --no-color         Disable colored output",
      "  -v, --verbose          Verbose output",
      "  -q, --quiet            Quiet mode, minimal output",
      "  -h, --help             Print this text", "",
      "Options of run:",
      "  -r, --rules <FILE>   Rule file to use",
      "      --preset <NAME>  Built-in rule set to use instead of a file",
      "      --apply          Delete matches",
      "      --dry-run        Only report matches",
      "  -y, --yes            Skip the confirmation prompt"]

def versionText : String := "tidyrules 0.1.0\n"

/-- How the program ends when its arguments call no command: the exit code and what is written. -/
def Arguments.Refusal.told : Arguments.Refusal → Nat × Written
  | asked .usage => (0, .ofOut usageText)
  | asked .version => (0, .ofOut versionText)
  | misused misuse =>
    (2, .ofErr ("error: " ++ misuse.message ++ "\n\nFor more information, try '--help'.\n"))

end Sweep
