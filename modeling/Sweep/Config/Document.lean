import Sweep.Config.Basic
import Sweep.Toml.Reader
/-!
# The configuration as TOML

Each setting is an entry of a TOML document. Entries that are missing have their defaults, and
unknown ones do not count; an entry of the wrong kind makes the whole document useless. A format is
written as a string, and may also be given as a table whose only entry has its name and is an empty
table or array.
-/

namespace Sweep.Config

open Toml

def lineOf (setting : Setting) (value : String) : String :=
  setting.word ++ " = " ++ value ++ "\n"

/-- A string as a value of TOML. -/
def quoted (text : String) : String :=
  String.ofList (Quoted.encode text.toList)

def text (config : Config) : String :=
  lineOf .rulesFile (quoted config.rulesFile) ++ lineOf .dryRun (truthText config.dryRun) ++
    lineOf .confirm (truthText config.confirm) ++ lineOf .format (quoted config.format.word)

/-- The string that a value is. -/
def stringOf? : Value → Option String
  | .string text => some text
  | _ => none

/-- The truth value that a value is. -/
def truthOf? : Value → Option Bool
  | .boolean truth => some truth
  | _ => none

/-- Whether a value has parts, but none of them. -/
def isVoid : Value → Bool
  | .array items => items.isEmpty
  | .table _ entries => entries.isEmpty
  | .tables items => items.isEmpty
  | _ => false

/-- The format that a value stands for: a string with its name, or a table whose only entry has its
name and is void. -/
def formatOf? : Value → Option Format
  | .string text => Format.ofWord? text
  | .table _ [(name, inner)] => if isVoid inner then Format.ofWord? name else none
  | _ => none

/-- The value of a setting in a document, or its default. -/
def field? {α : Type} (entries : Entries) (setting : Setting) (default : α)
    (read? : Value → Option α) : Option α :=
  match entries.lookup setting.word with
  | none => some default
  | some value => read? value

/-- Reads a configuration from the entries of a document. -/
def ofEntries? (entries : Entries) : Option Config := do
  let default : Config := {}
  return {
    rulesFile := ← field? entries .rulesFile default.rulesFile stringOf?
    dryRun := ← field? entries .dryRun default.dryRun truthOf?
    confirm := ← field? entries .confirm default.confirm truthOf?
    format := ← field? entries .format default.format formatOf? }

def ofText? (text : String) : Option Config :=
  (Toml.read? text).bind ofEntries?

end Sweep.Config
