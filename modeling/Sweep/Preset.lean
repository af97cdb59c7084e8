import Sweep.Rule.Reader
/-!
# Built-in rules

Three sets of rules for the build products of common tool chains, and one that joins them.

## Main results

* `ofName?_name` — each preset is found by its name.
* `ofText_text_of_ne_dev` — the text of a preset for one tool chain is written in the rule language.
-/

namespace Sweep

/-- A built-in set of rules. -/
inductive Preset where
  /-- Build products of Cargo. -/
  | rust
  /-- Packages and caches of Node. -/
  | node
  /-- Caches and environments of Python. -/
  | python
  /-- All of them. -/
  | dev
deriving DecidableEq, Repr

namespace Preset

/-- All presets, in the order in which they are listed. -/
def all : List Preset :=
  [.rust, .node, .python, .dev]

def name : Preset → String
  | rust => "rust"
  | node => "node"
  | python => "python"
  | dev => "dev"

def ofName? (name : String) : Option Preset :=
  all.find? (·.name = name)

theorem ofName?_name (preset : Preset) : ofName? preset.name = some preset := by
  cases preset <;> rfl

/-- The rules for the build products of Cargo. -/
def rustText : String :=
  "# Rust\ndelete target when exists Cargo.toml\n"

/-- The rules for the packages and caches of Node. -/
def nodeText : String :=
  "# JavaScript / TypeScript\ndelete node_modules when exists package.json\n" ++
  "delete .next when exists package.json\ndelete .turbo when exists package.json\n"

/-- The rules for the caches and environments of Python. -/
def pythonText : String :=
  "# Python\ndelete __pycache__\ndelete .pytest_cache\ndelete .mypy_cache\n" ++
  "delete .venv when exists pyproject.toml\ndelete **/*.pyc\n"

/-- The rule text of a preset. -/
def text : Preset → String
  | rust => rustText
  | node => nodeText
  | python => pythonText
  | dev => joinTexts "\n" [rustText, nodeText, pythonText]

def rules (preset : Preset) : List Rule :=
  (Rule.ofText preset.text).toOption.getD []

/-- The text of a preset for one tool chain is written in the rule language. -/
theorem ofText_text_of_ne_dev {preset : Preset} (h : preset ≠ dev) :
    Rule.ofText preset.text = .ok preset.rules := by
  have hread : (Rule.ofText preset.text).toOption.isSome = true := by
    cases preset with
    | rust => decide +kernel
    | node => decide +kernel
    | python => decide +kernel
    | dev => exact absurd rfl h
  unfold rules
  cases hrules : Rule.ofText preset.text with
  | error fault => simp [hrules, Except.toOption] at hread
  | ok read => rfl

end Preset

end Sweep
