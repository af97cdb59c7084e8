import Sweep.Display
import Sweep.Preset
import Sweep.Report.Basic
import Sweep.Rule.Source
import Sweep.Screen.Paint
/-!
# What people read

Lists of rules and of presets, and the report of a run, laid out for a terminal. A report shows the
first twenty matches, or all of them where that is asked for; a report without matches is cut short.

## Main results

* `length_shownPaths_le` — a short report shows at most twenty matches.
-/

namespace Sweep.Screen

/-- Lines, each with its end. -/
def ofLines (lines : List String) : String :=
  String.join (lines.map (· ++ "\n"))

/-- A line across the screen. -/
def rulerLine (colored : Bool) : String :=
  paint colored .dimmed (String.ofList (List.replicate 60 '─'))

/-- A text with spaces before it, to a width. -/
def padFront (width : Nat) (text : String) : String :=
  String.ofList (List.replicate (width - text.length) ' ') ++ text

/-- A text with spaces after it, to a width. -/
def padBack (width : Nat) (text : String) : String :=
  text ++ String.ofList (List.replicate (width - text.length) ' ')

/-! ## Rules -/

/-- Rules with their numbers. -/
def ruleLines (colored : Bool) (number : Nat) : List Rule → List String
  | [] => []
  | rule :: rest =>
    ("  " ++ paint colored .dimmed (padFront 3 (toString number)) ++ "  " ++ rule.text) ::
      ruleLines colored (number + 1) rest

def ofRules (colored : Bool) (home : Option Path) (source : RuleSource) (rules : List Rule) :
    String :=
  ofLines (
    ["", "  📜 " ++ toString rules.length ++ " rules from " ++
        paint colored .cyan (source.text home),
      rulerLine colored] ++
    ruleLines colored 1 rules ++ [""])

def ofPresets (colored : Bool) : String :=
  ofLines (
    ["", "  📦 Built-in presets", rulerLine colored] ++
    Preset.all.map (fun preset =>
      "  " ++ paint colored .bold (padBack 10 preset.name) ++ " " ++
        toString preset.rules.length ++ " rules") ++
    ["", "  💡 Use with: " ++ paint colored .cyan "tidyrules run --preset <name>", ""])

/-! ## Reports -/

/-- How many matches a short report shows. -/
def pathsShown : Nat := 20

/-- The greatest length of a path in a report. -/
def pathWidth : Nat := 72

/-- The matches that a report shows. -/
def shownPaths (detailed : Bool) (report : Report) : List Path :=
  if detailed then report.paths else report.paths.take pathsShown

/-- A short report shows at most twenty matches. -/
theorem length_shownPaths_le (report : Report) :
    (shownPaths false report).length ≤ pathsShown := by
  simp only [shownPaths, Bool.false_eq_true, if_false, List.length_take]
  exact Nat.min_le_left ..

def headLines (colored : Bool) (home : Option Path) (report : Report) : List String :=
  ["", "🧹  " ++ if report.dryRun then "TidyRules Dry Run" else "TidyRules Cleanup",
    rulerLine colored,
    "  " ++ paint colored .cyan (displayPath home report.root) ++
      "  •  " ++ toString report.rules ++ " rules" ++
      "  •  " ++ toString report.visited ++ " checks" ++
      "  •  " ++ paint colored .dimmed (displayDuration report.seconds),
    rulerLine colored, ""]

def pathLines (colored detailed : Bool) (home : Option Path) (report : Report) : List String :=
  let marker := if report.dryRun then paint colored .yellow "○" else paint colored .green "✓"
  let shown := shownPaths detailed report
  shown.map (fun path =>
    "  " ++ marker ++ " " ++
      String.ofList (truncate pathWidth (displayPath home path).toList)) ++
  (if shown.length < report.paths.length then
    ["  " ++ paint colored .dimmed "→" ++ " ... and " ++
      toString (report.paths.length - shown.length) ++ " more (use --verbose to list all)"]
  else []) ++ [""]

def errorLines (colored : Bool) (report : Report) : List String :=
  if report.errors.isEmpty then []
  else
    ("  " ++ paint colored .yellow "⚠" ++ " " ++
        paint colored .yellow (toString report.errors.length ++ " warnings:")) ::
      report.errors.map (fun error =>
        "    " ++ paint colored .dimmed "→" ++ " " ++ paint colored .dimmed error) ++ [""]

def tailLines (colored : Bool) (report : Report) : List String :=
  let count := displayCount report.paths.length
  rulerLine colored ::
    (if report.dryRun then
      ["  ℹ️ Dry run: would delete " ++ paint colored .bold count ++ ". No files modified.",
        "  💡 Delete with: " ++ paint colored .cyan "tidyrules run --apply"]
    else
      ["  🔥 Deleted " ++ paint colored .bold (toString report.deleted) ++ " of " ++ count ++
        " matched"]) ++ [""]

def ofReport (colored detailed : Bool) (home : Option Path) (report : Report) : String :=
  ofLines (headLines colored home report ++
    if report.paths.isEmpty then ["  ✨ Nothing matched. Already tidy!", ""]
    else
      pathLines colored detailed home report ++ errorLines colored report ++
        tailLines colored report)

end Sweep.Screen
