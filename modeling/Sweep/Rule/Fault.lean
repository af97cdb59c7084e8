import Sweep.Rule.Basic
/-!
# What can be wrong with rule text

A fault of one line says at which word the rule language was left and what it would have accepted
there. A fault of a whole text adds the line.
-/

namespace Sweep.Rule

/-- What the rule language accepts at some point of a line. -/
inductive Expected where
  /-- After the target. -/
  | whenOrEnd
  /-- After a predicate. -/
  | andOrEnd
  /-- Where a predicate must begin, and the line ends. -/
  | condition
  /-- Where a predicate must begin, and something else stands there. -/
  | predicate
  /-- After a vicinity, where something else stands. -/
  | existence
  /-- After a vicinity, where the line ends. -/
  | existenceAfter (vicinity : Vicinity)
deriving DecidableEq, Repr

/-- How a message names what was expected. -/
def Expected.text : Expected → String
  | whenOrEnd => "'when' or end of line"
  | andOrEnd => "'and' or end of line"
  | condition => "a condition"
  | predicate => "'exists', 'not' or a location"
  | existence => "'exists'"
  | existenceAfter vicinity => "'exists' after '" ++ vicinity.word ++ "'"

/-- Why a line is no rule. -/
inductive LineFault where
  | unknownAction (found : String)
  | missingTarget (action : String)
  /-- The line ends where a question needs its pattern. -/
  | missingPattern
  /-- A word stands where the language has something else. -/
  | unexpectedWord (expected : Expected) (found : String)
  | unexpectedEnd (expected : Expected)
deriving DecidableEq, Repr

def LineFault.message : LineFault → String
  | unknownAction found => "unknown action '" ++ found ++ "', expected 'delete'"
  | missingTarget action => "missing target pattern after '" ++ action ++ "'"
  | missingPattern => "missing pattern after 'exists'"
  | unexpectedWord expected found => "expected " ++ expected.text ++ ", found '" ++ found ++ "'"
  | unexpectedEnd expected => "expected " ++ expected.text ++ ", found end of line"

/-- Why a text is no list of rules: its first line that is no rule. -/
structure TextFault where
  /-- The number of the line, counted from one. -/
  line : Nat
  /-- The line without the blanks at its ends. -/
  text : String
  fault : LineFault
deriving DecidableEq, Repr

def TextFault.message (fault : TextFault) : String :=
  "line " ++ toString fault.line ++ ": " ++ fault.fault.message ++ " (in `" ++ fault.text ++ "`)"

end Sweep.Rule
