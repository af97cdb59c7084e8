import Sweep.Glob
/-!
# Rules

A rule names what to delete in a directory and the condition under which it applies there. A
condition asks whether entries with certain names exist in the directories *around* the one in
question, and combines such questions with negation and conjunction.

The rule language can only write conjunctions of (repeatedly negated) questions, but any tree is a
condition. `Rule.text` writes a rule in the rule language; a tree that the language lacks is written
as the nearest thing, without parentheses.

## Main results

* `Action.ofWord?_word`, `Vicinity.ofWord?_word` — keywords read back.
-/

namespace Sweep

/-- What a rule does with the paths that its target matches. -/
inductive Action where
  | delete
deriving DecidableEq, Repr

def Action.word : Action → String
  | delete => "delete"

def Action.ofWord? (word : String) : Option Action :=
  if word = "delete" then some .delete else none

theorem Action.ofWord?_word (action : Action) : ofWord? action.word = some action := by
  cases action; rfl

/-- Which directories around a directory a question is about. -/
inductive Vicinity where
  | here
  /-- The directory that holds it. -/
  | parent
  /-- All directories above it, up to the root. -/
  | parents
  /-- The directories in it. -/
  | child
  /-- The directories below it, at any depth. -/
  | children
  /-- The other directories in the directory that holds it. -/
  | sibling
deriving DecidableEq, Repr

def Vicinity.all : List Vicinity :=
  [.here, .parent, .parents, .child, .children, .sibling]

def Vicinity.word : Vicinity → String
  | here => "here"
  | parent => "parent"
  | parents => "parents"
  | child => "child"
  | children => "children"
  | sibling => "sibling"

def Vicinity.ofWord? (word : String) : Option Vicinity :=
  all.find? (·.word = word)

theorem Vicinity.ofWord?_word (vicinity : Vicinity) : ofWord? vicinity.word = some vicinity := by
  cases vicinity <;> rfl

/-- A condition on the directories around a directory. -/
inductive Condition where
  /-- Some directory of the vicinity has an entry whose name matches the pattern. -/
  | present (vicinity : Vicinity) (pattern : Glob)
  | negated (condition : Condition)
  | every (conditions : List Condition)
deriving BEq, Repr

structure Rule where
  /-- What happens to the target. -/
  action : Action
  /-- Which paths below a directory the rule is about. -/
  target : Glob
  /-- When it applies to a directory; always, if there is none. -/
  condition : Option Condition
deriving BEq, Repr

/-- Texts one after the other with a separator between neighbours. -/
def joinTexts (separator : String) : List String → String
  | [] => ""
  | [text] => text
  | text :: next :: rest => text ++ separator ++ joinTexts separator (next :: rest)

mutual

/-- A condition in the rule language. The vicinity is always written. -/
def Condition.text : Condition → String
  | .present vicinity pattern => vicinity.word ++ " exists " ++ pattern.source
  | .negated condition => "not " ++ condition.text
  | .every conditions => joinTexts " and " (conditionTexts conditions)
termination_by structural condition => condition

/-- The conditions of a conjunction in the rule language. -/
def conditionTexts : List Condition → List String
  | [] => []
  | condition :: rest => condition.text :: conditionTexts rest
termination_by structural conditions => conditions

end

/-- A rule in the rule language. -/
def Rule.text (rule : Rule) : String :=
  rule.action.word ++ " " ++ rule.target.source ++
    match rule.condition with
    | none => ""
    | some condition => " when " ++ condition.text

end Sweep
