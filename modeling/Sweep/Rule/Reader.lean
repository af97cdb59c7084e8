import Sweep.Rule.Fault
import Sweep.Text.Blank
/-!
# Reading rules

The rule language has one rule on a line:

    rule      =  "delete" TARGET ["when" predicate {"and" predicate}]
    predicate =  "not" predicate  |  [VICINITY] "exists" PATTERN

Words are separated by blanks. Any word can be a target or a pattern, keywords included. A line
whose first character other than a blank is `#`, and a line of blanks, hold no rule.

## Main results

* `length_ofPredicate_lt` — a predicate takes at least one word, so reading a line ends.
-/

namespace Sweep.Rule

open Text

/-- The words of a line, none for a comment. -/
def wordsOfLine (line : List Char) : List (List Char) :=
  let line := trim line
  if line.head? = some '#' then [] else words line

/-- The words of a line as strings. -/
def tokens (line : String) : List String :=
  (wordsOfLine line.toList).map String.ofList

/-- Reads the pattern of a question about a vicinity. -/
def ofPattern (vicinity : Vicinity) : List String → Except LineFault (Condition × List String)
  | [] => .error .missingPattern
  | pattern :: rest => .ok (.present vicinity ⟨pattern⟩, rest)

/-- Reads one predicate from the front of a line: its condition and the words left. -/
def ofPredicate : List String → Except LineFault (Condition × List String)
  | [] => .error (.unexpectedEnd .condition)
  | word :: rest =>
    if word = "not" then
      match ofPredicate rest with
      | .error fault => .error fault
      | .ok (condition, left) => .ok (.negated condition, left)
    else if word = "exists" then ofPattern .here rest
    else match Vicinity.ofWord? word with
      | none => .error (.unexpectedWord .predicate word)
      | some vicinity =>
        match rest with
        | [] => .error (.unexpectedEnd (.existenceAfter vicinity))
        | next :: rest =>
          if next = "exists" then ofPattern vicinity rest
          else .error (.unexpectedWord .existence next)

theorem length_ofPattern_lt {vicinity : Vicinity} {words : List String}
    {condition : Condition} {left : List String}
    (h : ofPattern vicinity words = .ok (condition, left)) : left.length < words.length := by
  cases words with
  | nil => simp [ofPattern] at h
  | cons pattern rest =>
    simp only [ofPattern, Except.ok.injEq, Prod.mk.injEq] at h
    simp [← h.2]

/-- A predicate takes at least one word. -/
theorem length_ofPredicate_lt {words : List String} {condition : Condition} {left : List String}
    (h : ofPredicate words = .ok (condition, left)) : left.length < words.length := by
  induction words generalizing condition left with
  | nil => simp [ofPredicate] at h
  | cons word rest ih =>
    rw [ofPredicate] at h
    split at h
    · split at h
      · simp at h
      · rename_i inner kept hrest
        simp only [Except.ok.injEq, Prod.mk.injEq] at h
        exact h.2 ▸ Nat.lt_succ_of_lt (ih hrest)
    · split at h
      · exact Nat.lt_succ_of_lt (length_ofPattern_lt h)
      · split at h
        · simp at h
        · split at h
          · simp at h
          · split at h
            · have := length_ofPattern_lt h
              simp only [List.length_cons]
              omega
            · simp at h

/-- Reads predicates joined by `and` up to the end of the line. -/
def ofPredicates (words : List String) : Except LineFault (List Condition) :=
  match _h : ofPredicate words with
  | .error fault => .error fault
  | .ok (condition, []) => .ok [condition]
  | .ok (condition, word :: rest) =>
    if word = "and" then
      match ofPredicates rest with
      | .error fault => .error fault
      | .ok conditions => .ok (condition :: conditions)
    else .error (.unexpectedWord .andOrEnd word)
termination_by words.length
decreasing_by
  have := length_ofPredicate_lt _h
  simp only [List.length_cons] at this
  omega

/-- One condition stands for itself; several are a conjunction. -/
def conjunction : List Condition → Condition
  | [condition] => condition
  | conditions => .every conditions

/-- Reads what follows `when`. -/
def ofCondition (words : List String) : Except LineFault Condition :=
  (ofPredicates words).map conjunction

/-- Reads the words of one line. A line without words holds no rule. -/
def ofTokens? : List String → Except LineFault (Option Rule)
  | [] => .ok none
  | word :: rest =>
    match Action.ofWord? word with
    | none => .error (.unknownAction word)
    | some action =>
      match rest with
      | [] => .error (.missingTarget word)
      | [target] => .ok (some ⟨action, ⟨target⟩, none⟩)
      | target :: word :: rest =>
        if word = "when" then
          (ofCondition rest).map fun condition => some ⟨action, ⟨target⟩, some condition⟩
        else .error (.unexpectedWord .whenOrEnd word)

/-- Reads lines, the first of which has the given number. -/
def ofLines (number : Nat) : List (List Char) → Except TextFault (List Rule)
  | [] => .ok []
  | line :: rest =>
    match ofTokens? ((wordsOfLine line).map String.ofList) with
    | .error fault => .error ⟨number, String.ofList (trim line), fault⟩
    | .ok none => ofLines (number + 1) rest
    | .ok (some rule) => (ofLines (number + 1) rest).map (rule :: ·)

/-- Reads a text of rules. The first line at fault decides, and then there are no rules. -/
def ofText (text : String) : Except TextFault (List Rule) :=
  ofLines 1 (lines text.toList)

end Sweep.Rule
