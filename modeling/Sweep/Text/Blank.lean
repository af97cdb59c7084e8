import Sweep.Text.Split
/-!
# Blanks, words and lines

A *blank* is a character with the Unicode property `White_Space`. Rule text is laid out with blanks:
a line is trimmed, and its words are the longest runs that hold none. Only a line feed ends a line;
a carriage return right before it belongs to the line end, and every other carriage return, next
line or line separator is one more blank.

## Main results

* `isBlank_of_isWhitespace` — every blank of the ASCII range is one here as well.
* `forall_mem_words` — a word is not empty and holds no blank.
-/

namespace Sweep.Text

/-- The ranges of code points with the property `White_Space`, both ends included. -/
def blankRanges : List (Nat × Nat) :=
  [(0x09, 0x0D), (0x20, 0x20), (0x85, 0x85), (0xA0, 0xA0), (0x1680, 0x1680), (0x2000, 0x200A),
   (0x2028, 0x2029), (0x202F, 0x202F), (0x205F, 0x205F), (0x3000, 0x3000)]

def isBlank (c : Char) : Bool :=
  blankRanges.any fun range => range.1 ≤ c.toNat && c.toNat ≤ range.2

theorem isBlank_of_isWhitespace {c : Char} (h : c.isWhitespace = true) : isBlank c = true := by
  simp only [Char.isWhitespace, Bool.or_eq_true, decide_eq_true_eq] at h
  rcases h with ((h | h) | h) | h <;> subst h <;> decide

/-- A text without the blanks at its two ends. -/
def trim (cs : List Char) : List Char :=
  (((cs.dropWhile isBlank).reverse).dropWhile isBlank).reverse

/-- The words of a text: its longest runs without a blank, in order. -/
def words (cs : List Char) : List (List Char) :=
  (split isBlank cs).filter fun word => !word.isEmpty

/-- A word is not empty and holds no blank. -/
theorem forall_mem_words (cs : List Char) :
    ∀ word ∈ words cs, word ≠ [] ∧ ∀ c ∈ word, isBlank c = false := by
  intro word h
  simp only [words, List.mem_filter, Bool.not_eq_true', List.isEmpty_eq_false_iff] at h
  exact ⟨h.2, forall_mem_split cs word h.1⟩

/-- A line without the carriage return that its line feed takes along. -/
def dropReturn (line : List Char) : List Char :=
  if line.getLast? = some '\r' then line.dropLast else line

/-- Reads pieces cut at line feeds as lines: a piece that a line feed ends loses a carriage return
at its end, and what follows the last line feed is a line only if it is not empty. -/
def linesOfPieces : List (List Char) → List (List Char)
  | [] => []
  | [last] => if last.isEmpty then [] else [last]
  | piece :: rest => dropReturn piece :: linesOfPieces rest

def lines (cs : List Char) : List (List Char) :=
  linesOfPieces (split (· == '\n') cs)

end Sweep.Text
