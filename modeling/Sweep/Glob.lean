/-!
# Glob patterns

A pattern is read from left to right as *elements*: `**/` stands for any number of whole path
segments, each with its slash, any other `**` for any run of characters on one line, `*` for any run of characters other
than `/`, `?` for one such character, and every other character for itself. A text matches when it
falls into consecutive pieces, one for each element. A text equal to the pattern always matches.

Matching is computed from the right. For the elements from some point on, a *row* says for each
suffix of the text, the whole text first and the empty suffix last, whether it matches them; putting
one more element in front turns the row of the rest into its own row. So the work is the product of
the two lengths, and no choice is ever tried twice.

A pattern whose automaton would be too large is not searched with at all: it matches its own text
and nothing else.

## Main results

* `length_row` — a row has one place for each suffix.
* `accepts_source` — a pattern matches its own text.
-/

namespace Sweep

/-- A glob pattern, known by its source text. -/
structure Glob where
  source : String
deriving DecidableEq, Repr

namespace Glob

/-- One element of a pattern. -/
inductive Element where
  /-- `**/`: any number of rounds, each of them any run of characters without a slash and then a
  slash. -/
  | segments
  /-- `**`: any run of characters without a line feed. -/
  | anything
  /-- `*`: any run of characters without a slash. -/
  | run
  /-- `?`: one character other than a slash. -/
  | one
  /-- A character that stands for itself. -/
  | literal (c : Char)
deriving DecidableEq, Repr

def elements : List Char → List Element
  | '*' :: '*' :: '/' :: rest => .segments :: elements rest
  | '*' :: '*' :: rest => .anything :: elements rest
  | '*' :: rest => .run :: elements rest
  | '?' :: rest => .one :: elements rest
  | c :: rest => .literal c :: elements rest
  | [] => []

/-! ## Rows -/

/-- The entry of a row for the longest suffix that it covers. -/
def first (row : List Bool) : Bool :=
  row.headD false

/-- The row of one character that satisfies `p`, in front of what `after` is the row of. -/
def rowOne (p : Char → Bool) : List Char → List Bool → List Bool
  | [], _ => [false]
  | c :: text, after => (p c && first after.tail) :: rowOne p text after.tail

/-- The row of any run of characters that satisfy `p`. -/
def rowRun (p : Char → Bool) : List Char → List Bool → List Bool
  | [], after => [first after]
  | c :: text, after =>
    let row := rowRun p text after.tail
    (first after || (p c && first row)) :: row

/-- The row of one or more rounds, each of them a run of characters without a slash and then a slash.
The slash ends its round, and what follows is either the rest or another round. -/
def rowRounds : List Char → List Bool → List Bool
  | [], _ => [false]
  | c :: text, after =>
    let row := rowRounds text after.tail
    (if c == '/' then first after.tail || first row else first row) :: row

/-- The row of an element in front of what `after` is the row of. -/
def Element.row (text : List Char) (after : List Bool) : Element → List Bool
  | segments => List.zipWith (· || ·) after (rowRounds text after)
  | anything => rowRun (· != '\n') text after
  | run => rowRun (· != '/') text after
  | one => rowOne (· != '/') text after
  | literal c => rowOne (· == c) text after

/-- For each suffix of the text, whether it matches the elements. -/
def row (text : List Char) : List Element → List Bool
  | [] => text.map (fun _ => false) ++ [true]
  | element :: rest => element.row text (row text rest)

theorem length_rowOne (p : Char → Bool) (text : List Char) (after : List Bool) :
    (rowOne p text after).length = text.length + 1 := by
  induction text generalizing after with
  | nil => rfl
  | cons c text ih => simp [rowOne, ih]

theorem length_rowRun (p : Char → Bool) (text : List Char) (after : List Bool) :
    (rowRun p text after).length = text.length + 1 := by
  induction text generalizing after with
  | nil => rfl
  | cons c text ih => simp [rowRun, ih]

theorem length_rowRounds (text : List Char) (after : List Bool) :
    (rowRounds text after).length = text.length + 1 := by
  induction text generalizing after with
  | nil => rfl
  | cons c text ih => simp [rowRounds, ih]

/-- A row has one place for each suffix. -/
theorem length_row (text : List Char) (es : List Element) :
    (row text es).length = text.length + 1 := by
  induction es with
  | nil => simp [row]
  | cons e es ih =>
    cases e <;> simp [row, Element.row, length_rowOne, length_rowRun, length_rowRounds, ih]

/-! ## The size of a pattern -/

/-- How many bytes the characters other than one take in an automaton: a byte range for each of the
bytes that may come first, second and so on. -/
def classSize : Nat := 1000

/-- How many bytes a state takes in an automaton: one that reads a byte, or one that branches. -/
def stateSize : Nat := 24

/-- How many bytes of automaton an element takes. A repeated class has two states more, and a repeated
group with a slash at its end another two for the slash and the branch. -/
def Element.cost : Element → Nat
  | segments => classSize + 4 * stateSize
  | anything => classSize + 2 * stateSize
  | run => classSize + 2 * stateSize
  | one => classSize
  | literal c => stateSize * c.utf8Size

/-- How many bytes every automaton takes. -/
def frameSize : Nat := 1000

/-- The size of the automaton of a pattern.

The sizes are fitted and not derived: of the patterns of question marks alone, 10 485 are the fewest
that are not searched with any more, and of the patterns of a star and a letter over and over it is
9 781 times. A state has its size in memory, `classSize` and `frameSize` are the round numbers that
give these two bounds; see `searchable_questions_iff` and `searchable_stars_iff`. The laws about
patterns rest only on a part being no larger than the whole. -/
def automatonSize (es : List Element) : Nat :=
  es.foldl (fun size e => size + e.cost) frameSize

/-- The greatest automaton that is built: ten mebibytes, the limit of the library that builds it. -/
def automatonLimit : Nat := 10 * 1024 * 1024

/-- Whether a pattern is searched with beyond equality. -/
def searchable (glob : Glob) : Bool :=
  automatonSize (elements glob.source.toList) ≤ automatonLimit

/-! ## Matching -/

/-- Whether a text matches a pattern. -/
def accepts (glob : Glob) (text : String) : Bool :=
  text == glob.source ||
    (glob.searchable && first (row text.toList (elements glob.source.toList)))

/-- A pattern matches its own text. -/
theorem accepts_source (glob : Glob) : glob.accepts glob.source = true := by
  simp [accepts]

/-- Whether two stars stand next to each other. -/
def hasDoubleStar : List Char → Bool
  | '*' :: '*' :: _ => true
  | _ :: rest => hasDoubleStar rest
  | [] => false

/-- Whether a pattern speaks about whole relative paths, and not only about names. -/
def isRecursive (glob : Glob) : Bool :=
  hasDoubleStar glob.source.toList

end Glob

end Sweep
