import Sweep.Number.Digit
/-!
# Quoted strings of TOML

TOML quotes a string in four ways: between quotes or apostrophes, on one line or, with the mark
written three times, on several. Between apostrophes every character stands for itself; between
quotes a backslash begins an escape. A line break right after a mark written three times does not
count.

`encode` chooses the plainest way that fits and writes the string, `decode?` reads one from the
front of a text. Of the control characters, a tab may stand for itself and a line feed may on
several lines; all others need an escape.

## Main results

* `length_readEscape_lt`, `length_afterBreak?_lt` — what is read gets shorter, so reading ends.
-/

namespace Sweep.Toml.Quoted

open Number

/-! ## Which characters stand for themselves -/

/-- Whether a character needs an escape wherever it stands. -/
def isControl (c : Char) : Bool :=
  (c.toNat < 0x20 && c != '\t' && c != '\n') || c.toNat = 0x7F

/-- Whether a character may stand for itself on one line. -/
def isPlain (c : Char) : Bool :=
  !isControl c && c != '\n'

/-! ## Writing -/

/-- How often a mark is written around a string. -/
inductive Marks where
  /-- Once: the string is on one line. -/
  | once
  /-- Three times: the string may go over several lines. -/
  | thrice
deriving DecidableEq, Repr

/-- The ways to quote a string. -/
inductive Style where
  /-- Between quotes, with escapes. -/
  | escaped (marks : Marks)
  /-- Between apostrophes, as it is. -/
  | verbatim (marks : Marks)
deriving DecidableEq, Repr

/-- The length of the longest run of a character. -/
def longestRun (mark : Char) (cs : List Char) : Nat :=
  go 0 cs
where
  /-- The longest run, where one of the given length has just been read. -/
  go (run : Nat) : List Char → Nat
    | [] => run
    | c :: rest => if c = mark then go (run + 1) rest else max run (go 0 rest)

/-- The style in which a string is written. -/
def styleOf (cs : List Char) : Style :=
  let broken := cs.contains '\n'
  let backslashed := cs.contains '\\'
  let quotes := longestRun '"' cs
  let apostrophes := longestRun '\'' cs
  if cs.any isControl then .escaped (if broken then .thrice else .once)
  else if !backslashed && quotes = 0 && !broken then .escaped .once
  else if apostrophes = 0 && !broken then .verbatim .once
  else if !backslashed && quotes < 3 then .escaped .thrice
  else if apostrophes < 3 then .verbatim .thrice
  else .escaped (if broken then .thrice else .once)

/-- The escape of a character other than a quote or a line feed, if it needs one between quotes. -/
def escape? (c : Char) : Option (List Char) :=
  if c = '\x08' then some ['\\', 'b']
  else if c = '\t' then some ['\\', 't']
  else if c = '\x0c' then some ['\\', 'f']
  else if c = '\r' then some ['\\', 'r']
  else if c = '\\' then some ['\\', '\\']
  else if isControl c then
    some ['\\', 'u', '0', '0', hexDigit .capital (c.toNat / 16),
      hexDigit .capital (c.toNat % 16)]
  else none

/-- What stands between quotes for a string. With the mark written once every quote and line feed
has an escape; with the mark written three times only the third quote in a row does. `run` quotes
stand right before. -/
def escapedBody (marks : Marks) (run : Nat) : List Char → List Char
  | [] => []
  | '"' :: rest =>
    if marks = .once || run = 2 then '\\' :: '"' :: escapedBody marks 0 rest
    else '"' :: escapedBody marks (run + 1) rest
  | '\n' :: rest =>
    (if marks = .once then ['\\', 'n'] else ['\n']) ++ escapedBody marks 0 rest
  | c :: rest => (escape? c).getD [c] ++ escapedBody marks 0 rest

/-- Puts a mark written three times around the body of a string, and a line break in front if the
string has one. -/
def surround (mark : Char) (cs body : List Char) : List Char :=
  [mark, mark, mark] ++ (if cs.contains '\n' then ['\n'] else []) ++ body ++ [mark, mark, mark]

/-- A string in quotes. -/
def encode (cs : List Char) : List Char :=
  match styleOf cs with
  | .escaped .once => ['"'] ++ escapedBody .once 0 cs ++ ['"']
  | .escaped .thrice => surround '"' cs (escapedBody .thrice 0 cs)
  | .verbatim .once => ['\''] ++ cs ++ ['\'']
  | .verbatim .thrice => surround '\'' cs cs

/-! ## Reading -/

/-- What is read from the front of a text, and the text left. -/
abbrev Read (α : Type) := Option (α × List Char)

/-- The character whose code point some digits of base sixteen give. -/
def hexChar? (digits : List Char) : Option Char := do
  let n ← digitsIn? 16 digits
  if n.isValidChar then some (Char.ofNat n) else none

/-- Reads an escape after its backslash. -/
def readEscape : List Char → Read Char
  | 'b' :: rest => some ('\x08', rest)
  | 't' :: rest => some ('\t', rest)
  | 'n' :: rest => some ('\n', rest)
  | 'f' :: rest => some ('\x0c', rest)
  | 'r' :: rest => some ('\r', rest)
  | '"' :: rest => some ('"', rest)
  | '\\' :: rest => some ('\\', rest)
  | 'u' :: a :: b :: c :: d :: rest => (hexChar? [a, b, c, d]).map (·, rest)
  | 'U' :: a :: b :: c :: d :: e :: f :: g :: h :: rest =>
    (hexChar? [a, b, c, d, e, f, g, h]).map (·, rest)
  | _ => none

theorem length_readEscape_lt {cs rest : List Char} {c : Char}
    (h : readEscape cs = some (c, rest)) : rest.length < cs.length := by
  unfold readEscape at h
  split at h <;> simp_all <;> grind

/-- The rest of a text after a line break, if it begins with one. -/
def afterBreak? : List Char → Option (List Char)
  | '\n' :: rest => some rest
  | '\r' :: '\n' :: rest => some rest
  | _ => none

theorem length_afterBreak?_lt {cs rest : List Char} (h : afterBreak? cs = some rest) :
    rest.length < cs.length := by
  unfold afterBreak? at h
  split at h
  · cases h
    simp only [List.length_cons]
    omega
  · cases h
    simp only [List.length_cons]
    omega
  · cases h

/-- Whether a character separates words on a line. -/
def isSpace (c : Char) : Bool :=
  c = ' ' || c = '\t'

/-- A text without spaces and line breaks at its front. -/
def skipLayout : List Char → List Char
  | ' ' :: rest => skipLayout rest
  | '\t' :: rest => skipLayout rest
  | '\n' :: rest => skipLayout rest
  | '\r' :: '\n' :: rest => skipLayout rest
  | cs => cs

theorem length_skipLayout_le (cs : List Char) : (skipLayout cs).length ≤ cs.length := by
  fun_induction skipLayout cs with
  | case1 rest ih => exact Nat.le_succ_of_le ih
  | case2 rest ih => exact Nat.le_succ_of_le ih
  | case3 rest ih => exact Nat.le_succ_of_le ih
  | case4 rest ih => exact Nat.le_succ_of_le (Nat.le_succ_of_le ih)
  | case5 => exact Nat.le_refl _

/-- Reads on one line up to the quote that closes a string. -/
def readLine : List Char → Read (List Char)
  | [] => none
  | '"' :: rest => some ([], rest)
  | '\\' :: rest =>
    match _h : readEscape rest with
    | none => none
    | some (c, rest) => (readLine rest).map fun (cs, rest) => (c :: cs, rest)
  | c :: rest => if isPlain c then (readLine rest).map fun (cs, rest) => (c :: cs, rest) else none
termination_by cs => cs.length
decreasing_by
  · have := length_readEscape_lt _h
    simp only [List.length_cons]
    omega
  · simp only [List.length_cons]
    omega

/-- Reads up to the three quotes that close a string. Up to two quotes right before them belong to
the string. A backslash at the end of a line takes out the layout that follows. -/
def readLines : List Char → Read (List Char)
  | [] => none
  | '"' :: '"' :: '"' :: '"' :: '"' :: rest => some (['"', '"'], rest)
  | '"' :: '"' :: '"' :: '"' :: rest => some (['"'], rest)
  | '"' :: '"' :: '"' :: rest => some ([], rest)
  | '\\' :: rest =>
    match _h : afterBreak? (rest.dropWhile isSpace) with
    | some next => readLines (skipLayout next)
    | none =>
      match _h' : readEscape rest with
      | none => none
      | some (c, rest) => (readLines rest).map fun (cs, rest) => (c :: cs, rest)
  | '\n' :: rest => (readLines rest).map fun (cs, rest) => ('\n' :: cs, rest)
  | '\r' :: '\n' :: rest => (readLines rest).map fun (cs, rest) => ('\n' :: cs, rest)
  | c :: rest =>
    if isPlain c then (readLines rest).map fun (cs, rest) => (c :: cs, rest) else none
termination_by cs => cs.length
decreasing_by
  · have h₁ := length_skipLayout_le next
    have h₂ := length_afterBreak?_lt _h
    have h₃ := (List.dropWhile_sublist isSpace (l := rest)).length_le
    simp only [List.length_cons]
    omega
  · have := length_readEscape_lt _h'
    simp only [List.length_cons]
    omega
  · simp only [List.length_cons]
    omega
  · simp only [List.length_cons]
    omega
  · simp only [List.length_cons]
    omega

/-- Reads on one line up to the apostrophe that closes a string. -/
def readVerbatim : List Char → Read (List Char)
  | [] => none
  | '\'' :: rest => some ([], rest)
  | c :: rest =>
    if isPlain c then (readVerbatim rest).map fun (cs, rest) => (c :: cs, rest) else none

/-- Reads up to the three apostrophes that close a string. -/
def readVerbatimLines : List Char → Read (List Char)
  | [] => none
  | '\'' :: '\'' :: '\'' :: '\'' :: '\'' :: rest => some (['\'', '\''], rest)
  | '\'' :: '\'' :: '\'' :: '\'' :: rest => some (['\''], rest)
  | '\'' :: '\'' :: '\'' :: rest => some ([], rest)
  | '\n' :: rest => (readVerbatimLines rest).map fun (cs, rest) => ('\n' :: cs, rest)
  | '\r' :: '\n' :: rest => (readVerbatimLines rest).map fun (cs, rest) => ('\n' :: cs, rest)
  | c :: rest =>
    if isPlain c then (readVerbatimLines rest).map fun (cs, rest) => (c :: cs, rest) else none

/-- A text without a line break at its front. -/
def dropBreak (cs : List Char) : List Char :=
  (afterBreak? cs).getD cs

/-- Reads a string on one line. -/
def decodeLine? : List Char → Read (List Char)
  | '"' :: rest => readLine rest
  | '\'' :: rest => readVerbatim rest
  | _ => none

/-- Reads a string in any of the four ways. -/
def decode? : List Char → Read (List Char)
  | '"' :: '"' :: '"' :: rest => readLines (dropBreak rest)
  | '\'' :: '\'' :: '\'' :: rest => readVerbatimLines (dropBreak rest)
  | cs => decodeLine? cs

end Sweep.Toml.Quoted
