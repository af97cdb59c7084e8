import Sweep.Toml.Quoted
import Sweep.Toml.Scalar
/-!
# Reading TOML

A text is a list of lines, each with a name and its value, a header, or nothing, and a comment at
its end if need be. Arrays may go over several lines; tables between braces may not. Values may be
nested below `depthLimit` deep, and a dotted name must have fewer parts than that.

The lines are added one after the other to the document (`Sweep.Toml.Value`), each under the header
that came last. A text that breaks any rule has no document.
-/

namespace Sweep.Toml

open Quoted

/-- What nested values and dotted names must stay below. -/
def depthLimit : Nat := 80

/-- Whether a character may stand in a comment. -/
def isCommentChar (c : Char) : Bool :=
  c = '\t' || (0x20 ≤ c.toNat && c.toNat ≠ 0x7F)

/-- A text without spaces at its front. -/
def skipSpace (cs : List Char) : List Char :=
  cs.dropWhile isSpace

/-- A text without layout and comments at its front. -/
def skipVoid : List Char → List Char
  | ' ' :: rest => skipVoid rest
  | '\t' :: rest => skipVoid rest
  | '\n' :: rest => skipVoid rest
  | '\r' :: '\n' :: rest => skipVoid rest
  | '#' :: rest => skipVoid (rest.dropWhile isCommentChar)
  | cs => cs
termination_by cs => cs.length
decreasing_by
  · exact Nat.lt_succ_self _
  · exact Nat.lt_succ_self _
  · exact Nat.lt_succ_self _
  · exact Nat.lt_succ_of_lt (Nat.lt_succ_self _)
  · exact Nat.lt_succ_of_le (List.dropWhile_sublist isCommentChar).length_le

/-- The rest of a text after the end of a line: spaces, a comment, and a line break or the end. -/
def afterLine? (cs : List Char) : Option (List Char) :=
  let rest := match skipSpace cs with
    | '#' :: comment => comment.dropWhile isCommentChar
    | rest => rest
  if rest.isEmpty then some [] else afterBreak? rest

/-- Whether a character may stand in a name without quotes. -/
def isBare (c : Char) : Bool :=
  c.isAlphanum || c = '_' || c = '-'

/-- Reads one part of a name. -/
def readPart (cs : List Char) : Read String :=
  match cs with
  | '"' :: _ => (decodeLine? cs).map fun (part, rest) => (String.ofList part, rest)
  | '\'' :: _ => (decodeLine? cs).map fun (part, rest) => (String.ofList part, rest)
  | _ =>
    let part := cs.takeWhile isBare
    if part.isEmpty then none else some (String.ofList part, cs.drop part.length)

/-- Reads the parts of a name; `fuel` bounds how many there are. -/
def readParts : Nat → List Char → Option (List String × List Char)
  | 0, _ => none
  | fuel + 1, cs => do
    let (part, rest) ← readPart (skipSpace cs)
    match skipSpace rest with
    | '.' :: rest =>
      let (parts, rest) ← readParts fuel rest
      return (part :: parts, rest)
    | rest => return ([part], rest)

/-- Reads a name with spaces around it. -/
def readName (cs : List Char) : Read (List String) :=
  readParts (depthLimit - 1) cs

/-- Whether a character can belong to an unquoted value. -/
def isScalarChar (c : Char) : Bool :=
  c.isAlphanum || c = '+' || c = '-' || c = '_' || c = '.' || c = ':'

/-- Reads an unquoted value. A space between a date and a time of day belongs to it. -/
def readScalar (cs : List Char) : Read Value :=
  let front := cs.takeWhile isScalarChar
  let rest := cs.drop front.length
  let joined := match rest with
    | ' ' :: c :: _ => isDate front && isDecimal c
    | _ => false
  if joined then
    let time := (rest.drop 1).takeWhile isScalarChar
    (scalar? (front ++ ' ' :: time)).map (·, rest.drop (1 + time.length))
  else (scalar? front).map (·, rest)

mutual

/-- Reads a value. `depth` is how deep values may still be nested. -/
def readValue (depth : Nat) (cs : List Char) : Read Value :=
  match cs, depth with
  | '"' :: _, _ => (decode? cs).map fun (text, rest) => (.string (String.ofList text), rest)
  | '\'' :: _, _ => (decode? cs).map fun (text, rest) => (.string (String.ofList text), rest)
  | '[' :: rest, depth + 1 => readItems depth rest.length rest []
  | '{' :: rest, depth + 1 =>
    match skipSpace rest with
    | '}' :: rest => some (.table .braced [], rest)
    | rest => readPairs depth rest.length rest []
  | '[' :: _, 0 => none
  | '{' :: _, 0 => none
  | _, _ => readScalar cs
termination_by (depth, 0)

/-- Reads the values of an array from behind a bracket or comma; the ones before are given last one
first. `fuel` bounds how many there are. -/
def readItems (depth fuel : Nat) (cs : List Char) (before : List Value) : Read Value :=
  match skipVoid cs with
  | ']' :: rest => some (.array before.reverse, rest)
  | cs =>
    match fuel with
    | 0 => none
    | fuel + 1 =>
      match readValue depth cs with
      | none => none
      | some (value, rest) =>
        match skipVoid rest with
        | ',' :: rest => readItems depth fuel rest (value :: before)
        | ']' :: rest => some (.array (value :: before).reverse, rest)
        | _ => none
termination_by (depth, fuel + 1)

/-- Reads the pairs of a table between braces from behind a brace or comma, and adds them to those
before. `fuel` bounds how many there are. -/
def readPairs (depth fuel : Nat) (cs : List Char) (before : Entries) : Read Value :=
  match fuel with
  | 0 => none
  | fuel + 1 =>
    match readName cs with
    | some (parts, '=' :: rest) =>
      match readValue depth (skipSpace rest) with
      | none => none
      | some (value, rest) =>
        match putDotted .braced parts value before with
        | none => none
        | some entries =>
          match skipSpace rest with
          | ',' :: rest => readPairs depth fuel rest entries
          | '}' :: rest => some (.table .braced entries, rest)
          | _ => none
    | _ => none
termination_by (depth, fuel + 1)

end

/-- A document that is being read. -/
structure Draft where
  /-- What has been read. -/
  entries : Entries
  /-- The header that came last. -/
  header : List String

/-- Reads a header and adds its table. -/
def readHeader (draft : Draft) (cs : List Char) : Option (Draft × List Char) := do
  match cs with
  | '[' :: rest =>
    match ← readName rest with
    | (parts, ']' :: ']' :: rest) => return (⟨← openNext parts draft.entries, parts⟩, rest)
    | _ => none
  | _ =>
    match ← readName cs with
    | (parts, ']' :: rest) => return (⟨← openTable parts draft.entries, parts⟩, rest)
    | _ => none

/-- Reads a name and its value and adds them under the header that came last. -/
def readPair (draft : Draft) (cs : List Char) : Option (Draft × List Char) := do
  match ← readName cs with
  | (parts, '=' :: rest) =>
    let (value, rest) ← readValue (depthLimit - 1) (skipSpace rest)
    return ({ draft with entries := ← putUnder draft.header parts value draft.entries }, rest)
  | _ => none

/-- Reads lines; `fuel` bounds how many there are. -/
def readDraft : Nat → Draft → List Char → Option Draft
  | 0, _, _ => none
  | fuel + 1, draft, cs =>
    match skipSpace cs with
    | [] => some draft
    | '[' :: rest => do
      let (draft, rest) ← readHeader draft rest
      readDraft fuel draft (← afterLine? rest)
    | '#' :: rest => do readDraft fuel draft (← afterLine? ('#' :: rest))
    | '\n' :: rest => readDraft fuel draft rest
    | '\r' :: '\n' :: rest => readDraft fuel draft rest
    | cs => do
      let (draft, rest) ← readPair draft cs
      readDraft fuel draft (← afterLine? rest)

/-- Reads a document. A byte order mark at its front does not count. -/
def read? (text : String) : Option Entries :=
  let cs := match text.toList with
    | '\uFEFF' :: rest => rest
    | cs => cs
  (readDraft (cs.length + 1) ⟨[], []⟩ cs).map (·.entries)

end Sweep.Toml
