import Sweep.Number.Digit
/-!
# JSON text

Writes JSON values over several lines: each item and each member has a line of its own, two spaces
further in than what holds it, while an empty array or object stays on one line. In strings only
quotes, backslashes and control characters below the space have escapes.

## Main results

* `escape_of_plain` — a character that needs no escape stands for itself.
-/

namespace Sweep.Text

inductive Json where
  /-- A number or truth value, as it is written. -/
  | literal (text : String)
  | string (text : String)
  | array (items : List Json)
  /-- An object with its members in order. -/
  | object (members : List (String × Json))

namespace Json

/-- A character as it is written in a string. -/
def escape (c : Char) : List Char :=
  if c = '"' then ['\\', '"']
  else if c = '\\' then ['\\', '\\']
  else if c = '\x08' then ['\\', 'b']
  else if c = '\t' then ['\\', 't']
  else if c = '\n' then ['\\', 'n']
  else if c = '\x0c' then ['\\', 'f']
  else if c = '\r' then ['\\', 'r']
  else if c.toNat < 0x20 then
    ['\\', 'u', '0', '0', Number.hexDigit .small (c.toNat / 16),
      Number.hexDigit .small (c.toNat % 16)]
  else [c]

/-- A character that needs no escape stands for itself. -/
theorem escape_of_plain {c : Char} (hquote : c ≠ '"') (hback : c ≠ '\\') (h : 0x20 ≤ c.toNat) :
    escape c = [c] := by
  have hne : ∀ d : Char, d.toNat < 0x20 → c ≠ d := fun d hd heq => by
    subst heq
    omega
  simp only [escape, hquote, hback, hne '\x08' (by decide), hne '\t' (by decide),
    hne '\n' (by decide), hne '\x0c' (by decide), hne '\r' (by decide), if_false]
  rw [if_neg (by omega)]

/-- A string between quotes. -/
def quote (text : String) : String :=
  "\"" ++ String.ofList (text.toList.flatMap escape) ++ "\""

/-- A line break and the spaces before what is so far in. -/
def indent (depth : Nat) : String :=
  "\n" ++ String.ofList (List.replicate (2 * depth) ' ')

/-- Lines between two brackets. -/
def enclose (before after : String) (depth : Nat) (lines : List String) : String :=
  match lines with
  | [] => before ++ after
  | first :: rest =>
    before ++ indent (depth + 1) ++ first ++
      String.join (rest.map fun line => "," ++ indent (depth + 1) ++ line) ++
      indent depth ++ after

mutual

/-- A value that is so far in. -/
def textAt (depth : Nat) : Json → String
  | literal text => text
  | string text => quote text
  | array items => enclose "[" "]" depth (itemTexts (depth + 1) items)
  | object members => enclose "\x7b" "\x7d" depth (memberTexts (depth + 1) members)
termination_by structural value => value

/-- The items of an array. -/
def itemTexts (depth : Nat) : List Json → List String
  | [] => []
  | item :: rest => textAt depth item :: itemTexts depth rest
termination_by structural items => items

/-- The members of an object. -/
def memberTexts (depth : Nat) : List (String × Json) → List String
  | [] => []
  | (name, value) :: rest => (quote name ++ ": " ++ textAt depth value) :: memberTexts depth rest
termination_by structural members => members

end

/-- A value as text. -/
def text (value : Json) : String :=
  textAt 0 value

/-- A whole number. -/
def ofNat (n : Nat) : Json :=
  literal (toString n)

/-- A truth value. -/
def ofBool (truth : Bool) : Json :=
  literal (if truth then "true" else "false")

end Json

end Sweep.Text
