import Sweep.Number.Binary64
/-!
# TOML documents

A document is a table: named values, each of which may be a table again. How a table came to be
decides what may still be added to it, so a table remembers that.

Names are added one by one. `enter` walks down a dotted name, making the tables that are missing,
and changes the table at its end.

## Main results

* `put_eq_none_of_mem` — a name that is taken cannot be given a second value.
-/

namespace Sweep.Toml

/-- How a table came to be. -/
inductive Form where
  /-- Its own header defines it. -/
  | defined
  /-- A longer header runs through it. -/
  | implied
  /-- A dotted name runs through it. -/
  | dotted
  /-- It stands between braces. -/
  | braced
  /-- A dotted name between braces runs through it. -/
  | bracedDotted
deriving DecidableEq, Repr

inductive Value where
  | string (text : String)
  | integer (value : Int)
  /-- A number in floating point. -/
  | float (value : Number.Binary64)
  | boolean (value : Bool)
  /-- A date, a time of day, or both, as it is written. -/
  | moment (text : String)
  /-- Values in brackets. -/
  | array (items : List Value)
  | table (form : Form) (entries : List (String × Value))
  /-- Tables under a common header. -/
  | tables (items : List (List (String × Value)))

/-- Named values in the order in which they were added. -/
abbrev Entries := List (String × Value)

def Entries.set (entries : Entries) (name : String) (value : Value) : Entries :=
  entries.map fun entry => if entry.1 = name then (name, value) else entry

/-- On what kind of way names are added. -/
inductive Way where
  /-- Through a header. -/
  | header
  /-- Through a dotted name. -/
  | dotted
  /-- Through a dotted name between braces. -/
  | braced
deriving DecidableEq, Repr

/-- The form of a table made on the way. -/
def Way.form : Way → Form
  | header => .implied
  | dotted => .dotted
  | braced => .bracedDotted

/-- Whether a way may lead through a table. -/
def Way.mayEnter : Way → Form → Bool
  | header, form => form = .defined || form = .implied || form = .dotted
  | dotted, form => form = .implied || form = .dotted
  | braced, form => form = .bracedDotted

/-- Changes the table at the end of a dotted name. Of tables under a common header the last one is
meant. -/
def enter (way : Way) (change : Form → Entries → Option Entries) :
    List String → Form → Entries → Option Entries
  | [], form, entries => change form entries
  | name :: rest, _, entries =>
    match entries.lookup name with
    | none =>
      (enter way change rest way.form []).map fun inner =>
        entries ++ [(name, .table way.form inner)]
    | some (.table form inner) =>
      if way.mayEnter form then
        (enter way change rest form inner).map fun inner => entries.set name (.table form inner)
      else none
    | some (.tables items) =>
      match items.getLast? with
      | none => none
      | some last =>
        (enter way change rest .defined last).map fun inner =>
          entries.set name (.tables (items.dropLast ++ [inner]))
    | some _ => none

def put (name : String) (value : Value) (entries : Entries) : Option Entries :=
  match entries.lookup name with
  | some _ => none
  | none => some (entries ++ [(name, value)])

theorem put_eq_none_of_mem {name : String} {value taken : Value} {entries : Entries}
    (h : entries.lookup name = some taken) : put name value entries = none := by
  simp [put, h]

/-- Gives a dotted name a value. All but its last part must lead through tables made for dotted
names. -/
def putDotted (way : Way) (parts : List String) (value : Value) (entries : Entries) :
    Option Entries :=
  match parts.getLast? with
  | none => none
  | some name =>
    enter way (fun form inner =>
      if parts.length = 1 || form = way.form then put name value inner else none)
      parts.dropLast .defined entries

/-- Defines the table of a header. It may have been run through before, but not defined. -/
def openTable (parts : List String) (entries : Entries) : Option Entries :=
  match parts.getLast? with
  | none => none
  | some name =>
    enter .header (fun _ inner =>
      match inner.lookup name with
      | none => some (inner ++ [(name, .table .defined [])])
      | some (.table .implied deeper) =>
        some (inner.filter (·.1 ≠ name) ++ [(name, .table .defined deeper)])
      | some _ => none)
      parts.dropLast .defined entries

/-- Adds a table under a common header. -/
def openNext (parts : List String) (entries : Entries) : Option Entries :=
  match parts.getLast? with
  | none => none
  | some name =>
    enter .header (fun _ inner =>
      match inner.lookup name with
      | none => some (inner ++ [(name, .tables [[]])])
      | some (.tables items) => some (inner.set name (.tables (items ++ [[]])))
      | some _ => none)
      parts.dropLast .defined entries

/-- Gives a dotted name a value in the table whose header came last. -/
def putUnder (header parts : List String) (value : Value) (entries : Entries) : Option Entries :=
  enter .header (fun _ inner => putDotted .dotted parts value inner) header .defined entries

end Sweep.Toml
