import Sweep.Number.Decimal
import Sweep.Toml.Value
/-!
# Unquoted values of TOML

Truth values, numbers, dates and times are written without quotes. Each of the readers here takes
the whole of such a text and either accepts it or does not.

* Whole numbers are decimal with an optional sign, or in base 16, 8 or 2 without one, and lie in the
  range of 64 bits.
* Numbers in floating point have a fraction, an exponent or both, and must not exceed the greatest
  number.
* Digits may be parted by single underscores; a decimal number has no zero in front.
* Dates are days of the calendar, with leap years; times go up to a leap second.
-/

namespace Sweep.Toml

open Number

/-- Digits without the underscores between them, if every underscore has a digit on both sides and
every other character satisfies `isDigit`. -/
def plainDigits? (isDigit : Char → Bool) : List Char → Option (List Char)
  | [] => none
  | [c] => if isDigit c then some [c] else none
  | c :: '_' :: rest =>
    if isDigit c then (plainDigits? isDigit rest).map (c :: ·) else none
  | c :: rest => if isDigit c then (plainDigits? isDigit rest).map (c :: ·) else none

def isDecimal (c : Char) : Bool :=
  isDigitIn 10 c

/-- The sign in front of a text, true for a minus, and the text after it. -/
def signOf : List Char → Bool × List Char
  | '-' :: rest => (true, rest)
  | '+' :: rest => (false, rest)
  | cs => (false, cs)

/-- The digits of a decimal whole number without a zero in front. -/
def decimalDigits? (cs : List Char) : Option (List Char) :=
  match cs with
  | '0' :: _ :: _ => none
  | _ => plainDigits? isDecimal cs

/-- A whole number in a base that its front names. -/
def basedInteger? (base : Nat) (cs : List Char) : Option Int := do
  let digits ← plainDigits? (isDigitIn base) cs
  let n ← digitsIn? base digits
  if n < Nat.pow 2 63 then some n else none

def integer? (cs : List Char) : Option Int :=
  match cs with
  | '0' :: 'x' :: rest => basedInteger? 16 rest
  | '0' :: 'o' :: rest => basedInteger? 8 rest
  | '0' :: 'b' :: rest => basedInteger? 2 rest
  | _ => do
    let (negative, rest) := signOf cs
    let n ← (← decimalDigits? rest) |> digitsIn? 10
    let value : Int := if negative then -n else n
    if -Int.pow 2 63 ≤ value ∧ value < Int.pow 2 63 then some value else none

/-- The exponent of a number in floating point, after its mark. -/
def exponent? (cs : List Char) : Option Int := do
  let (negative, rest) := signOf cs
  let n ← (← plainDigits? isDecimal rest) |> digitsIn? 10
  some (if negative then -n else n)

def float? (cs : List Char) : Option Binary64 :=
  let (negative, rest) := signOf cs
  if rest = ['i', 'n', 'f'] then some (.infinite negative)
  else if rest = ['n', 'a', 'n'] then some .nan
  else do
    let isMark := fun c => c = 'e' || c = 'E'
    let front := rest.takeWhile (!isMark ·)
    let whole ← decimalDigits? (front.takeWhile (· ≠ '.'))
    let fraction ← match front.dropWhile (· ≠ '.') with
      | [] => some []
      | _ :: after => plainDigits? isDecimal after
    let exponent ← match rest.dropWhile (!isMark ·) with
      | [] => if fraction.isEmpty then none else some 0
      | _ :: after => exponent? after
    let digits ← digitsIn? 10 (whole ++ fraction)
    match Binary64.ofDecimal negative digits (exponent - fraction.length) with
    | .infinite false => none
    | value => some value

/-- The number of two digits between two bounds. -/
def twoDigits? (low high : Nat) (cs : List Char) : Option Nat := do
  let n ← digitsIn? 10 cs
  if cs.length = 2 ∧ low ≤ n ∧ n ≤ high then some n else none

/-- How many days a month has. -/
def daysIn (year month : Nat) : Nat :=
  if month = 2 then
    if year % 4 = 0 ∧ (year % 100 ≠ 0 ∨ year % 400 = 0) then 29 else 28
  else if month = 4 ∨ month = 6 ∨ month = 9 ∨ month = 11 then 30
  else 31

/-- Whether a text is a day of the calendar. -/
def isDate (cs : List Char) : Bool :=
  match cs with
  | [y₁, y₂, y₃, y₄, '-', m₁, m₂, '-', d₁, d₂] =>
    match digitsIn? 10 [y₁, y₂, y₃, y₄], twoDigits? 1 12 [m₁, m₂] with
    | some year, some month => (twoDigits? 1 (daysIn year month) [d₁, d₂]).isSome
    | _, _ => false
  | _ => false

/-- Whether a text is a time of day. -/
def isTime (cs : List Char) : Bool :=
  match cs with
  | h₁ :: h₂ :: ':' :: m₁ :: m₂ :: ':' :: s₁ :: s₂ :: fraction =>
    (twoDigits? 0 23 [h₁, h₂]).isSome && (twoDigits? 0 59 [m₁, m₂]).isSome &&
      (twoDigits? 0 60 [s₁, s₂]).isSome &&
      match fraction with
      | [] => true
      | '.' :: digits => !digits.isEmpty && digits.all isDecimal
      | _ => false
  | _ => false

/-- Whether a text is a time of day with or without an offset. -/
def isOffsetTime (cs : List Char) : Bool :=
  let time := cs.takeWhile fun c => isDecimal c || c = ':' || c = '.'
  isTime time &&
    match cs.drop time.length with
    | [] => true
    | ['Z'] => true
    | ['z'] => true
    | [sign, h₁, h₂, ':', m₁, m₂] =>
      (sign = '+' || sign = '-') && (twoDigits? 0 23 [h₁, h₂]).isSome &&
        (twoDigits? 0 59 [m₁, m₂]).isSome
    | _ => false

/-- Whether a text is a date, a time of day, or both. -/
def isMoment (cs : List Char) : Bool :=
  isDate cs || isTime cs ||
    (isDate (cs.take 10) &&
      match cs.drop 10 with
      | 'T' :: time => isOffsetTime time
      | 't' :: time => isOffsetTime time
      | ' ' :: time => isOffsetTime time
      | _ => false)

/-- An unquoted value. -/
def scalar? (cs : List Char) : Option Value :=
  if cs = ['t', 'r', 'u', 'e'] then some (.boolean true)
  else if cs = ['f', 'a', 'l', 's', 'e'] then some (.boolean false)
  else if isMoment cs then some (.moment (String.ofList cs))
  else
    match integer? cs with
    | some n => some (.integer n)
    | none => (float? cs).map .float

end Sweep.Toml
