import Sweep.Number.Binary64
/-!
# Shortest decimals

A number in binary floating point is written with as few decimal digits as read back as the same
number, and of several such decimals as the one nearest to it. Seventeen digits are always enough,
so the few candidates of each length can be tried one after the other.

Small and great numbers are written with a power of ten, all others with a point among their digits.

## Main results

* `shortest` — the digits of a number.
* `text?` — a number as it is written where only numbers can be.
-/

namespace Sweep.Number

/-- The number `digits * 10 ^ power`. -/
structure Decimal where
  digits : Nat
  power : Int
deriving DecidableEq, Repr

namespace Decimal

/-- The binary number nearest to a decimal. -/
def nearest (decimal : Decimal) : Binary64 :=
  .ofDecimal false decimal.digits decimal.power

/-- How many digits stand before a point in written numbers at most. -/
def wholeLimit : Int := 16

/-- How many zeros stand between a point and the first digit at most, in written numbers. -/
def zeroLimit : Int := 4

/-- A decimal other than zero, with at least one digit on each side of its point. -/
def text (decimal : Decimal) : String :=
  let written := Nat.toDigits 10 decimal.digits
  let digits := (written.reverse.dropWhile (· == '0')).reverse
  let zeros := fun n : Int => List.replicate n.toNat '0'
  -- how many of the digits stand before the point
  let point : Int := written.length + decimal.power
  String.ofList <|
    if digits.length ≤ point && point ≤ wholeLimit then
      digits ++ zeros (point - digits.length) ++ ['.', '0']
    else if 0 < point && point ≤ wholeLimit then
      digits.take point.toNat ++ '.' :: digits.drop point.toNat
    else if -zeroLimit ≤ point && point ≤ 0 then
      ['0', '.'] ++ zeros (-point) ++ digits
    else
      let exponent := 'e' :: (toString (point - 1)).toList
      if digits.length = 1 then digits ++ exponent
      else digits.take 1 ++ '.' :: digits.drop 1 ++ exponent

end Decimal

namespace Binary64

/-- Whether two numbers are finite and equal up to their signs. -/
def sameSize : Binary64 → Binary64 → Bool
  | finite _ m₁ e₁, finite _ m₂ e₂ => powNum m₁ e₁ * powDen e₂ == powNum m₂ e₂ * powDen e₁
  | _, _ => false

/-- The power of ten of the first digit of `num / den`. -/
def leadingPower (num den : Nat) : Int :=
  let guess : Int := (digitCount num : Int) - digitCount den
  if den * Nat.pow 10 guess.toNat ≤ num * Nat.pow 10 (-guess).toNat then guess else guess - 1

/-- The decimals with a number of digits that are next to `num / den`, the nearer one first. -/
def neighbours (num den places : Nat) : List Decimal :=
  let power := leadingPower num den + 1 - places
  let num := num * Nat.pow 10 (-power).toNat
  let den := den * Nat.pow 10 power.toNat
  let low := num / den
  let near := roundDiv num den
  [⟨near, power⟩, ⟨if near = low then low + 1 else low, power⟩]

/-- All digits of the number `m * 2 ^ e`. -/
def exactly (m : Nat) (e : Int) : Decimal :=
  ⟨powNum m e * Nat.pow 5 (-e).toNat, min e 0⟩

/-- So many digits are enough for every number. -/
def digitLimit : Nat := 17

/-- The shortest decimal that reads back as `m * 2 ^ e`. -/
def shortest (m : Nat) (e : Int) : Decimal :=
  let tried := (List.range digitLimit).flatMap fun n =>
    neighbours (powNum m e) (powDen e) (n + 1)
  (tried.find? (·.nearest.sameSize (.finite false m e))).getD (exactly m e)

/-- A number as text; infinities and what is no number have none. -/
def text? : Binary64 → Option String
  | finite negative m e =>
    some ((if negative then "-" else "") ++ if m = 0 then "0.0" else (shortest m e).text)
  | _ => none

end Binary64

end Sweep.Number
