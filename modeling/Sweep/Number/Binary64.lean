import Sweep.Number.Rounding
/-!
# Binary floating point with 64 bits

A `Binary64` is a number that 64 bits can hold: zero or a dyadic rational `± m · 2 ^ e` with at most
53 significant bits, an infinity, or no number at all. Each operation takes the exact result, a
ratio of two whole numbers, and rounds it once with `ofRatio`, so all of it is arithmetic on `Nat`.
The operations are those that a duration in seconds needs.

## Main results

* `toFixed` writes the exact value with a fixed number of decimal places, half to even.
* `ofDecimal` reads a decimal as the nearest value.
-/

namespace Sweep.Number

/-- A number in binary floating point. -/
inductive Binary64 where
  | nan
  | infinite (negative : Bool)
  /-- The number `mantissa * 2 ^ exponent`, or its negative; zero has a sign too. -/
  | finite (negative : Bool) (mantissa : Nat) (exponent : Int)
deriving DecidableEq, Repr

namespace Binary64

/-- The numerator of `m * 2 ^ e` over `powDen e`. -/
def powNum (m : Nat) (e : Int) : Nat :=
  m * Nat.pow 2 e.toNat

/-- The denominator of `2 ^ e`. -/
def powDen (e : Int) : Nat :=
  Nat.pow 2 (-e).toNat

/-- The exponent at which the quotient has 53 significant bits, but none below `-1074`. -/
def exponentFor (num den : Nat) : Int :=
  let guess : Int := (num.log2 : Int) - (den.log2 : Int) - 52
  let full := Nat.pow 2 52 * powNum den guess ≤ num * powDen guess
  max (if full then guess else guess - 1) (-1074)

/-- The number nearest to `num / den`, half to even, or an infinity beyond the greatest one. -/
def ofRatio (negative : Bool) (num den : Nat) : Binary64 :=
  if num = 0 then .finite negative 0 0
  else
    let e := exponentFor num den
    let m := roundDiv (num * powDen e) (powNum den e)
    if 1024 ≤ (m.log2 : Int) + e then .infinite negative else .finite negative m e

/-- The number nearest to a whole number. -/
def ofNat (n : Nat) : Binary64 :=
  ofRatio false n 1

/-- How many decimal digits a number has. -/
def digitCount (n : Nat) : Nat :=
  (Nat.toDigits 10 n).length

/-- The number nearest to `digits * 10 ^ exponent`. Exponents far outside the range are settled
without the power. -/
def ofDecimal (negative : Bool) (digits : Nat) (exponent : Int) : Binary64 :=
  if digits = 0 then .finite negative 0 0
  else if 400 < exponent then .infinite negative
  else if exponent + digitCount digits < -400 then .finite negative 0 0
  else ofRatio negative (digits * Nat.pow 10 exponent.toNat) (Nat.pow 10 (-exponent).toNat)

/-- Whether a number is less than the whole number `n`. Nothing compares with `nan`. -/
def ltNat : Binary64 → Nat → Bool
  | nan, _ => false
  | infinite negative, _ => negative
  | finite negative m e, n =>
    if negative then m ≠ 0 || 0 < n else decide (powNum m e < n * powDen e)

def mulNat (n : Nat) : Binary64 → Binary64
  | finite negative m e => ofRatio negative (powNum m e * n) (powDen e)
  | other => other

def divNat (n : Nat) : Binary64 → Binary64
  | finite negative m e => ofRatio negative (powNum m e) (powDen e * n)
  | other => other

/-- The difference of a number and a nonnegative one. -/
def sub : Binary64 → Binary64 → Binary64
  | finite neg₁ m₁ e₁, finite _ m₂ e₂ =>
    let a := powNum m₁ e₁ * powDen e₂
    let b := powNum m₂ e₂ * powDen e₁
    let den := powDen e₁ * powDen e₂
    if neg₁ then ofRatio true (a + b) den
    else if b ≤ a then ofRatio false (a - b) den
    else ofRatio true (b - a) den
  | infinite negative, finite _ _ _ => infinite negative
  | finite _ _ _, infinite _ => infinite true
  | infinite true, infinite _ => infinite true
  | _, _ => nan

/-- The whole part, cut to the range from `0` to `bound`; `nan` gives `0`. -/
def wholePart (bound : Nat) : Binary64 → Nat
  | nan => 0
  | infinite negative => if negative then 0 else bound
  | finite negative m e => if negative then 0 else min (powNum m e / powDen e) bound

/-- The digits of `n` with a point before the last `places` of them. -/
def pointed (places n : Nat) : String :=
  if places = 0 then toString n
  else
    let fraction := toString (n % Nat.pow 10 places)
    toString (n / Nat.pow 10 places) ++ "."
      ++ String.ofList (List.replicate (places - fraction.length) '0') ++ fraction

/-- The exact value with a fixed number of decimal places, half to even. -/
def toFixed (places : Nat) : Binary64 → String
  | nan => "NaN"
  | infinite negative => if negative then "-inf" else "inf"
  | finite negative m e =>
    (if negative then "-" else "")
      ++ pointed places (roundDiv (powNum m e * Nat.pow 10 places) (powDen e))

end Binary64

end Sweep.Number
