import Sweep.Number.Binary64
import Sweep.Number.Digit
/-!
# Decimal notation

Reads a number written in decimal: a sign, digits with or without a point among them, a power of ten
after `e`, or one of the names `inf`, `infinity` and `nan`. At least one digit must be there.
-/

namespace Sweep.Number

/-- A whole number with an optional sign and at least one digit. -/
def signed? (cs : List Char) : Option Int :=
  match cs with
  | [] => none
  | ['-'] => none
  | ['+'] => none
  | '-' :: rest => (digitsIn? 10 rest).map fun n => -(n : Int)
  | '+' :: rest => (digitsIn? 10 rest).map fun n => (n : Int)
  | _ => (digitsIn? 10 cs).map fun n => (n : Int)

/-- An unsigned decimal as its digits and the power of ten they are to be multiplied with. -/
def unsigned? (cs : List Char) : Option (Nat × Int) :=
  let isMark := fun c => c == 'e' || c == 'E'
  let number := cs.takeWhile (!isMark ·)
  let whole := number.takeWhile (· != '.')
  let fraction := (number.dropWhile (· != '.')).drop 1
  if whole.isEmpty && fraction.isEmpty then none
  else do
    let digits ← digitsIn? 10 (whole ++ fraction)
    let power ← match cs.dropWhile (!isMark ·) with
      | [] => some 0
      | _ :: rest => signed? rest
    return (digits, power - fraction.length)

def Binary64.ofText? (text : String) : Option Binary64 :=
  let (negative, cs) := match text.toList with
    | '-' :: rest => (true, rest)
    | '+' :: rest => (false, rest)
    | cs => (false, cs)
  match String.ofList (cs.map Char.toLower) with
  | "nan" => some .nan
  | "inf" => some (.infinite negative)
  | "infinity" => some (.infinite negative)
  | _ => (unsigned? cs).map fun (digits, power) => .ofDecimal negative digits power

end Sweep.Number
