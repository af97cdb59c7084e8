/-!
# Digits

The digits of the bases up to sixteen. From ten on they are letters, which are read in either case
and written in the one that is asked for.

## Main results

* `digitIn?_hexDigit` — a written digit reads back.
* `digitsIn?_concat` — one more digit multiplies by the base and adds its value.
-/

namespace Sweep.Number

/-- The value of a digit of a base. -/
def digitIn? (base : Nat) (c : Char) : Option Nat :=
  let value :=
    if '0' ≤ c ∧ c ≤ '9' then some (c.toNat - '0'.toNat)
    else if 'a' ≤ c ∧ c ≤ 'f' then some (c.toNat - 'a'.toNat + 10)
    else if 'A' ≤ c ∧ c ≤ 'F' then some (c.toNat - 'A'.toNat + 10)
    else none
  value.filter (· < base)

/-- Whether a character is a digit of a base. -/
def isDigitIn (base : Nat) (c : Char) : Bool :=
  (digitIn? base c).isSome

/-- The number that digits of a base stand for, if all of them are digits. -/
def digitsIn? (base : Nat) (cs : List Char) : Option Nat :=
  cs.foldlM (fun n c => (digitIn? base c).map (n * base + ·)) 0

/-- One more digit multiplies by the base and adds its value. -/
theorem digitsIn?_concat (base : Nat) (cs : List Char) (c : Char) :
    digitsIn? base (cs ++ [c]) =
      (digitsIn? base cs).bind fun n => (digitIn? base c).map (n * base + ·) := by
  simp [digitsIn?, List.foldlM_append]

/-- The letters that digits from ten on are written with. -/
inductive Letters where
  /-- From `a` on. -/
  | small
  /-- From `A` on. -/
  | capital
deriving DecidableEq, Repr

/-- The letter for ten. -/
def Letters.first : Letters → Char
  | small => 'a'
  | capital => 'A'

/-- A digit of base sixteen. -/
def hexDigit (letters : Letters) (n : Nat) : Char :=
  if n < 10 then Char.ofNat ('0'.toNat + n) else Char.ofNat (letters.first.toNat + (n - 10))

theorem digitIn?_hexDigit_fin (letters : Letters) (n : Fin 16) :
    digitIn? 16 (hexDigit letters n.val) = some n.val := by
  cases letters <;> revert n <;> decide

/-- A written digit reads back. -/
theorem digitIn?_hexDigit (letters : Letters) {n : Nat} (h : n < 16) :
    digitIn? 16 (hexDigit letters n) = some n :=
  digitIn?_hexDigit_fin letters ⟨n, h⟩

end Sweep.Number
