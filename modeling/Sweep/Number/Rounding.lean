/-!
# Rounding a quotient

`roundDiv num den` is the whole number nearest to `num / den`; a quotient half way between two of
them goes to the even one. Decimal places are written through it, and so are the results of
`Sweep.Number.Binary64`.

## Main results

* `roundDiv_of_dvd` — an exact quotient is itself.
* `roundDiv_near` — the result is within half a unit of the quotient.
* `roundDiv_tie` — half way between two whole numbers the even one is taken.
-/

namespace Sweep.Number

/-- The whole number nearest to `num / den`, and of two equally near ones the even one. -/
def roundDiv (num den : Nat) : Nat :=
  let low := num / den
  let rest := num % den
  if 2 * rest < den then low
  else if den < 2 * rest then low + 1
  else if low % 2 = 0 then low else low + 1

theorem roundDiv_of_dvd {den : Nat} (hden : 0 < den) (n : Nat) : roundDiv (n * den) den = n := by
  simp [roundDiv, Nat.mul_div_cancel n hden, hden]

/-- The result is within half a unit of the quotient. -/
theorem roundDiv_near {num den : Nat} (hden : 0 < den) :
    2 * num ≤ 2 * (roundDiv num den * den) + den ∧
      2 * (roundDiv num den * den) ≤ 2 * num + den := by
  have hsplit := Nat.div_add_mod num den
  have hlt := Nat.mod_lt num hden
  have hcomm : den * (num / den) = num / den * den := Nat.mul_comm ..
  have hsucc : (num / den + 1) * den = num / den * den + den := Nat.succ_mul ..
  simp only [roundDiv]
  split
  · omega
  · split
    · omega
    · split <;> omega

/-- Half way between two whole numbers the even one is taken. -/
theorem roundDiv_tie {num den : Nat} (h : 2 * (num % den) = den) : roundDiv num den % 2 = 0 := by
  simp only [roundDiv, h, Nat.lt_irrefl, if_false]
  split <;> omega

end Sweep.Number
