import Mathlib
import Sweep.Number.Shortest
import Sweep.Proofs.Number.Binary64
/-!
# Shortest decimals read back

A number is written with the first of the tried decimals that reads back as it. Should none do so, it
is written with all its digits; then the decimal is the number itself, and a number that 64 bits can
hold is rounded to itself. So what is written reads back in any case.

## Main results

* `sameSize_iff` — when two numbers count as equal.
* `nearest_shortest` — what is written reads back.
-/

namespace Sweep.Number.Binary64

/-- Two finite numbers are of the same size if they are equal up to their signs. -/
theorem sameSize_iff {negative negative' : Bool} {m m' : ℕ} {e e' : ℤ} :
    (finite negative m e).sameSize (.finite negative' m' e') = true ↔
      (m * 2 ^ e : ℚ) = m' * 2 ^ e' := by
  have hpos : (powDen e : ℚ) ≠ 0 := by exact_mod_cast (powDen_pos e).ne'
  have hpos' : (powDen e' : ℚ) ≠ 0 := by exact_mod_cast (powDen_pos e').ne'
  rw [← powNum_div_powDen, ← powNum_div_powDen, div_eq_div_iff hpos hpos', sameSize, beq_iff_eq]
  exact_mod_cast Iff.rfl

/-- A power of five has many digits. -/
theorem le_digitCount_add {m n : ℕ} (hm : 0 < m) (hn : n ≤ 1074) :
    n ≤ digitCount (m * Nat.pow 5 n) + 400 := by
  by_contra hlt
  have hdigits : m * 5 ^ n < 10 ^ digitCount (m * 5 ^ n) :=
    (Nat.length_toDigits_le_iff (by norm_num) Nat.length_toDigits_pos).1 le_rfl
  have heights : ∀ k, (2 : ℕ) ^ (3 * k) ≤ 10 ^ k := by
    intro k
    rw [Nat.pow_mul]
    exact Nat.pow_le_pow_left (by norm_num) k
  have htwos : (2 : ℕ) ^ n ≤ 10 ^ 400 :=
    (Nat.pow_le_pow_right (by norm_num) (by omega)).trans (heights 400)
  have hsplit : (10 : ℕ) ^ n = 5 ^ n * 2 ^ n := by rw [← Nat.mul_pow]
  have hshort : (10 : ℕ) ^ (digitCount (m * 5 ^ n) + 400) ≤ 10 ^ n :=
    Nat.pow_le_pow_right (by norm_num) (Nat.le_of_not_le hlt)
  have hfives : 5 ^ n ≤ m * 5 ^ n := Nat.le_mul_of_pos_left _ hm
  have hlong : 5 ^ n * 2 ^ n < 10 ^ digitCount (m * 5 ^ n) * 10 ^ 400 :=
    Nat.mul_lt_mul_of_lt_of_le (hfives.trans_lt hdigits) htwos (by positivity)
  rw [← pow_add, ← hsplit] at hlong
  omega

/-- All digits of a number are a decimal that is rounded as a ratio of its size. -/
theorem exists_nearest_exactly {m : ℕ} {e : ℤ} (hm : 0 < m) (he : -1074 ≤ e) :
    ∃ num den, 0 < den ∧ (exactly m e).nearest = ofRatio false num den ∧
      (num / den : ℚ) = m * 2 ^ e := by
  rcases Int.le_total 0 e with hwhole | hpart
  · obtain ⟨n, rfl⟩ := Int.eq_ofNat_of_zero_le hwhole
    have hdigits : exactly m n = ⟨m * Nat.pow 2 n, 0⟩ := by simp [exactly, powNum]
    have hpos : m * Nat.pow 2 n ≠ 0 := (Nat.mul_pos hm (Nat.pow_pos Nat.two_pos)).ne'
    refine ⟨m * Nat.pow 2 n, 1, Nat.one_pos, ?_, by simp⟩
    rw [hdigits]
    show ofDecimal false (m * Nat.pow 2 n) 0 = _
    rw [ofDecimal, if_neg hpos, if_neg (by omega), if_neg (by omega)]
    simp
  · obtain ⟨n, hn⟩ := Int.exists_eq_neg_ofNat hpart
    subst hn
    have hdigits : exactly m (-n) = ⟨m * Nat.pow 5 n, -n⟩ := by
      simp [exactly, powNum]
    have hpos : m * Nat.pow 5 n ≠ 0 := (Nat.mul_pos hm (Nat.pow_pos (by decide))).ne'
    have hcount := le_digitCount_add hm (n := n) (by omega)
    refine ⟨m * Nat.pow 5 n, Nat.pow 10 n, Nat.pow_pos (by decide), ?_, ?_⟩
    · rw [hdigits]
      show ofDecimal false (m * Nat.pow 5 n) (-n) = _
      rw [ofDecimal, if_neg hpos, if_neg (by omega), if_neg (by omega)]
      simp
    · have hten : (10 : ℚ) ^ n = 5 ^ n * 2 ^ n := by rw [← mul_pow]; norm_num
      simp only [Nat.pow_eq, Nat.cast_mul, Nat.cast_pow, Nat.cast_ofNat, zpow_neg, zpow_natCast, hten]
      field_simp

/-- All digits of a number read back. -/
theorem nearest_exactly {m : ℕ} {e : ℤ} (h : Fits m e) (hm : 0 < m) :
    (exactly m e).nearest.sameSize (.finite false m e) = true := by
  obtain ⟨num, den, hden, hnearest, hvalue⟩ := exists_nearest_exactly hm h.least
  obtain ⟨m', e', hratio, hrounds⟩ :=
    exists_ofRatio false num hden (hvalue.trans_le h.le_greatest)
  rw [hvalue] at hrounds
  rw [hnearest, hratio, sameSize_iff]
  exact hrounds.eq_of_isHeld ⟨m, e, h.mantissa, h.least, rfl⟩

/-- What a number is written with reads back as the number. -/
theorem nearest_shortest {m : ℕ} {e : ℤ} (h : Fits m e) (hm : 0 < m) :
    (shortest m e).nearest.sameSize (.finite false m e) = true := by
  rw [shortest]
  generalize hfound : List.find? _ _ = found
  cases found with
  | none => exact nearest_exactly h hm
  | some decimal =>
      have hreads := List.find?_some hfound
      exact hreads

/-- A tenth has one digit, although its mantissa has all 53 bits. -/
example : (ofDecimal false 1 (-1)).text? = some "0.1" := by decide +kernel

end Sweep.Number.Binary64
