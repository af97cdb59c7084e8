import Mathlib
import Sweep.Number.Binary64
/-!
# Floating point on the rational line

A finite number stands for the rational `m * 2 ^ e`, and each operation gives the exact result of
rational arithmetic, *rounded*: with the exponent at which it has 53 significant bits, and the whole
number nearest to it there, half to even. All that is needed about an operation follows from that.
A number that 64 bits can hold is never passed over: what lies below it is rounded to something at or
below it, and the other way round. So such a number is rounded to itself.

## Main results

* `IsNearest.le_iff_of_even` — what is rounded up to an even number.
* `exponentFor_bounds`, `exists_ofRatio` — an operation rounds.
* `Rounds.le_of_le`, `Rounds.ge_of_ge`, `Rounds.eq_of_isHeld` — numbers that 64 bits can hold are
  bounds for what is rounded.
* `Rounds.le_mul_zpow_iff` — what is rounded up to a number with an even mantissa.
-/

namespace Sweep.Number

/-! ## Whole numbers -/

/-- A whole number is nearest to a rational, and even if the rational is half way between two. -/
structure IsNearest (x : ℚ) (n : ℕ) : Prop where
  low : n - 1 / 2 ≤ x
  high : x ≤ n + 1 / 2
  tie : (∃ k : ℕ, x = k + 1 / 2) → n % 2 = 0

/-- Half of an odd number of times is left. -/
theorem two_mul_mod_of_odd {num den k : ℕ} (h : 2 * num = (2 * k + 1) * den) :
    2 * (num % den) = den := by
  rcases Nat.eq_zero_or_pos den with rfl | hden
  · omega
  · have hsplit := Nat.div_add_mod num den
    have hlt := Nat.mod_lt num hden
    have hodd : (2 * k + 1) * den = 2 * (k * den) + den := by ring
    have hquotient : num / den = k := by
      rw [Nat.div_eq_iff hden]
      omega
    rw [hquotient, Nat.mul_comm] at hsplit
    omega

theorem isNearest_roundDiv (num : ℕ) {den : ℕ} (hden : 0 < den) :
    IsNearest (num / den) (roundDiv num den) := by
  have hpos : (0 : ℚ) < den := by exact_mod_cast hden
  obtain ⟨hhigh, hlow⟩ := @roundDiv_near num den hden
  have hlow' : 2 * ((roundDiv num den : ℚ) * den) ≤ 2 * num + den := by exact_mod_cast hlow
  have hhigh' : 2 * (num : ℚ) ≤ 2 * (roundDiv num den * den) + den := by exact_mod_cast hhigh
  constructor
  · rw [le_div_iff₀ hpos]
    linarith
  · rw [div_le_iff₀ hpos]
    linarith
  · rintro ⟨k, hk⟩
    rw [div_eq_iff hpos.ne'] at hk
    have hodd : (2 * num : ℚ) = (2 * k + 1) * den := by linarith
    exact roundDiv_tie (two_mul_mod_of_odd (by exact_mod_cast hodd))

namespace IsNearest

variable {x : ℚ} {n k : ℕ}

/-- What is rounded up to an even number is at most half below it. -/
theorem le_iff_of_even (h : IsNearest x n) (heven : k % 2 = 0) : k ≤ n ↔ (k : ℚ) - 1 / 2 ≤ x := by
  constructor
  · intro hle
    have hcast : (k : ℚ) ≤ n := by exact_mod_cast hle
    linarith [h.low]
  · intro hle
    by_contra hlt
    have hcast : (n : ℚ) + 1 ≤ k := by exact_mod_cast Nat.lt_of_not_le hlt
    have htie : x = n + 1 / 2 := by linarith [h.high]
    have hnext : (k : ℚ) = (n + 1 : ℕ) := by
      push_cast
      linarith [h.high]
    have hk : k = n + 1 := by exact_mod_cast hnext
    have := h.tie ⟨n, htie⟩
    omega

theorem le_of_le (h : IsNearest x n) (hle : x ≤ k) : n ≤ k := by
  by_contra hlt
  have hcast : (k : ℚ) + 1 ≤ n := by exact_mod_cast Nat.lt_of_not_le hlt
  linarith [h.low]

theorem ge_of_ge (h : IsNearest x n) (hle : k ≤ x) : k ≤ n := by
  by_contra hlt
  have hcast : (n : ℚ) + 1 ≤ k := by exact_mod_cast Nat.lt_of_not_le hlt
  linarith [h.high]

end IsNearest

namespace Binary64

/-! ## Values -/

theorem powDen_pos (e : ℤ) : 0 < powDen e :=
  Nat.pow_pos (by decide)

/-- A power of two is what its numerator and its denominator say. -/
theorem powNum_div_powDen (m : ℕ) (e : ℤ) : (powNum m e / powDen e : ℚ) = m * 2 ^ e := by
  rw [powNum, powDen]
  rcases Int.le_total 0 e with he | he
  · obtain ⟨n, rfl⟩ := Int.eq_ofNat_of_zero_le he
    simp
  · obtain ⟨n, hn⟩ := Int.exists_eq_neg_ofNat he
    subst hn
    simp [zpow_neg, div_eq_mul_inv]

theorem powNum_eq_mul_powDen (m : ℕ) (e : ℤ) : (powNum m e : ℚ) = m * 2 ^ e * powDen e := by
  have hpos : (0 : ℚ) < powDen e := by exact_mod_cast powDen_pos e
  rw [← powNum_div_powDen, div_mul_cancel₀ _ hpos.ne']

/-- Where a ratio stands between powers of two. -/
theorem ratio_bounds {num den : ℕ} (hnum : 0 < num) (hden : 0 < den) :
    (2 : ℚ) ^ ((num.log2 : ℤ) - den.log2 - 1) ≤ num / den ∧
      (num / den : ℚ) < 2 ^ ((num.log2 : ℤ) - den.log2 + 1) := by
  have hpos : (0 : ℚ) < den := by exact_mod_cast hden
  have hnumlow : (2 : ℚ) ^ (num.log2 : ℤ) ≤ num := by
    exact_mod_cast Nat.log2_self_le hnum.ne'
  have hnumhigh : (num : ℚ) < 2 ^ ((num.log2 : ℤ) + 1) := by
    exact_mod_cast Nat.lt_log2_self (n := num)
  have hdenlow : (2 : ℚ) ^ (den.log2 : ℤ) ≤ den := by
    exact_mod_cast Nat.log2_self_le hden.ne'
  have hdenhigh : (den : ℚ) < 2 ^ ((den.log2 : ℤ) + 1) := by
    exact_mod_cast Nat.lt_log2_self (n := den)
  constructor
  · rw [le_div_iff₀ hpos]
    calc (2 : ℚ) ^ ((num.log2 : ℤ) - den.log2 - 1) * den
        ≤ 2 ^ ((num.log2 : ℤ) - den.log2 - 1) * 2 ^ ((den.log2 : ℤ) + 1) := by gcongr
      _ = 2 ^ (num.log2 : ℤ) := by
          rw [← zpow_add₀ two_ne_zero]
          congr 1
          ring
      _ ≤ num := hnumlow
  · rw [div_lt_iff₀ hpos]
    calc (num : ℚ) < 2 ^ ((num.log2 : ℤ) + 1) := hnumhigh
      _ = 2 ^ ((num.log2 : ℤ) - den.log2 + 1) * 2 ^ (den.log2 : ℤ) := by
          rw [← zpow_add₀ two_ne_zero]
          congr 1
          ring
      _ ≤ 2 ^ ((num.log2 : ℤ) - den.log2 + 1) * den := by gcongr

theorem powNum_le_iff (m num : ℕ) {den : ℕ} (hden : 0 < den) (e : ℤ) :
    m * powNum den e ≤ num * powDen e ↔ (m * 2 ^ e : ℚ) ≤ num / den := by
  have hpos : (0 : ℚ) < den := by exact_mod_cast hden
  have hscale : (0 : ℚ) < powDen e := by exact_mod_cast powDen_pos e
  rw [le_div_iff₀ hpos, ← Nat.cast_le (α := ℚ), Nat.cast_mul, Nat.cast_mul, powNum_eq_mul_powDen,
    ← mul_assoc, mul_le_mul_iff_left₀ hscale]
  have hcomm : (m : ℚ) * (den * 2 ^ e) = m * 2 ^ e * den := by ring
  rw [hcomm]

/-- The exponent at which a ratio is rounded: there it has at most 53 bits before the point, and no
fewer unless the exponent is the least. -/
theorem exponentFor_bounds {num den : ℕ} (hnum : 0 < num) (hden : 0 < den) :
    -1074 ≤ exponentFor num den ∧ (num / den : ℚ) < 2 ^ (53 + exponentFor num den) ∧
      (exponentFor num den = -1074 ∨ (2 : ℚ) ^ (52 + exponentFor num den) ≤ num / den) := by
  obtain ⟨hlow, hhigh⟩ := ratio_bounds hnum hden
  obtain ⟨guess, hguess⟩ : ∃ guess : ℤ, guess = (num.log2 : ℤ) - den.log2 - 52 := ⟨_, rfl⟩
  have hfull := powNum_le_iff (Nat.pow 2 52) num hden guess
  have hpow : ((Nat.pow 2 52 : ℕ) * 2 ^ guess : ℚ) = 2 ^ (52 + guess) := by
    rw [zpow_add₀ two_ne_zero]
    norm_num
  rw [hpow] at hfull
  obtain ⟨own, hown, hownlow, hownhigh⟩ : ∃ own : ℤ, exponentFor num den = max own (-1074) ∧
      (2 : ℚ) ^ (52 + own) ≤ num / den ∧ (num / den : ℚ) < 2 ^ (53 + own) := by
    by_cases h : Nat.pow 2 52 * powNum den guess ≤ num * powDen guess
    · refine ⟨guess, ?_, hfull.1 h, ?_⟩
      · rw [exponentFor, ← hguess]
        simp only [h, if_true]
      · convert hhigh using 2
        omega
    · refine ⟨guess - 1, ?_, ?_, ?_⟩
      · rw [exponentFor, ← hguess]
        simp only [h, if_false]
      · convert hlow using 2
        omega
      · have hexponent : 53 + (guess - 1) = 52 + guess := by ring
        rw [hexponent]
        exact lt_of_not_ge fun hge => h (hfull.2 hge)
  rw [hown]
  refine ⟨le_max_right own _, lt_of_lt_of_le hownhigh ?_, ?_⟩
  · have := le_max_left own (-1074)
    gcongr
    · norm_num
  · rcases max_choice own (-1074) with h | h
    · rw [h]
      exact Or.inr hownlow
    · exact Or.inl h

/-! ## Rounding -/

/-- A rational is rounded to `m * 2 ^ e`. -/
structure Rounds (x : ℚ) (m : ℕ) (e : ℤ) : Prop where
  near : IsNearest (x / 2 ^ e) m
  least : -1074 ≤ e
  high : x < 2 ^ (53 + e)
  full : x = 0 ∨ e = -1074 ∨ 2 ^ (52 + e) ≤ x

/-- A rational is a number that 64 bits can hold, if it is not too great. -/
def IsHeld (x : ℚ) : Prop :=
  ∃ (m : ℕ) (e : ℤ), m < 2 ^ 53 ∧ -1074 ≤ e ∧ x = m * 2 ^ e

/-- The greatest number that 64 bits can hold. -/
def greatest : ℚ := (2 ^ 53 - 1 : ℕ) * 2 ^ (971 : ℤ)

theorem isHeld_greatest : IsHeld greatest :=
  ⟨2 ^ 53 - 1, 971, by norm_num, by norm_num, rfl⟩

theorem greatest_lt : greatest < 2 ^ (1024 : ℤ) := by
  have hsplit : (1024 : ℤ) = 53 + 971 := by norm_num
  rw [greatest, hsplit, zpow_add₀ two_ne_zero]
  gcongr
  norm_num

/-- What stands at one exponent stands at any lesser one. -/
theorem exists_eq_mul_zpow (n : ℕ) {e f : ℤ} (hef : e ≤ f) :
    ∃ k : ℕ, (n * 2 ^ f : ℚ) = k * 2 ^ e := by
  obtain ⟨d, hd⟩ := Int.eq_ofNat_of_zero_le (Int.sub_nonneg.2 hef)
  have hf : f = d + e := by omega
  refine ⟨n * 2 ^ d, ?_⟩
  rw [hf, zpow_add₀ two_ne_zero, zpow_natCast]
  push_cast
  ring

theorem mul_zpow_lt {n : ℕ} (hn : n < 2 ^ 53) (f : ℤ) : (n * 2 ^ f : ℚ) < 2 ^ (53 + f) := by
  rw [zpow_add₀ two_ne_zero]
  gcongr
  exact_mod_cast hn

/-- A mantissa and an exponent that 64 bits can hold. -/
structure Fits (m : ℕ) (e : ℤ) : Prop where
  mantissa : m < 2 ^ 53
  least : -1074 ≤ e
  most : e ≤ 971

theorem Fits.le_greatest {m : ℕ} {e : ℤ} (h : Fits m e) : (m * 2 ^ e : ℚ) ≤ greatest := by
  have hm : m ≤ 2 ^ 53 - 1 := Nat.le_sub_one_of_lt h.mantissa
  have he := h.most
  rw [greatest]
  gcongr
  norm_num

/-- Small numbers are far below the greatest one. -/
theorem le_greatest_of_le {x : ℚ} (h : x ≤ 2 ^ 70) : x ≤ greatest := by
  refine h.trans ?_
  have hfits : Fits 1 70 := ⟨by norm_num, by norm_num, by norm_num⟩
  have hle := hfits.le_greatest
  rw [Nat.cast_one, one_mul] at hle
  exact_mod_cast hle

theorem isHeld_natCast {n : ℕ} (h : n < 2 ^ 53) : IsHeld n :=
  ⟨n, 0, h, by norm_num, by simp⟩

/-- Below `2 ^ 55` a number that 64 bits can hold has a small exponent. -/
theorem Fits.exists_exponent_le_two {m : ℕ} {e : ℤ} (h : Fits m e)
    (hlt : (m * 2 ^ e : ℚ) < 2 ^ 55) :
    ∃ (n : ℕ) (f : ℤ), n < 2 ^ 53 ∧ -1074 ≤ f ∧ f ≤ 2 ∧ (m * 2 ^ e : ℚ) = n * 2 ^ f := by
  rcases le_total e 2 with he | he
  · exact ⟨m, e, h.mantissa, h.least, he, rfl⟩
  · obtain ⟨n, hn⟩ := exists_eq_mul_zpow m he
    refine ⟨n, 2, ?_, by norm_num, le_rfl, hn⟩
    rw [hn] at hlt
    have hquarter : (n : ℚ) < 2 ^ 53 := by linarith
    exact_mod_cast hquarter

namespace Rounds

variable {x y : ℚ} {m : ℕ} {e : ℤ} (h : Rounds x m e)

include h

theorem eq_zero (hx : x = 0) : m = 0 := by
  have hnear := h.near
  rw [hx, zero_div] at hnear
  exact Nat.le_zero.1 (hnear.le_of_le (by norm_num))

/-- What is at or below a number that 64 bits can hold is rounded to something at or below it. -/
theorem le_of_le (hy : IsHeld y) (hle : x ≤ y) : m * 2 ^ e ≤ y := by
  obtain ⟨n, f, hn, hleast, rfl⟩ := hy
  by_cases hx : x = 0
  · rw [h.eq_zero hx, Nat.cast_zero, zero_mul]
    positivity
  · have hef : e ≤ f := by
      rcases h.full with hzero | hmin | hfull
      · exact absurd hzero hx
      · omega
      · have hlt := (hfull.trans hle).trans_lt (mul_zpow_lt hn f)
        have := (zpow_lt_zpow_iff_right₀ (by norm_num)).1 hlt
        omega
    obtain ⟨k, hk⟩ := exists_eq_mul_zpow n hef
    rw [hk] at hle ⊢
    have hmk : m ≤ k := h.near.le_of_le ((div_le_iff₀ (by positivity)).2 hle)
    gcongr

/-- What is at or above such a number is rounded to something at or above it. -/
theorem ge_of_ge (hy : IsHeld y) (hge : y ≤ x) : y ≤ m * 2 ^ e := by
  obtain ⟨n, f, hn, hleast, rfl⟩ := hy
  by_cases hef : e ≤ f
  · obtain ⟨k, hk⟩ := exists_eq_mul_zpow n hef
    rw [hk] at hge ⊢
    have hkm : k ≤ m := h.near.ge_of_ge ((le_div_iff₀ (by positivity)).2 hge)
    gcongr
  · rcases h.full with hzero | hmin | hfull
    · rw [hzero] at hge
      exact hge.trans (by positivity)
    · omega
    · have hlow : (2 ^ 52 : ℕ) ≤ m := by
        apply h.near.ge_of_ge
        rw [le_div_iff₀ (by positivity)]
        rw [zpow_add₀ two_ne_zero] at hfull
        exact_mod_cast hfull
      have hexponent : (2 : ℚ) ^ (53 + f) ≤ 2 ^ (52 + e) := by
        have : 53 + f ≤ 52 + e := by omega
        gcongr
        norm_num
      calc (n * 2 ^ f : ℚ) ≤ 2 ^ (52 + e) := (mul_zpow_lt hn f).le.trans hexponent
        _ = (2 ^ 52 : ℕ) * 2 ^ e := by
            rw [zpow_add₀ two_ne_zero]
            norm_num
        _ ≤ m * 2 ^ e := by gcongr

/-- A number that 64 bits can hold is rounded to itself. -/
theorem eq_of_isHeld (hx : IsHeld x) : m * 2 ^ e = x :=
  le_antisymm (h.le_of_le hx le_rfl) (h.ge_of_ge hx le_rfl)

/-- What is not too great is rounded to a number below the bound for infinities. -/
theorem log2_add_lt (hx : x ≠ 0) (hle : x ≤ greatest) : (m.log2 : ℤ) + e < 1024 := by
  have hbelow : (m * 2 ^ e : ℚ) < 2 ^ (1024 : ℤ) :=
    (h.le_of_le isHeld_greatest hle).trans_lt greatest_lt
  by_cases hm : m = 0
  · subst hm
    rcases h.full with hzero | hmin | hfull
    · exact absurd hzero hx
    · simp [hmin]
    · have hone : (1 : ℕ) ≤ 0 := by
        apply h.near.ge_of_ge
        rw [le_div_iff₀ (by positivity), Nat.cast_one, one_mul]
        refine le_trans ?_ hfull
        gcongr
        · norm_num
        · omega
      omega
  · have hlog : (2 : ℚ) ^ ((m.log2 : ℤ) + e) ≤ m * 2 ^ e := by
      rw [zpow_add₀ two_ne_zero, zpow_natCast]
      gcongr
      exact_mod_cast Nat.log2_self_le hm
    exact (zpow_lt_zpow_iff_right₀ (by norm_num)).1 (hlog.trans_lt hbelow)

end Rounds

/-! ## Half a unit of the last place -/

namespace Rounds

variable {x : ℚ} {m k : ℕ} {e f : ℤ} (h : Rounds x m e)

include h

/-- What is rounded at a lesser exponent stays below the numbers of the greater one. -/
theorem le_of_exponent_lt (hf : -1074 ≤ f) (hlt : e < f) :
    x < 2 ^ (52 + f) ∧ (m * 2 ^ e : ℚ) ≤ 2 ^ (52 + f) := by
  have hheld : IsHeld (2 ^ (52 + f)) :=
    ⟨2 ^ 52, f, by norm_num, hf, by rw [zpow_add₀ two_ne_zero]; norm_num⟩
  have hbelow : x < 2 ^ (52 + f) :=
    h.high.trans_le (zpow_le_zpow_right₀ one_le_two (by omega))
  exact ⟨hbelow, h.le_of_le hheld hbelow.le⟩

/-- What is rounded at a greater exponent is above the numbers of the lesser one. -/
theorem ge_of_exponent_gt (hf : -1074 ≤ f) (hgt : f < e) (hx : x ≠ 0) : (2 : ℚ) ^ (53 + f) ≤ x := by
  rcases h.full with hzero | hmin | hfull
  · exact absurd hzero hx
  · omega
  · exact (zpow_le_zpow_right₀ one_le_two (by omega)).trans hfull

/-- What is rounded up to a number with an even mantissa lies at most half a unit of its last place
below it. -/
theorem le_mul_zpow_iff (hlow : 2 ^ 52 < k) (hhigh : k < 2 ^ 53) (heven : k % 2 = 0)
    (hf : -1074 ≤ f) : (k * 2 ^ f : ℚ) ≤ m * 2 ^ e ↔ ((k : ℚ) - 1 / 2) * 2 ^ f ≤ x := by
  have hpos : (0 : ℚ) < 2 ^ f := by positivity
  have hnext : (2 : ℚ) ^ 52 + 1 ≤ k := by exact_mod_cast hlow
  have hbelow : (2 : ℚ) ^ (52 + f) < (k - 1 / 2) * 2 ^ f := by
    rw [zpow_add₀ two_ne_zero, zpow_ofNat]
    gcongr
    linarith
  have hgap : ((k : ℚ) - 1 / 2) * 2 ^ f < k * 2 ^ f := by
    gcongr
    linarith
  rcases lt_trichotomy e f with hlt | rfl | hgt
  · obtain ⟨hx, hround⟩ := h.le_of_exponent_lt hf hlt
    exact iff_of_false (not_le.2 (by linarith)) (not_le.2 (by linarith))
  · have hiff := h.near.le_iff_of_even heven
    rw [le_div_iff₀ hpos] at hiff
    rw [← hiff, mul_le_mul_iff_left₀ hpos]
    exact Nat.cast_le
  · by_cases hx : x = 0
    · have hscale : (0 : ℚ) < 2 ^ (52 + f) := by positivity
      rw [h.eq_zero hx, hx, Nat.cast_zero, zero_mul]
      exact iff_of_false (not_le.2 (by linarith)) (not_le.2 (by linarith))
    · have hge := (mul_zpow_lt hhigh f).le.trans (h.ge_of_exponent_gt hf hgt hx)
      exact iff_of_true (h.ge_of_ge ⟨k, f, hhigh, hf, rfl⟩ hge) (by linarith)

/-- What is rounded up to a whole number lies at most half a unit of the last place below it. -/
theorem sub_half_le (hle : (k : ℚ) ≤ m * 2 ^ e) : (k : ℚ) - 2 ^ e / 2 ≤ x := by
  have hpos : (0 : ℚ) < 2 ^ e := by positivity
  have hnear := h.near.low
  rw [le_div_iff₀ hpos] at hnear
  linarith

end Rounds

/-! ## Operations -/

theorem rounds_zero : Rounds 0 0 0 where
  near := ⟨by norm_num, by norm_num, fun _ => rfl⟩
  least := by norm_num
  high := by positivity
  full := Or.inl rfl

/-- A ratio is rounded. -/
theorem exists_ofRatio (negative : Bool) (num : ℕ) {den : ℕ} (hden : 0 < den)
    (hle : (num / den : ℚ) ≤ greatest) :
    ∃ m e, ofRatio negative num den = .finite negative m e ∧ Rounds (num / den) m e := by
  by_cases hzero : num = 0
  · subst hzero
    refine ⟨0, 0, if_pos rfl, ?_⟩
    rw [Nat.cast_zero, zero_div]
    exact rounds_zero
  · have hnum : 0 < num := Nat.pos_of_ne_zero hzero
    have hpos : (0 : ℚ) < num / den := by positivity
    obtain ⟨hleast, hhigh, hfull⟩ := exponentFor_bounds hnum hden
    obtain ⟨e, he⟩ : ∃ e, e = exponentFor num den := ⟨_, rfl⟩
    obtain ⟨m, hm⟩ : ∃ m, m = roundDiv (num * powDen e) (powNum den e) := ⟨_, rfl⟩
    have hratio : ((num * powDen e : ℕ) / (powNum den e : ℕ) : ℚ) = num / den / 2 ^ e := by
      have hscale : (0 : ℚ) < powDen e := by exact_mod_cast powDen_pos e
      rw [powNum_eq_mul_powDen, Nat.cast_mul, mul_div_mul_right _ _ hscale.ne', div_div]
    have hrounds : Rounds (num / den) m e := by
      rw [← he] at hleast hhigh hfull
      refine ⟨?_, hleast, hhigh, Or.inr hfull⟩
      have hpowpos : 0 < powNum den e := Nat.mul_pos hden (Nat.pow_pos (by decide))
      have hnear := isNearest_roundDiv (num * powDen e) hpowpos
      rwa [← hm, hratio] at hnear
    refine ⟨m, e, ?_, hrounds⟩
    have hfinite := hrounds.log2_add_lt hpos.ne' hle
    rw [ofRatio, if_neg hzero, ← he]
    simp only
    rw [← hm, if_neg (by omega)]

theorem exists_ofNat {n : ℕ} (hle : (n : ℚ) ≤ greatest) :
    ∃ m e, ofNat n = .finite false m e ∧ Rounds n m e := by
  have hone : (n / (1 : ℕ) : ℚ) = n := by rw [Nat.cast_one, div_one]
  obtain ⟨m, e, hfinite, hrounds⟩ := exists_ofRatio false n Nat.one_pos (hone.trans_le hle)
  rw [hone] at hrounds
  exact ⟨m, e, hfinite, hrounds⟩

theorem exists_mulNat (negative : Bool) (m : ℕ) (e : ℤ) {n : ℕ}
    (hle : (m * 2 ^ e * n : ℚ) ≤ greatest) :
    ∃ m' e', mulNat n (.finite negative m e) = .finite negative m' e' ∧
      Rounds (m * 2 ^ e * n) m' e' := by
  have hvalue : ((powNum m e * n : ℕ) / (powDen e : ℕ) : ℚ) = m * 2 ^ e * n := by
    rw [Nat.cast_mul, mul_div_right_comm, powNum_div_powDen]
  rw [← hvalue] at hle ⊢
  exact exists_ofRatio negative _ (powDen_pos e) hle

theorem exists_divNat (negative : Bool) (m : ℕ) (e : ℤ) {n : ℕ} (hn : 0 < n)
    (hle : (m * 2 ^ e / n : ℚ) ≤ greatest) :
    ∃ m' e', divNat n (.finite negative m e) = .finite negative m' e' ∧
      Rounds (m * 2 ^ e / n) m' e' := by
  have hvalue : ((powNum m e : ℕ) / (powDen e * n : ℕ) : ℚ) = m * 2 ^ e / n := by
    rw [Nat.cast_mul, ← div_div, powNum_div_powDen]
  rw [← hvalue] at hle ⊢
  exact exists_ofRatio negative _ (Nat.mul_pos (powDen_pos e) hn) hle

/-- Two numbers over one denominator. -/
theorem exists_common (m : ℕ) (e : ℤ) (m₂ : ℕ) (e₂ : ℤ) :
    0 < powDen e * powDen e₂ ∧
      ((powNum m e * powDen e₂ : ℕ) / (powDen e * powDen e₂ : ℕ) : ℚ) = m * 2 ^ e ∧
      ((powNum m₂ e₂ * powDen e : ℕ) / (powDen e * powDen e₂ : ℕ) : ℚ) = m₂ * 2 ^ e₂ := by
  have hden : (0 : ℚ) < powDen e := by exact_mod_cast powDen_pos e
  have hden₂ : (0 : ℚ) < powDen e₂ := by exact_mod_cast powDen_pos e₂
  refine ⟨Nat.mul_pos (powDen_pos e) (powDen_pos e₂), ?_, ?_⟩
  · rw [Nat.cast_mul, Nat.cast_mul, mul_div_mul_right _ _ hden₂.ne', powNum_div_powDen]
  · rw [Nat.cast_mul, Nat.cast_mul, mul_comm (powDen e : ℚ), mul_div_mul_right _ _ hden.ne',
      powNum_div_powDen]

theorem exists_sub (m : ℕ) (e : ℤ) (m₂ : ℕ) (e₂ : ℤ) (negative : Bool)
    (hle : |(m * 2 ^ e - m₂ * 2 ^ e₂ : ℚ)| ≤ greatest) :
    ∃ m' e', sub (.finite false m e) (.finite negative m₂ e₂) =
        .finite (decide ((m * 2 ^ e : ℚ) < m₂ * 2 ^ e₂)) m' e' ∧
      Rounds |(m * 2 ^ e - m₂ * 2 ^ e₂ : ℚ)| m' e' := by
  obtain ⟨hden, hfirst, hsecond⟩ := exists_common m e m₂ e₂
  have hpos : (0 : ℚ) < (powDen e * powDen e₂ : ℕ) := by exact_mod_cast hden
  by_cases hba : powNum m₂ e₂ * powDen e ≤ powNum m e * powDen e₂
  · have hvalues : (m₂ * 2 ^ e₂ : ℚ) ≤ m * 2 ^ e := by
      rw [← hfirst, ← hsecond]
      gcongr
    have hdiff : ((powNum m e * powDen e₂ - powNum m₂ e₂ * powDen e : ℕ) /
        (powDen e * powDen e₂ : ℕ) : ℚ) = |(m * 2 ^ e - m₂ * 2 ^ e₂ : ℚ)| := by
      rw [abs_of_nonneg (sub_nonneg.2 hvalues), Nat.cast_sub hba, sub_div, hfirst, hsecond]
    rw [← hdiff] at hle ⊢
    obtain ⟨m', e', hfinite, hrounds⟩ := exists_ofRatio false _ hden hle
    refine ⟨m', e', ?_, hrounds⟩
    rw [decide_eq_false (not_lt.2 hvalues), ← hfinite]
    simp only [sub, hba, if_true, Bool.false_eq_true, if_false]
  · have hab : powNum m e * powDen e₂ ≤ powNum m₂ e₂ * powDen e := by omega
    have hvalues : (m * 2 ^ e : ℚ) < m₂ * 2 ^ e₂ := by
      rw [← hfirst, ← hsecond]
      exact div_lt_div_of_pos_right (by exact_mod_cast Nat.lt_of_not_le hba) hpos
    have hdiff : ((powNum m₂ e₂ * powDen e - powNum m e * powDen e₂ : ℕ) /
        (powDen e * powDen e₂ : ℕ) : ℚ) = |(m * 2 ^ e - m₂ * 2 ^ e₂ : ℚ)| := by
      rw [abs_of_neg (sub_neg.2 hvalues), neg_sub, Nat.cast_sub hab, sub_div, hfirst, hsecond]
    rw [← hdiff] at hle ⊢
    obtain ⟨m', e', hfinite, hrounds⟩ := exists_ofRatio true _ hden hle
    refine ⟨m', e', ?_, hrounds⟩
    rw [decide_eq_true hvalues, ← hfinite]
    simp only [sub, hba, Bool.false_eq_true, if_false]

/-! ## Comparing and writing -/

theorem ltNat_finite (m : ℕ) (e : ℤ) (n : ℕ) :
    (finite false m e).ltNat n = true ↔ (m * 2 ^ e : ℚ) < n := by
  have hpos : (0 : ℚ) < powDen e := by exact_mod_cast powDen_pos e
  rw [← powNum_div_powDen, div_lt_iff₀ hpos]
  simp only [ltNat, Bool.false_eq_true, if_false, decide_eq_true_eq]
  exact_mod_cast Iff.rfl

theorem wholePart_finite (bound m : ℕ) (e : ℤ) :
    (finite false m e).wholePart bound = min ⌊(m * 2 ^ e : ℚ)⌋₊ bound := by
  rw [← powNum_div_powDen, Nat.floor_div_eq_div]
  rfl

/-- What is written of a finite number: the digits of a nearest whole number. -/
theorem exists_toFixed (places : ℕ) (negative : Bool) (m : ℕ) (e : ℤ) :
    ∃ n, (finite negative m e).toFixed places = (if negative then "-" else "") ++ pointed places n ∧
      IsNearest (m * 2 ^ e * 10 ^ places) n := by
  refine ⟨_, rfl, ?_⟩
  have hnear := isNearest_roundDiv (powNum m e * Nat.pow 10 places) (powDen_pos e)
  have hvalue : ((powNum m e * Nat.pow 10 places : ℕ) / (powDen e : ℕ) : ℚ) =
      m * 2 ^ e * 10 ^ places := by
    rw [Nat.cast_mul, mul_div_right_comm, powNum_div_powDen]
    norm_num
  rwa [hvalue] at hnear

end Binary64

end Sweep.Number
