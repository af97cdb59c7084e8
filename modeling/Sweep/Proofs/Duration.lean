import Mathlib
import Sweep.Display
import Sweep.Proofs.Number.Binary64
/-!
# Durations as they are shown

The unit of a duration is chosen first, and the number in front of it is rounded afterwards. So just
below the next unit the number is rounded up to it: what lasts 0.9996 seconds is shown as 1000
milliseconds, 59.96 seconds as 60.0, and 119.7 seconds as a minute and 60 seconds.

How far below depends on what is rounded. Milliseconds are rounded twice, as a product in floating
point and as a whole number. Seconds are written with one decimal place of their exact value. The
seconds beside minutes are exact below `2 ^ 55`, where minutes are never rounded up; above that they
are what floating point leaves of a difference, which may be far from what was meant.

## Main results

* `floor_div_sixty` — the minutes are whole minutes.
* `displayDuration_reaches_unit_iff` — which durations are shown with a full unit.
-/

namespace Sweep

open Number Number.Binary64

namespace Number

namespace Binary64

/-! ## Multiples of sixty -/

/-- Sixty is four times fifteen. -/
theorem exists_sixty_mul (k : ℕ) {f : ℤ} (hf : f ≤ 2) : ∃ n : ℕ, (60 * k : ℚ) = n * 2 ^ f := by
  obtain ⟨n, hn⟩ := exists_eq_mul_zpow (15 * k) hf
  refine ⟨n, ?_⟩
  rw [← hn]
  push_cast
  ring

/-- So what lies below a multiple of sixty lies at least a unit below it. -/
theorem unit_le_sixty_mul_sub {n k : ℕ} {f : ℤ} (hf : f ≤ 2) (hlt : (n * 2 ^ f : ℚ) < 60 * k) :
    (2 : ℚ) ^ f ≤ 60 * k - n * 2 ^ f := by
  obtain ⟨whole, hwhole⟩ := exists_sixty_mul k hf
  have hpos : (0 : ℚ) < 2 ^ f := by positivity
  rw [hwhole] at hlt ⊢
  have hless : n + 1 ≤ whole := by exact_mod_cast lt_of_mul_lt_mul_right hlt hpos.le
  have hscaled : ((n + 1 : ℕ) * 2 ^ f : ℚ) ≤ whole * 2 ^ f := by gcongr
  push_cast at hscaled
  linarith

/-- Minutes are whole minutes: a quotient by 60 is not rounded up to a whole number. -/
theorem floor_div_sixty {v : ℚ} {n m : ℕ} {f e : ℤ} (hn : n < 2 ^ 53) (hf : f ≤ 2)
    (hv : v = n * 2 ^ f) (hlow : 60 ≤ v) (hhigh : v < 2 ^ 55) (h : Rounds (v / 60) m e) :
    ⌊(m * 2 ^ e : ℚ)⌋₊ = ⌊v / 60⌋₊ := by
  obtain ⟨k, hk⟩ : ∃ k, k = ⌊v / 60⌋₊ := ⟨_, rfl⟩
  have hkle : (k : ℚ) ≤ v / 60 := hk ▸ Nat.floor_le (by positivity)
  have hklt : v / 60 < k + 1 := hk ▸ Nat.lt_floor_add_one _
  have hkheld : k < 2 ^ 53 := by
    have hkq : (k : ℚ) < 2 ^ 53 := by linarith
    exact_mod_cast hkq
  rw [← hk, Nat.floor_eq_iff (by positivity)]
  refine ⟨h.ge_of_ge (isHeld_natCast hkheld) hkle, ?_⟩
  by_contra hge
  have hfull : (2 : ℚ) ^ (52 + e) ≤ v / 60 := by
    rcases h.full with hzero | hmin | hfull
    · linarith
    · have hsmall : (2 : ℚ) ^ (53 + e) ≤ 2 ^ (0 : ℤ) := zpow_le_zpow_right₀ one_le_two (by omega)
      rw [zpow_zero] at hsmall
      linarith [h.high]
    · exact hfull
  -- half a unit of the quotient is less than a unit of the seconds, so these would lie too near
  have hhalf := h.sub_half_le (k := k + 1) (by exact_mod_cast not_lt.1 hge)
  have hunit : (30 : ℚ) * 2 ^ e < 2 ^ f := by
    have hvlt : v < 2 ^ (53 + f) := hv ▸ mul_zpow_lt hn f
    rw [zpow_add₀ two_ne_zero, zpow_ofNat] at hfull hvlt
    linarith
  have hdistance := unit_le_sixty_mul_sub (n := n) (k := k + 1) hf (by
    rw [← hv]
    push_cast
    linarith)
  rw [← hv] at hdistance
  push_cast at hdistance hhalf
  linarith

end Binary64

end Number

/-! ## The three forms -/

section Forms

variable {m : ℕ} {e : ℤ}

theorem pointed_zero (n : ℕ) : pointed 0 n = toString n := rfl

theorem pointed_one (n : ℕ) : pointed 1 n = toString (n / 10) ++ "." ++ toString (n % 10) := by
  have hdigit : ∀ d < 10, (toString d).length = 1 := by decide
  have hlength := hdigit (n % 10) (Nat.mod_lt n (by decide))
  show toString (n / 10) ++ "." ++ String.ofList (List.replicate (1 - (toString (n % 10)).length) '0')
    ++ toString (n % 10) = _
  rw [hlength, Nat.sub_self, List.replicate_zero, String.ofList_nil, String.append_empty]

/-- Below a second. -/
theorem displayDuration_milliseconds (hlt : (m * 2 ^ e : ℚ) < 1) :
    ∃ n : ℕ, displayDuration (finite false m e) = toString n ++ "ms" ∧ n ≤ 1000 ∧
      (1000 ≤ n ↔ 1999 / 2 - 1 / 2 ^ 44 ≤ (m * 2 ^ e * 1000 : ℚ)) := by
  have hbelow : (m * 2 ^ e * (1000 : ℕ) : ℚ) ≤ (1000 : ℕ) := by
    push_cast
    linarith
  obtain ⟨m', e', hproduct, hrounds⟩ := exists_mulNat false m e
    (le_greatest_of_le (hbelow.trans (by norm_num)))
  obtain ⟨n, htext, hnear⟩ := exists_toFixed 0 false m' e'
  rw [pow_zero, mul_one] at hnear
  refine ⟨n, ?_, ?_, ?_⟩
  · have hunit : (finite false m e).ltNat 1 = true := (ltNat_finite m e 1).2 (by exact_mod_cast hlt)
    rw [displayDuration, if_pos hunit, hproduct, htext, pointed_zero]
    rfl
  · exact hnear.le_of_le (hrounds.le_of_le (isHeld_natCast (by norm_num)) hbelow)
  · rw [hnear.le_iff_of_even (by norm_num)]
    have hiff := hrounds.le_mul_zpow_iff (k := 1999 * 2 ^ 42) (f := -43) (by norm_num)
      (by norm_num) (by norm_num) (by norm_num)
    norm_num at hiff ⊢
    exact hiff

/-- Below a minute. -/
theorem displayDuration_seconds (hge : (1 : ℚ) ≤ m * 2 ^ e) (hlt : (m * 2 ^ e : ℚ) < 60) :
    ∃ n : ℕ, displayDuration (finite false m e) =
        toString (n / 10) ++ "." ++ toString (n % 10) ++ "s" ∧ n ≤ 600 ∧
      (600 ≤ n ↔ 1199 / 20 ≤ (m * 2 ^ e : ℚ)) := by
  obtain ⟨n, htext, hnear⟩ := exists_toFixed 1 false m e
  refine ⟨n, ?_, ?_, ?_⟩
  · have hnot : ¬ (finite false m e).ltNat 1 = true := by
      rw [ltNat_finite]
      exact_mod_cast not_lt.2 hge
    have hunit : (finite false m e).ltNat 60 = true :=
      (ltNat_finite m e 60).2 (by exact_mod_cast hlt)
    rw [displayDuration, if_neg hnot, if_pos hunit, htext, pointed_one]
    rfl
  · apply hnear.le_of_le
    push_cast
    linarith
  · rw [hnear.le_iff_of_even (by norm_num)]
    push_cast
    constructor <;> intro h <;> linarith

/-- The minutes of a duration. -/
def shownMinutes (seconds : Binary64) : ℕ :=
  (seconds.divNat 60).wholePart minuteLimit

/-- What is left of a duration beside its minutes. -/
def shownRest (seconds : Binary64) : Binary64 :=
  seconds.sub ((Binary64.ofNat (shownMinutes seconds)).mulNat 60)

theorem displayDuration_of_minute (hge : (60 : ℚ) ≤ m * 2 ^ e) :
    displayDuration (finite false m e) = toString (shownMinutes (finite false m e)) ++ "m " ++
      (shownRest (finite false m e)).toFixed 0 ++ "s" := by
  have hnot : ∀ n ≤ 60, ¬ (finite false m e).ltNat n = true := by
    intro n hn
    rw [ltNat_finite, not_lt]
    exact le_trans (by exact_mod_cast hn) hge
  rw [displayDuration, if_neg (hnot 1 (by norm_num)), if_neg (hnot 60 le_rfl)]
  rfl

theorem exists_shownMinutes (h : Fits m e) :
    ∃ (n : ℕ) (f : ℤ), shownMinutes (finite false m e) = min ⌊(n * 2 ^ f : ℚ)⌋₊ minuteLimit ∧
      Rounds (m * 2 ^ e / 60) n f := by
  have hle : (m * 2 ^ e / (60 : ℕ) : ℚ) ≤ greatest :=
    (div_le_self (by positivity) (by norm_num)).trans h.le_greatest
  obtain ⟨n, f, hquotient, hrounds⟩ := exists_divNat false m e (by norm_num) hle
  refine ⟨n, f, ?_, by exact_mod_cast hrounds⟩
  rw [shownMinutes, hquotient, wholePart_finite]

/-- What is left beside the minutes is finite: a difference that is rounded once more, after the
minutes and their product. -/
theorem exists_shownRest (h : Fits m e) :
    ∃ (n : ℕ) (f : ℤ) (n₂ : ℕ) (f₂ : ℤ) (n₃ : ℕ) (f₃ : ℤ),
      Rounds (shownMinutes (finite false m e)) n f ∧ Rounds (n * 2 ^ f * 60) n₂ f₂ ∧
        (n₂ * 2 ^ f₂ : ℚ) ≤ 2 ^ 70 ∧
        shownRest (finite false m e) =
          .finite (decide ((m * 2 ^ e : ℚ) < n₂ * 2 ^ f₂)) n₃ f₃ ∧
        Rounds |(m * 2 ^ e - n₂ * 2 ^ f₂ : ℚ)| n₃ f₃ := by
  have hminutes : (shownMinutes (finite false m e) : ℚ) ≤ 2 ^ 64 := by
    obtain ⟨n, f, hmin, -⟩ := exists_shownMinutes h
    have hlimit : shownMinutes (finite false m e) ≤ 2 ^ 64 := by
      rw [hmin]
      exact (min_le_right _ _).trans (by decide)
    exact_mod_cast hlimit
  obtain ⟨n, f, hnat, hrounds⟩ := exists_ofNat (le_greatest_of_le (hminutes.trans (by norm_num)))
  have hvalue : (n * 2 ^ f : ℚ) ≤ 2 ^ 64 :=
    hrounds.le_of_le ⟨1, 64, by norm_num, by norm_num, by norm_num⟩ hminutes
  have hproductle : (n * 2 ^ f * (60 : ℕ) : ℚ) ≤ 2 ^ 70 := by
    push_cast
    linarith
  obtain ⟨n₂, f₂, hproduct, hrounds₂⟩ := exists_mulNat false n f (le_greatest_of_le hproductle)
  have hvalue₂ : (n₂ * 2 ^ f₂ : ℚ) ≤ 2 ^ 70 :=
    hrounds₂.le_of_le ⟨1, 70, by norm_num, by norm_num, by norm_num⟩ hproductle
  have hdiff : |(m * 2 ^ e - n₂ * 2 ^ f₂ : ℚ)| ≤ greatest := by
    have hfirst := h.le_greatest
    have hsecond := le_greatest_of_le hvalue₂
    have hpos : (0 : ℚ) ≤ m * 2 ^ e := by positivity
    have hpos₂ : (0 : ℚ) ≤ n₂ * 2 ^ f₂ := by positivity
    rw [abs_le]
    constructor <;> linarith
  obtain ⟨n₃, f₃, hrest, hrounds₃⟩ := exists_sub m e n₂ f₂ false hdiff
  refine ⟨n, f, n₂, f₂, n₃, f₃, hrounds, by exact_mod_cast hrounds₂, hvalue₂, ?_, hrounds₃⟩
  rw [shownRest, hnat, hproduct, hrest]

/-- Below `2 ^ 55` nothing is lost. -/
theorem shownRest_exact (h : Fits m e) (hge : (60 : ℚ) ≤ m * 2 ^ e)
    (hlt : (m * 2 ^ e : ℚ) < 2 ^ 55) :
    shownMinutes (finite false m e) = ⌊(m * 2 ^ e / 60 : ℚ)⌋₊ ∧
      ∃ (n : ℕ) (f : ℤ), shownRest (finite false m e) = .finite false n f ∧
        (n * 2 ^ f : ℚ) = m * 2 ^ e - 60 * ⌊(m * 2 ^ e / 60 : ℚ)⌋₊ := by
  obtain ⟨own, least, hown, hleast, hsmall, hsame⟩ := h.exists_exponent_le_two hlt
  obtain ⟨k, hk⟩ : ∃ k, k = ⌊(m * 2 ^ e / 60 : ℚ)⌋₊ := ⟨_, rfl⟩
  have hkle : (60 * k : ℚ) ≤ m * 2 ^ e := by
    have hfloor : (k : ℚ) ≤ m * 2 ^ e / 60 := by
      rw [hk]
      exact Nat.floor_le (by positivity)
    linarith
  have hksmall : 15 * k < 2 ^ 53 := by
    have hkq : (15 * k : ℚ) < 2 ^ 53 := by linarith
    exact_mod_cast hkq
  have hminutes : shownMinutes (finite false m e) = k := by
    obtain ⟨n, f, hmin, hrounds⟩ := exists_shownMinutes h
    rw [hmin, floor_div_sixty hown hsmall hsame hge hlt hrounds, ← hk]
    apply min_eq_left
    have hlimit : 2 ^ 53 ≤ minuteLimit := by decide
    omega
  rw [← hk]
  refine ⟨hminutes, ?_⟩
  obtain ⟨n, f, n₂, f₂, n₃, f₃, hrounds, hrounds₂, -, hrest, hrounds₃⟩ := exists_shownRest h
  have hvalue : (n * 2 ^ f : ℚ) = k := by
    rw [hminutes] at hrounds
    exact hrounds.eq_of_isHeld (isHeld_natCast (by omega))
  have hvalue₂ : (n₂ * 2 ^ f₂ : ℚ) = 60 * k := by
    rw [hvalue, mul_comm] at hrounds₂
    exact hrounds₂.eq_of_isHeld ⟨15 * k, 2, hksmall, by norm_num, by push_cast; ring⟩
  rw [hvalue₂] at hrest hrounds₃
  rw [abs_of_nonneg (sub_nonneg.2 hkle)] at hrounds₃
  rw [decide_eq_false (not_lt.2 hkle)] at hrest
  refine ⟨n₃, f₃, hrest, hrounds₃.eq_of_isHeld ?_⟩
  obtain ⟨whole, hsixty⟩ := exists_sixty_mul k hsmall
  have hwholele : whole ≤ own := by
    rw [hsixty, hsame] at hkle
    exact_mod_cast le_of_mul_le_mul_right hkle (by positivity)
  refine ⟨own - whole, least, by omega, hleast, ?_⟩
  rw [hsixty, hsame, Nat.cast_sub hwholele, sub_mul]

/-- From a minute on. -/
theorem displayDuration_minutes (h : Fits m e) (hge : (60 : ℚ) ≤ m * 2 ^ e) :
    ∃ (negative : Bool) (rest : ℚ) (n : ℕ),
      displayDuration (finite false m e) = toString (shownMinutes (finite false m e)) ++ "m " ++
        (if negative then "-" else "") ++ toString n ++ "s" ∧
      (∃ (m' : ℕ) (f : ℤ), shownRest (finite false m e) = .finite negative m' f ∧
        rest = m' * 2 ^ f) ∧
      (60 ≤ n ↔ 119 / 2 ≤ rest) ∧
      ((m * 2 ^ e : ℚ) < 2 ^ 55 → negative = false ∧ n ≤ 60 ∧
        shownMinutes (finite false m e) = ⌊(m * 2 ^ e / 60 : ℚ)⌋₊ ∧
        rest = m * 2 ^ e - 60 * ⌊(m * 2 ^ e / 60 : ℚ)⌋₊) ∧
      ((2 : ℚ) ^ 71 ≤ m * 2 ^ e → negative = false ∧ 60 ≤ n) := by
  obtain ⟨-, -, n₂, f₂, n₃, f₃, -, -, hvalue₂, hrest, hrounds⟩ := exists_shownRest h
  obtain ⟨negative, hnegative⟩ : ∃ negative, negative = decide ((m * 2 ^ e : ℚ) < n₂ * 2 ^ f₂) :=
    ⟨_, rfl⟩
  rw [← hnegative] at hrest
  obtain ⟨digits, htext, hnear⟩ := exists_toFixed 0 negative n₃ f₃
  rw [pow_zero, mul_one] at hnear
  have hreaches : 60 ≤ digits ↔ 119 / 2 ≤ (n₃ * 2 ^ f₃ : ℚ) := by
    rw [hnear.le_iff_of_even (by norm_num)]
    norm_num
  refine ⟨negative, n₃ * 2 ^ f₃, digits, ?_, ⟨n₃, f₃, hrest, rfl⟩, hreaches, ?_, ?_⟩
  · rw [displayDuration_of_minute hge, hrest, htext, pointed_zero]
    simp only [String.append_assoc]
  · intro hlt
    obtain ⟨hminutes, n', f', hexact, hvalue⟩ := shownRest_exact h hge hlt
    rw [hrest] at hexact
    cases hexact
    refine ⟨rfl, ?_, hminutes, hvalue⟩
    apply hnear.le_of_le
    have hfloor := Nat.lt_floor_add_one (m * 2 ^ e / 60 : ℚ)
    rw [hvalue]
    push_cast
    linarith
  · intro hgreat
    have hleft : (2 : ℚ) ^ 70 ≤ m * 2 ^ e - n₂ * 2 ^ f₂ := by linarith
    refine ⟨hnegative.trans (decide_eq_false (by linarith)), hreaches.2 ?_⟩
    have hrest := hrounds.ge_of_ge (y := 2 ^ 70) ⟨1, 70, by norm_num, by norm_num, by norm_num⟩
      (hleft.trans (le_abs_self _))
    linarith

/-- A negative zero is no more than a zero. -/
theorem displayDuration_negative_zero (e : ℤ) : displayDuration (finite true 0 e) = "-0ms" := by
  have hunit : (finite true 0 e).ltNat 1 = true := rfl
  have hproduct : (finite true 0 e).mulNat 1000 = finite true 0 0 := by
    rw [mulNat, powNum, Nat.zero_mul, Nat.zero_mul, ofRatio, if_pos rfl]
  rw [displayDuration, if_pos hunit, hproduct]
  rfl

/-- Which durations are shown with a full unit, among all that 64 bits can hold. In milliseconds those
at least as long as 999.5, up to half a unit of the last place in floating point; in seconds those at
least as long as 59.95. In minutes it is told by what floating point leaves beside them: below
`2 ^ 55`, a billion years, that is what is left of the whole minutes, so it is those with at least 59.5
seconds left, and from `2 ^ 71` on, where there are no more minutes to count, it is all. -/
theorem displayDuration_reaches_unit_iff (h : Fits m e) :
    ((m * 2 ^ e : ℚ) < 1 → ∃ n : ℕ, displayDuration (finite false m e) = toString n ++ "ms" ∧
        n ≤ 1000 ∧ (1000 ≤ n ↔ 1999 / 2 - 1 / 2 ^ 44 ≤ (m * 2 ^ e * 1000 : ℚ))) ∧
      ((1 : ℚ) ≤ m * 2 ^ e → (m * 2 ^ e : ℚ) < 60 →
        ∃ n : ℕ, displayDuration (finite false m e) =
            toString (n / 10) ++ "." ++ toString (n % 10) ++ "s" ∧
          n ≤ 600 ∧ (600 ≤ n ↔ 1199 / 20 ≤ (m * 2 ^ e : ℚ))) ∧
      ((60 : ℚ) ≤ m * 2 ^ e → ∃ (negative : Bool) (rest : ℚ) (n : ℕ),
        displayDuration (finite false m e) = toString (shownMinutes (finite false m e)) ++ "m " ++
          (if negative then "-" else "") ++ toString n ++ "s" ∧
        (∃ (m' : ℕ) (f : ℤ), shownRest (finite false m e) = .finite negative m' f ∧
          rest = m' * 2 ^ f) ∧
        (60 ≤ n ↔ 119 / 2 ≤ rest) ∧
        ((m * 2 ^ e : ℚ) < 2 ^ 55 → negative = false ∧ n ≤ 60 ∧
          shownMinutes (finite false m e) = ⌊(m * 2 ^ e / 60 : ℚ)⌋₊ ∧
          rest = m * 2 ^ e - 60 * ⌊(m * 2 ^ e / 60 : ℚ)⌋₊) ∧
        ((2 : ℚ) ^ 71 ≤ m * 2 ^ e → negative = false ∧ 60 ≤ n)) ∧
      displayDuration (finite true 0 e) = "-0ms" :=
  ⟨displayDuration_milliseconds, displayDuration_seconds, displayDuration_minutes h,
    displayDuration_negative_zero e⟩

/-- Each unit is reached: from 2047/2048, 1919/32 and 479/4 seconds. -/
theorem displayDuration_reaches_each_unit :
    (Fits 2047 (-11) ∧ displayDuration (finite false 2047 (-11)) = "1000ms") ∧
      (Fits 1919 (-5) ∧ displayDuration (finite false 1919 (-5)) = "60.0s") ∧
      Fits 479 (-2) ∧ displayDuration (finite false 479 (-2)) = "1m 60s" := by
  have hmilliseconds : Fits 2047 (-11) := ⟨by norm_num, by norm_num, by norm_num⟩
  have hseconds : Fits 1919 (-5) := ⟨by norm_num, by norm_num, by norm_num⟩
  have hminutes : Fits 479 (-2) := ⟨by norm_num, by norm_num, by norm_num⟩
  refine ⟨⟨hmilliseconds, ?_⟩, ⟨hseconds, ?_⟩, hminutes, ?_⟩
  · obtain ⟨n, htext, hle, hge⟩ := (displayDuration_reaches_unit_iff hmilliseconds).1 (by norm_num)
    obtain rfl : n = 1000 := le_antisymm hle (hge.2 (by norm_num))
    rw [htext]
    decide
  · obtain ⟨n, htext, hle, hge⟩ :=
      (displayDuration_reaches_unit_iff hseconds).2.1 (by norm_num) (by norm_num)
    obtain rfl : n = 600 := le_antisymm hle (hge.2 (by norm_num))
    rw [htext]
    decide
  · obtain ⟨negative, rest, n, htext, -, hge, hexact, -⟩ :=
      (displayDuration_reaches_unit_iff hminutes).2.2.1 (by norm_num)
    obtain ⟨rfl, hle, hwhole, hrest⟩ := hexact (by norm_num)
    have hone : ⌊((479 : ℕ) * 2 ^ (-2 : ℤ) / 60 : ℚ)⌋₊ = 1 := by
      rw [Nat.floor_eq_iff (by positivity)]
      norm_num
    rw [hone] at hwhole hrest
    obtain rfl : n = 60 := le_antisymm hle (hge.2 (by rw [hrest]; norm_num))
    rw [htext, hwhole]
    decide

end Forms

end Sweep
