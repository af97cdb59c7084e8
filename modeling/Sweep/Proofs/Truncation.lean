import Mathlib
import Sweep.Display
/-!
# Texts that are cut

A text that is too long is cut in one of two ways: to dots alone, where nothing else fits, or to three
dots and the end of the text. A text that was cut before is cut again in the same way, and its end is
the same one, so it does not matter whether it was cut before to a greater length.

The differences of lengths in a cut are taken as numbers that stop at zero. `truncate?` takes them as
partial ones and has no result where one is missing. None is, as each is only taken where the length
that it is taken from was compared before.

## Main results

* `truncate_append` — of a long text its end is kept.
* `truncate_truncate` — cutting twice is cutting to the lesser length.
* `truncate?_eq_some` — no difference is missing.
* `truncate_composes` — all that a cut does to a text.
-/

namespace Sweep

variable {limit : Nat} {text : List Char}

/-! ## Three kinds of cuts -/

theorem truncate_of_short (h : text.length ≤ limit) : truncate limit text = text :=
  if_pos h

theorem truncate_of_dots (hlong : limit < text.length) (hdots : limit ≤ 3) :
    truncate limit text = List.replicate limit '.' := by
  rw [truncate, if_neg (by omega), if_pos hdots]

/-- Of a long text its end is kept, after three dots. -/
theorem truncate_append {front back : List Char} (hback : back ≠ []) (hfront : 3 < front.length)
    (hlimit : limit = back.length + 3) :
    truncate limit (front ++ back) = "...".toList ++ back := by
  have hpos : 0 < back.length := List.length_pos_iff.2 hback
  have hdropped : (front ++ back).length - (limit - 3) = front.length := by
    rw [List.length_append]
    omega
  rw [truncate, if_neg (by rw [List.length_append]; omega), if_neg (by omega), hdropped,
    List.drop_left]
  rfl

/-- The end of a list that has a given length. -/
theorem exists_append_of_le_length {α : Type} (xs : List α) {n : Nat} (h : n ≤ xs.length) :
    ∃ front back, xs = front ++ back ∧ back.length = n :=
  ⟨xs.take (xs.length - n), xs.drop (xs.length - n), (List.take_append_drop _ xs).symm, by
    rw [List.length_drop]
    omega⟩

/-- A text that is cut to more than dots. -/
theorem exists_end (hlimit : 3 < limit) (hlong : limit < text.length) :
    ∃ front back, text = front ++ back ∧ back.length = limit - 3 ∧
      truncate limit text = "...".toList ++ back := by
  obtain ⟨front, back, rfl, hback⟩ :=
    exists_append_of_le_length text (show limit - 3 ≤ text.length by omega)
  rw [List.length_append] at hlong
  have hne : back ≠ [] := List.length_pos_iff.1 (by omega)
  exact ⟨front, back, rfl, hback, truncate_append hne (by omega) (by omega)⟩

/-! ## Cut twice -/

/-- A text is kept if and only if it is short enough. -/
theorem truncate_eq_self_iff : truncate limit text = text ↔ text.length ≤ limit := by
  refine ⟨fun h => ?_, truncate_of_short⟩
  have hlength := length_truncate limit text
  rw [h] at hlength
  omega

/-- Cutting a text to a length and then to a lesser one is cutting it to the lesser one. -/
theorem truncate_truncate {n m : Nat} (h : n ≤ m) (text : List Char) :
    truncate n (truncate m text) = truncate n text := by
  rcases Nat.lt_or_ge m text.length with hlong | hshort
  · have hlength : (truncate m text).length = m := by
      rw [length_truncate]
      omega
    rcases Nat.eq_or_lt_of_le h with rfl | hless
    · exact truncate_of_short hlength.le
    · rcases Nat.lt_or_ge 3 n with hend | hdots
      · obtain ⟨front, back, rfl, hback, hcut⟩ := exists_end (by omega) hlong
        -- what the lesser length keeps is an end of what the greater one keeps
        obtain ⟨mid, last, rfl, hlast⟩ :=
          exists_append_of_le_length back (show n - 3 ≤ back.length by omega)
        have hthree : "...".toList.length = 3 := rfl
        simp only [List.length_append] at hback hlong
        have hne : last ≠ [] := List.length_pos_iff.1 (by omega)
        rw [hcut, ← List.append_assoc, ← List.append_assoc,
          truncate_append hne (by rw [List.length_append]; omega) (by omega),
          truncate_append hne (by rw [List.length_append]; omega) (by omega)]
      · rw [truncate_of_dots (hlength.symm ▸ hless) hdots, truncate_of_dots (by omega) hdots]
  · rw [truncate_of_short hshort]

/-! ## Differences that exist -/

/-- A cut that has no result where a difference is missing. -/
def truncate? (limit : Nat) (text : List Char) : Option (List Char) :=
  if text.length ≤ limit then some text
  else if limit ≤ 3 then some (List.replicate limit '.')
  else do
    let kept ← limit.psub 3
    let dropped ← text.length.psub kept
    return '.' :: '.' :: '.' :: text.drop dropped

/-- No difference is missing. -/
theorem truncate?_eq_some (limit : Nat) (text : List Char) :
    truncate? limit text = some (truncate limit text) := by
  unfold truncate? truncate
  split
  · rfl
  · split
    · rfl
    · have hkept : limit.psub 3 = some (limit - 3) := Nat.psub_eq_sub (by omega)
      have hdropped : text.length.psub (limit - 3) = some (text.length - (limit - 3)) :=
        Nat.psub_eq_sub (by omega)
      rw [hkept, Option.bind_eq_bind, Option.bind_some, hdropped]
      rfl

/-- A cut text has as many characters as fit, and it is the text itself if and only if that fits as a
whole; else, where more than dots fit, it is three dots and the end of the text. It is the same if the
text was cut before to a greater length or to the same one. Every difference that it is made with
exists. -/
theorem truncate_composes (text : List Char) (n : Nat) :
    (∀ m, n ≤ m → truncate n (truncate m text) = truncate n text) ∧
      truncate n (truncate n text) = truncate n text ∧
      (truncate n text).length = min text.length n ∧
      (truncate n text = text ↔ text.length ≤ n) ∧
      (3 < n → n < text.length → ∃ front back, text = front ++ back ∧ back.length = n - 3 ∧
        truncate n text = "...".toList ++ back) ∧
      truncate? n text = some (truncate n text) :=
  ⟨fun _ h => truncate_truncate h text, truncate_truncate (Nat.le_refl n) text,
    length_truncate n text, truncate_eq_self_iff, exists_end, truncate?_eq_some n text⟩

/-- Letters count once, however many bytes they have. -/
theorem truncate_composes_of_umlauts :
    let text := "/über/größe".toList
    5 ≤ 8 ∧ 3 < 5 ∧ 5 < text.length ∧ truncate 8 text = "...größe".toList ∧
      truncate 5 (truncate 8 text) = "...ße".toList ∧
      ∃ front back, text = front ++ back ∧ back.length = 2 ∧
        truncate 5 text = "...".toList ++ back := by
  intro text
  obtain ⟨htwice, -, -, -, hend, -⟩ := truncate_composes text 5
  have hcut : truncate 5 text = "...ße".toList := by decide
  exact ⟨by decide, by decide, by decide, by decide, (htwice 8 (by decide)).trans hcut,
    hend (by decide) (by decide)⟩

end Sweep
