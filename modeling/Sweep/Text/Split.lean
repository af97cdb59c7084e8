/-!
# Cutting a sequence at its separators

`split p xs` cuts `xs` at every element that satisfies `p`. The separators are dropped and empty
pieces are kept, so a sequence with `n` separators always has `n + 1` pieces. Paths (cut at a
slash), texts (cut at a line feed) and lines (cut at blanks) are all read through it.

## Main results

* `join_split` — with one fixed separator, joining the pieces gives the sequence back.
* `forall_mem_split` — no piece holds a separator.
* `split_ne_nil` — there is always at least one piece.
-/

namespace Sweep.Text

/-- The pieces of a sequence between the elements that satisfy `p`. -/
def split {α : Type} (p : α → Bool) : List α → List (List α)
  | [] => [[]]
  | x :: xs =>
    if p x then [] :: split p xs
    else match split p xs with
      | [] => [[x]]
      | piece :: rest => (x :: piece) :: rest

/-- The pieces written one after the other, with `sep` between neighbours. -/
def join {α : Type} (sep : List α) : List (List α) → List α
  | [] => []
  | [piece] => piece
  | piece :: next :: rest => piece ++ sep ++ join sep (next :: rest)

variable {α : Type} {p : α → Bool}

theorem split_ne_nil (xs : List α) : split p xs ≠ [] := by
  induction xs with
  | nil => simp [split]
  | cons x xs ih =>
    rw [split]
    split
    · simp
    · split <;> simp

/-- No piece holds a separator. -/
theorem forall_mem_split (xs : List α) : ∀ piece ∈ split p xs, ∀ x ∈ piece, p x = false := by
  induction xs with
  | nil => simp [split]
  | cons x xs ih =>
    rw [split]
    split
    · simpa using ih
    · rename_i hx
      split
      · simpa using hx
      · rename_i piece rest heq
        rw [heq] at ih
        simp only [List.mem_cons, forall_eq_or_imp] at ih ⊢
        exact ⟨⟨by simpa using hx, ih.1⟩, ih.2⟩

/-- Joining the pieces cut at one separator gives the sequence back. -/
theorem join_split [DecidableEq α] (sep : α) (xs : List α) :
    join [sep] (split (· == sep) xs) = xs := by
  induction xs with
  | nil => rfl
  | cons x xs ih =>
    rw [split]
    split
    · rename_i hx
      have hx : x = sep := by simpa using hx
      subst hx
      cases hs : split (· == x) xs with
      | nil => exact absurd hs (split_ne_nil xs)
      | cons piece rest =>
        rw [hs] at ih
        simp [join, ih]
    · split
      · rename_i hs
        exact absurd hs (split_ne_nil xs)
      · rename_i piece rest hs
        rw [hs] at ih
        cases rest with
        | nil => simpa [join] using ih
        | cons next rest => simpa [join] using ih

end Sweep.Text
