import Sweep.Rule.Basic
import Sweep.Text.Blank
/-!
# Texts that are joined and cut again

Pieces that hold no separator are found again when they are joined with separators in between and
the result is cut. Words are joined with a blank, and lines with a line feed.

## Main results

* `split_append` — the first separator ends the first piece.
* `words_join` — words are found again.
* `lines_append`, `lines_join` — so are lines that are not empty and end in no carriage return.
-/

namespace Sweep

open Text

theorem toList_joinTexts (separator : String) (texts : List String) :
    (joinTexts separator texts).toList = join separator.toList (texts.map (·.toList)) := by
  induction texts with
  | nil => rfl
  | cons text rest ih =>
      cases rest with
      | nil => rfl
      | cons next rest =>
          rw [joinTexts, String.toList_append, String.toList_append, ih]
          rfl

theorem joinTexts_cons (separator text : String) {rest : List String} (h : rest ≠ []) :
    joinTexts separator (text :: rest) = text ++ separator ++ joinTexts separator rest := by
  cases rest with
  | nil => exact absurd rfl h
  | cons next rest => rfl

theorem joinTexts_append (separator : String) {texts more : List String} (htexts : texts ≠ [])
    (hmore : more ≠ []) : joinTexts separator (texts ++ more) =
      joinTexts separator texts ++ separator ++ joinTexts separator more := by
  induction texts with
  | nil => exact absurd rfl htexts
  | cons text rest ih =>
      by_cases hrest : rest = []
      · subst hrest
        exact joinTexts_cons separator text hmore
      · have hboth : rest ++ more ≠ [] := by simp [hrest]
        rw [List.cons_append, joinTexts_cons separator text hboth, ih hrest,
          joinTexts_cons separator text hrest]
        simp only [String.append_assoc]

namespace Text

/-! ## Pieces -/

section Pieces

variable {α : Type} {p : α → Bool}

/-- What stands before a separator is cut on its own, and so is what stands after it. -/
theorem split_append_cons {sep : α} (hsep : p sep = true) (front rest : List α) :
    split p (front ++ sep :: rest) = split p front ++ split p rest := by
  induction front with
  | nil => simp [split, hsep]
  | cons x front ih =>
      rw [List.cons_append, split, ih, split]
      cases hfront : split p front with
      | nil => exact absurd hfront (split_ne_nil front)
      | cons piece pieces => split <;> rfl

/-- There is one piece more than separators. -/
theorem length_split (xs : List α) : (split p xs).length = xs.countP p + 1 := by
  induction xs with
  | nil => rfl
  | cons x xs ih =>
      rw [split]
      cases hx : p x with
      | true => simp [hx, ih]
      | false =>
          cases hxs : split p xs with
          | nil => exact absurd hxs (split_ne_nil xs)
          | cons piece pieces =>
              rw [hxs] at ih
              simpa [hx] using ih

theorem split_eq_singleton {piece : List α} (hpiece : ∀ x ∈ piece, p x = false) :
    split p piece = [piece] := by
  induction piece with
  | nil => rfl
  | cons x piece ih =>
      have hx := hpiece x List.mem_cons_self
      have hrest := ih fun y hy => hpiece y (List.mem_cons_of_mem _ hy)
      rw [split, hrest]
      simp [hx]

/-- The first separator ends the first piece. -/
theorem split_append {piece : List α} {sep : α} (hpiece : ∀ x ∈ piece, p x = false)
    (hsep : p sep = true) (rest : List α) : split p (piece ++ sep :: rest) = piece :: split p rest := by
  rw [split_append_cons hsep, split_eq_singleton hpiece, List.singleton_append]

/-- Pieces without separators are found again. -/
theorem split_join {pieces : List (List α)} {sep : α}
    (hpieces : ∀ piece ∈ pieces, ∀ x ∈ piece, p x = false) (hsep : p sep = true)
    (hne : pieces ≠ []) : split p (join [sep] pieces) = pieces := by
  induction pieces with
  | nil => exact absurd rfl hne
  | cons piece rest ih =>
      have hpiece := hpieces piece List.mem_cons_self
      cases rest with
      | nil => exact split_eq_singleton hpiece
      | cons next rest =>
          have hrest := ih (fun other hother => hpieces other (List.mem_cons_of_mem _ hother))
            (by simp)
          rw [join, List.append_assoc, List.singleton_append, split_append hpiece hsep, hrest]

end Pieces

/-! ## Words -/

/-- Characters that make one word. -/
def IsWord (cs : List Char) : Prop :=
  cs ≠ [] ∧ ∀ c ∈ cs, isBlank c = false

-- the characters of the list are looked at, not all that there are
instance (cs : List Char) : Decidable (IsWord cs) :=
  @instDecidableAnd _ _ _ (List.decidableBAll _ cs)

/-- Words are found again when they have been joined with blanks. -/
theorem words_join {ws : List (List Char)} (h : ∀ word ∈ ws, IsWord word) :
    words (join [' '] ws) = ws := by
  by_cases hne : ws = []
  · subst hne
    rfl
  · have hsplit : split isBlank (join [' '] ws) = ws :=
      split_join (fun word hword => (h word hword).2) (by decide) hne
    rw [words, hsplit, List.filter_eq_self]
    intro word hword
    simpa using (h word hword).1

theorem dropWhile_eq_self {cs : List Char} (h : ∀ c ∈ cs.head?, isBlank c = false) :
    cs.dropWhile isBlank = cs := by
  cases cs with
  | nil => rfl
  | cons c cs => simp [h c rfl]

/-- A text that neither begins nor ends with a blank stays as it is when it is trimmed. -/
theorem trim_eq_self {cs : List Char} (hhead : ∀ c ∈ cs.head?, isBlank c = false)
    (hlast : ∀ c ∈ cs.getLast?, isBlank c = false) : trim cs = cs := by
  have hback : ∀ c ∈ cs.reverse.head?, isBlank c = false := by
    simpa only [List.head?_reverse] using hlast
  rw [trim, dropWhile_eq_self hhead, dropWhile_eq_self hback, List.reverse_reverse]

theorem exists_join_cons (sep word : List Char) (rest : List (List Char)) :
    ∃ back, join sep (word :: rest) = word ++ back := by
  cases rest with
  | nil => exact ⟨[], by simp [join]⟩
  | cons next rest => exact ⟨sep ++ join sep (next :: rest), by simp [join]⟩

theorem exists_join_concat (sep word : List Char) (ws : List (List Char)) :
    ∃ front, join sep (ws ++ [word]) = front ++ word := by
  induction ws with
  | nil => exact ⟨[], rfl⟩
  | cons first rest ih =>
      obtain ⟨front, hfront⟩ := ih
      cases rest with
      | nil => exact ⟨first ++ sep, rfl⟩
      | cons next rest => exact ⟨first ++ sep ++ front, by simp_all [join]⟩

theorem mem_join {α : Type} {sep : List α} {ws : List (List α)} {c : α} (h : c ∈ join sep ws) :
    c ∈ sep ∨ ∃ word ∈ ws, c ∈ word := by
  induction ws with
  | nil => cases h
  | cons word rest ih =>
      cases rest with
      | nil => exact Or.inr ⟨word, List.mem_cons_self, h⟩
      | cons next rest =>
          simp only [join, List.mem_append] at h
          rcases h with (hword | hsep) | hrest
          · exact Or.inr ⟨word, List.mem_cons_self, hword⟩
          · exact Or.inl hsep
          · rcases ih hrest with hsep | ⟨other, hother, hc⟩
            · exact Or.inl hsep
            · exact Or.inr ⟨other, List.mem_cons_of_mem _ hother, hc⟩

section Joined

variable {ws : List (List Char)} (h : ∀ word ∈ ws, IsWord word)

include h

theorem isBlank_head?_join : ∀ c ∈ (join [' '] ws).head?, isBlank c = false := by
  intro c hc
  cases ws with
  | nil => cases hc
  | cons word rest =>
      obtain ⟨hword, hblank⟩ := h word List.mem_cons_self
      obtain ⟨back, hback⟩ := exists_join_cons [' '] word rest
      rw [hback, List.head?_append, List.head?_eq_some_head hword] at hc
      cases hc
      exact hblank _ (List.head_mem hword)

theorem isBlank_getLast?_join : ∀ c ∈ (join [' '] ws).getLast?, isBlank c = false := by
  intro c hc
  by_cases hne : ws = []
  · subst hne
    cases hc
  · have hlast := List.dropLast_concat_getLast hne
    obtain ⟨hword, hblank⟩ := h _ (List.getLast_mem hne)
    obtain ⟨front, hfront⟩ := exists_join_concat [' '] (ws.getLast hne) ws.dropLast
    rw [hlast] at hfront
    rw [hfront, List.getLast?_append, List.getLast?_eq_some_getLast hword] at hc
    cases hc
    exact hblank _ (List.getLast_mem hword)

/-- Joined words have no blank at either end. -/
theorem trim_join : trim (join [' '] ws) = join [' '] ws :=
  trim_eq_self (isBlank_head?_join h) (isBlank_getLast?_join h)

end Joined

/-! ## Lines -/

/-- Characters that make one line: some, without a line feed, and no carriage return at the end. -/
structure IsLine (cs : List Char) : Prop where
  ne_nil : cs ≠ []
  noFeed : '\n' ∉ cs
  noReturn : cs.getLast? ≠ some '\r'

theorem IsLine.free {line : List Char} (h : IsLine line) : ∀ c ∈ line, (c == '\n') = false := by
  intro c hc
  simp only [beq_eq_false_iff_ne]
  intro heq
  exact h.noFeed (heq ▸ hc)

/-- A line feed ends a line. -/
theorem lines_append {line : List Char} (h : IsLine line) (rest : List Char) :
    lines (line ++ '\n' :: rest) = line :: lines rest := by
  have hreturn : dropReturn line = line := if_neg h.noReturn
  rw [lines, split_append h.free (by decide), lines]
  cases hrest : split (· == '\n') rest with
  | nil => exact absurd hrest (split_ne_nil rest)
  | cons piece pieces =>
      rw [linesOfPieces, hreturn]
      simp

theorem lines_eq_singleton {line : List Char} (h : IsLine line) : lines line = [line] := by
  rw [lines, split_eq_singleton h.free, linesOfPieces, if_neg (by simpa using h.ne_nil)]

/-- Lines are found again when they have been joined with line feeds. -/
theorem lines_join {ls : List (List Char)} (h : ∀ line ∈ ls, IsLine line) :
    lines (join ['\n'] ls) = ls := by
  induction ls with
  | nil => rfl
  | cons line rest ih =>
      have hline := h line List.mem_cons_self
      cases rest with
      | nil => exact lines_eq_singleton hline
      | cons next rest =>
          have hrest := ih fun other hother => h other (List.mem_cons_of_mem _ hother)
          rw [join, List.append_assoc, List.singleton_append, lines_append hline, hrest]

/-- Lines are found again when each has been ended with a line feed. -/
theorem lines_flatMap {ls : List (List Char)} (h : ∀ line ∈ ls, IsLine line) :
    lines (ls.flatMap (· ++ ['\n'])) = ls := by
  induction ls with
  | nil => rfl
  | cons line rest ih =>
      have hrest := ih fun other hother => h other (List.mem_cons_of_mem _ hother)
      rw [List.flatMap_cons, List.append_assoc, List.singleton_append,
        lines_append (h line List.mem_cons_self), hrest]

/-- Joined words make a line. -/
theorem isLine_join {ws : List (List Char)} (h : ∀ word ∈ ws, IsWord word) (hne : ws ≠ []) :
    IsLine (join [' '] ws) where
  ne_nil := by
    intro hnil
    have hback := words_join h
    rw [hnil] at hback
    exact hne hback.symm
  noFeed := by
    intro hfeed
    rcases mem_join hfeed with hsep | ⟨word, hword, hc⟩
    · exact absurd hsep (by decide)
    · exact absurd ((h word hword).2 '\n' hc) (by decide)
  noReturn := by
    intro hreturn
    exact absurd (isBlank_getLast?_join h '\r' hreturn) (by decide)

end Text

end Sweep
