import Mathlib
import Sweep.Proofs.Rule.Lines
/-!
# Layout

Blanks keep words apart, and that is all they do. How many there are, and which ones, makes no
difference to the words of a line, and neither do blanks at its two ends. A line is a comment if its
first word begins with `#`, which is a matter of its words as well. And a carriage return before a
line feed is a blank at the end of a line. So a text is read by the words of its lines, whatever its
layout, but for the words of an error, which show the line.

An edit of the layout is made somewhere in a text. What it changes lies in one line, between what the
text in front of it leaves of the line and what the text after it adds.

## Main results

* `words_append` — words that a blank keeps apart.
* `split_around` — the pieces of a sequence that is put together from three.
* `wordsOfLine_eq` — the words of a line decide whether it is a comment.
* `Relaid.lineWords_eq` — an edit of the layout leaves the words of all lines.
* `ofText_of_relaid` — layout carries no meaning.
-/

namespace Sweep

open Text

namespace Text

/-! ## Blanks around words -/

theorem words_nil : words [] = [] := rfl

theorem words_append_cons {c : Char} (hblank : isBlank c = true) (front rest : List Char) :
    words (front ++ c :: rest) = words front ++ words rest := by
  simp only [words, split_append_cons hblank, List.filter_append]

theorem words_blank_append {gap : List Char} (hgap : ∀ c ∈ gap, isBlank c = true)
    (rest : List Char) : words (gap ++ rest) = words rest := by
  induction gap with
  | nil => rfl
  | cons c gap ih =>
      have hfirst := words_append_cons (hgap c List.mem_cons_self) [] (gap ++ rest)
      rw [List.nil_append, words_nil, List.nil_append] at hfirst
      rw [List.cons_append, hfirst]
      exact ih fun other hother => hgap other (List.mem_cons_of_mem _ hother)

/-- Words end where a blank begins what follows them. -/
theorem words_append {rest : List Char} (hrest : ∀ c ∈ rest.head?, isBlank c = true)
    (front : List Char) : words (front ++ rest) = words front ++ words rest := by
  cases rest with
  | nil => rw [words_nil, List.append_nil, List.append_nil]
  | cons c rest =>
      have hblank := hrest c rfl
      have hfirst := words_append_cons hblank [] rest
      rw [List.nil_append, words_nil, List.nil_append] at hfirst
      rw [words_append_cons hblank, hfirst]

theorem words_append_blank {gap : List Char} (hgap : ∀ c ∈ gap, isBlank c = true)
    (front : List Char) : words (front ++ gap) = words front := by
  have hnone := words_blank_append hgap []
  rw [List.append_nil, words_nil] at hnone
  rw [words_append fun c hc => hgap c (List.mem_of_mem_head? hc), hnone, List.append_nil]

theorem words_dropWhile (cs : List Char) : words (cs.dropWhile isBlank) = words cs := by
  have hblanks : ∀ c ∈ cs.takeWhile isBlank, isBlank c = true := fun c hc =>
    List.mem_takeWhile_imp hc
  rw [← words_blank_append hblanks, List.takeWhile_append_dropWhile]

/-- A text that is trimmed keeps its words. -/
theorem words_trim (cs : List Char) : words (trim cs) = words cs := by
  have hblanks : ∀ c ∈ ((cs.dropWhile isBlank).reverse.takeWhile isBlank).reverse,
      isBlank c = true := fun c hc => List.mem_takeWhile_imp (List.mem_reverse.1 hc)
  rw [trim, ← words_append_blank hblanks, ← List.reverse_append, List.takeWhile_append_dropWhile,
    List.reverse_reverse, words_dropWhile]

theorem head?_trim (cs : List Char) : (trim cs).head? = (cs.dropWhile isBlank).head? := by
  rw [trim]
  cases hdrop : cs.dropWhile isBlank with
  | nil => rfl
  | cons d rest =>
      have hd : isBlank d = false := by
        have := List.head?_dropWhile_not isBlank cs
        simpa [hdrop] using this
      rw [List.reverse_cons, List.dropWhile_append, List.head?_reverse]
      split
      · simp [hd]
      · simp

/-- The first word begins where the blanks in front end. -/
theorem head?_head?_words (cs : List Char) :
    ((words cs).head?.bind fun word => word.head?) = (cs.dropWhile isBlank).head? := by
  induction cs with
  | nil => rfl
  | cons c cs ih =>
      cases hblank : isBlank c with
      | true =>
          rw [← words_dropWhile, List.dropWhile_cons_of_pos hblank, words_dropWhile, ih]
      | false =>
          rw [List.dropWhile_cons_of_neg (by simp [hblank]), words, split]
          cases hsplit : split isBlank cs with
          | nil => exact absurd hsplit (split_ne_nil cs)
          | cons piece rest => simp [hblank]

/-! ## Words in a layout -/

/-- Words with blanks in between, and perhaps at the two ends. -/
inductive LaidOut : List (List Char) → List Char → Prop where
  | blank {gap : List Char} (hgap : ∀ c ∈ gap, isBlank c = true) : LaidOut [] gap
  /-- After a word the line is at its end or goes on with a blank. -/
  | word {gap word rest : List Char} {ws : List (List Char)}
      (hgap : ∀ c ∈ gap, isBlank c = true) (hends : ∀ c ∈ rest.head?, isBlank c = true)
      (hrest : LaidOut ws rest) : LaidOut (word :: ws) (gap ++ word ++ rest)

theorem words_of_isWord {word : List Char} (hword : IsWord word) : words word = [word] := by
  have hsingle := words_join (List.forall_mem_singleton.2 hword)
  rwa [join] at hsingle

/-- Words are found again in every layout. -/
theorem LaidOut.words_eq {ws : List (List Char)} {line : List Char} (h : LaidOut ws line)
    (hwords : ∀ word ∈ ws, IsWord word) : words line = ws := by
  induction h with
  | blank hgap =>
      have hnone := words_append_blank hgap []
      rwa [List.nil_append] at hnone
  | @word gap word rest ws hgap hends hrest ih =>
      obtain ⟨hword, hothers⟩ := List.forall_mem_cons.1 hwords
      rw [List.append_assoc, words_blank_append hgap, words_append hends, words_of_isWord hword,
        ih hothers, List.singleton_append]

/-! ## Edits of the layout -/

/-- Blanks that keep words of one line apart. -/
def IsGap (gap : List Char) : Prop :=
  gap ≠ [] ∧ ∀ c ∈ gap, isBlank c = true ∧ c ≠ '\n'

instance (gap : List Char) : Decidable (IsGap gap) :=
  @instDecidableAnd _ _ _ (List.decidableBAll _ gap)

/-- One edit of the layout of a text. -/
inductive Relaid : List Char → List Char → Prop where
  /-- Some blanks become other ones. -/
  | between {gap other : List Char} (front back : List Char) (hgap : IsGap gap)
      (hother : IsGap other) : Relaid (front ++ (gap ++ back)) (front ++ (other ++ back))
  /-- Blanks are put where a line begins. -/
  | atStart {gap front : List Char} (back : List Char) (hgap : IsGap gap)
      (hstart : front = [] ∨ front.getLast? = some '\n') :
      Relaid (front ++ back) (front ++ (gap ++ back))
  /-- Blanks are put where a line ends. -/
  | atEnd {gap back : List Char} (front : List Char) (hgap : IsGap gap)
      (hend : back = [] ∨ back.head? = some '\n') :
      Relaid (front ++ back) (front ++ (gap ++ back))
  /-- A line feed becomes a carriage return and a line feed. -/
  | feed (front back : List Char) :
      Relaid (front ++ '\n' :: back) (front ++ '\r' :: '\n' :: back)

section Pieces

variable {α : Type} {p : α → Bool}

theorem split_mid_append {mid : List α} (hmid : ∀ x ∈ mid, p x = false) {back first : List α}
    {rest : List (List α)} (hback : split p back = first :: rest) :
    split p (mid ++ back) = (mid ++ first) :: rest := by
  induction mid with
  | nil => exact hback
  | cons x mid ih =>
      have hx := hmid x List.mem_cons_self
      have hrest := ih fun y hy => hmid y (List.mem_cons_of_mem _ hy)
      rw [List.cons_append, split, hrest]
      simp [hx]

/-- A sequence holds no separator, or it has a last one. -/
theorem free_or_exists_last (p : α → Bool) (xs : List α) : (∀ x ∈ xs, p x = false) ∨
    ∃ front sep piece, xs = front ++ sep :: piece ∧ p sep = true ∧ ∀ x ∈ piece, p x = false := by
  induction xs with
  | nil => exact Or.inl (by simp)
  | cons x xs ih =>
      rcases ih with hfree | ⟨front, sep, piece, rfl, hsep, hpiece⟩
      · cases hx : p x with
        | true => exact Or.inr ⟨[], x, xs, rfl, hx, hfree⟩
        | false => exact Or.inl (List.forall_mem_cons.2 ⟨hx, hfree⟩)
      · exact Or.inr ⟨x :: front, sep, piece, rfl, hsep, hpiece⟩

/-- What is put between two sequences, and holds no separator, comes between the last piece of the one
and the first piece of the other. -/
theorem split_around (p : α → Bool) (front back : List α) :
    ∃ before piece first rest, split p front = before ++ [piece] ∧ split p back = first :: rest ∧
      ∀ mid, (∀ x ∈ mid, p x = false) →
        split p (front ++ (mid ++ back)) = before ++ (piece ++ (mid ++ first)) :: rest := by
  obtain ⟨first, rest, hback⟩ := List.exists_cons_of_ne_nil (split_ne_nil (p := p) back)
  rcases free_or_exists_last p front with hfree | ⟨before, sep, piece, rfl, hsep, hpiece⟩
  · refine ⟨[], front, first, rest, split_eq_singleton hfree, hback, fun mid hmid => ?_⟩
    rw [split_mid_append hfree (split_mid_append hmid hback), List.nil_append]
  · refine ⟨split p before, piece, first, rest, ?_, hback, fun mid hmid => ?_⟩
    · rw [split_append_cons hsep, split_eq_singleton hpiece]
    · rw [List.append_assoc, List.cons_append, split_append_cons hsep,
        split_mid_append hpiece (split_mid_append hmid hback)]

/-- After a separator the last piece is empty. -/
theorem last_piece_eq_nil {front piece : List α} {before : List (List α)}
    (h : split p front = before ++ [piece])
    (hend : front = [] ∨ ∃ sep, front.getLast? = some sep ∧ p sep = true) : piece = [] := by
  have hlast : ∃ others, split p front = others ++ [[]] := by
    rcases hend with rfl | ⟨sep, hsep, hp⟩
    · exact ⟨[], rfl⟩
    · obtain ⟨others, rfl⟩ := List.getLast?_eq_some_iff.1 hsep
      exact ⟨split p others, split_append_cons hp others []⟩
  obtain ⟨others, hothers⟩ := hlast
  rw [hothers] at h
  simpa using (List.append_inj' h rfl).2.symm

/-- Before a separator the first piece is empty. -/
theorem first_piece_eq_nil {back first : List α} {rest : List (List α)}
    (h : split p back = first :: rest)
    (hstart : back = [] ∨ ∃ sep, back.head? = some sep ∧ p sep = true) : first = [] := by
  rcases hstart with rfl | ⟨sep, hsep, hp⟩
  · exact (List.cons.inj h).1.symm
  · obtain ⟨others, rfl⟩ := List.head?_eq_some_iff.1 hsep
    rw [split, if_pos hp] at h
    exact (List.cons.inj h).1.symm

end Pieces

/-! ## The words of lines -/

/-- The words of each line of a text. -/
def lineWords (cs : List Char) : List (List (List Char)) :=
  (split (· == '\n') cs).map words

theorem IsGap.free {gap : List Char} (h : IsGap gap) : ∀ c ∈ gap, (c == '\n') = false := by
  intro c hc
  simpa using (h.2 c hc).2

theorem IsGap.blank {gap : List Char} (h : IsGap gap) : ∀ c ∈ gap, isBlank c = true :=
  fun c hc => (h.2 c hc).1

theorem IsGap.words_around {gap : List Char} (h : IsGap gap) (front back : List Char) :
    words (front ++ (gap ++ back)) = words front ++ words back := by
  have hends : ∀ c ∈ (gap ++ back).head?, isBlank c = true := by
    intro c hc
    rw [List.head?_append_of_ne_nil _ h.1] at hc
    exact h.blank c (List.mem_of_mem_head? hc)
  rw [words_append hends, words_blank_append h.blank]

/-- An edit of the layout leaves the words of all lines. -/
theorem Relaid.lineWords_eq {a b : List Char} (h : Relaid a b) : lineWords a = lineWords b := by
  have hatEnd : ∀ gap front back : List Char, IsGap gap →
      (back = [] ∨ back.head? = some '\n') →
        lineWords (front ++ back) = lineWords (front ++ (gap ++ back)) := by
    intro gap front back hgap hend
    obtain ⟨before, piece, first, rest, -, hback, haround⟩ := split_around (· == '\n') front back
    obtain rfl := first_piece_eq_nil hback (hend.imp id fun hfeed => ⟨'\n', hfeed, rfl⟩)
    have hplain := haround [] (by simp)
    rw [List.nil_append, List.nil_append] at hplain
    rw [lineWords, lineWords, hplain, haround gap hgap.free, List.map_append, List.map_append,
      List.map_cons, List.map_cons, hgap.words_around, words_nil, List.append_nil, List.append_nil]
  cases h with
  | @between gap other front back hgap hother =>
      obtain ⟨before, piece, first, rest, -, -, haround⟩ := split_around (· == '\n') front back
      rw [lineWords, lineWords, haround gap hgap.free, haround other hother.free, List.map_append,
        List.map_append, List.map_cons, List.map_cons, hgap.words_around, hother.words_around]
  | @atStart gap front back hgap hstart =>
      obtain ⟨before, piece, first, rest, hfront, -, haround⟩ :=
        split_around (· == '\n') front back
      obtain rfl := last_piece_eq_nil hfront (hstart.imp id fun hfeed => ⟨'\n', hfeed, rfl⟩)
      have hplain := haround [] (by simp)
      rw [List.nil_append, List.nil_append, List.nil_append] at hplain
      rw [lineWords, lineWords, hplain, haround gap hgap.free, List.map_append, List.map_append,
        List.map_cons, List.map_cons, hgap.words_around, words_nil, List.nil_append]
  | @atEnd gap back front hgap hend => exact hatEnd gap front back hgap hend
  | feed front back => exact hatEnd ['\r'] front ('\n' :: back) (by decide) (Or.inr rfl)

end Text

namespace Rule

/-! ## Reading by words -/

/-- Where a text is at fault, and how, but for what the line looks like. -/
def TextFault.spot (fault : TextFault) : Nat × LineFault :=
  (fault.line, fault.fault)

/-- The words of a line decide whether it is a comment. -/
theorem wordsOfLine_eq (line : List Char) : wordsOfLine line =
    if ((words line).head?.bind fun word => word.head?) = some '#' then [] else words line := by
  rw [wordsOfLine, head?_head?_words, ← head?_trim, words_trim]

theorem spot_ofLine (number : Nat) (line : List Char) : (ofLine number line).mapError (·.spot) =
    (ofTokens? ((wordsOfLine line).map String.ofList)).mapError fun cause => (number, cause) := by
  unfold ofLine
  cases ofTokens? ((wordsOfLine line).map String.ofList) <;> rfl

theorem mapError_bind {ε ε' α β : Type} (g : ε → ε') (x : Except ε α) (f : α → Except ε β) :
    (x.bind f).mapError g = (x.mapError g).bind fun a => (f a).mapError g := by
  cases x <;> rfl

theorem mapError_map {ε ε' α β : Type} (g : ε → ε') (x : Except ε α) (f : α → β) :
    (x.map f).mapError g = (x.mapError g).map f := by
  cases x <;> rfl

/-- Lines are read by their words. -/
theorem spot_ofLines_congr (number : Nat) {front back : List (List Char)}
    (h : front.map words = back.map words) :
    (ofLines number front).mapError (·.spot) = (ofLines number back).mapError (·.spot) := by
  induction front generalizing number back with
  | nil => rw [List.map_eq_nil_iff.1 h.symm]
  | cons line rest ih =>
      cases back with
      | nil => cases h
      | cons other others =>
          obtain ⟨hwords, hrest⟩ := List.cons.inj h
          have hline : (ofLine number line).mapError (·.spot) =
              (ofLine number other).mapError (·.spot) := by
            rw [spot_ofLine, spot_ofLine, wordsOfLine_eq, wordsOfLine_eq, hwords]
          have hlines := ih (number + 1) hrest
          rw [ofLines_cons, ofLines_cons, mapError_bind, mapError_bind, hline]
          simp only [mapError_map, hlines]

/-- Texts whose lines have the same words are read alike. -/
theorem spot_ofText_congr {a b : String} (h : lineWords a.toList = lineWords b.toList) :
    (ofText a).mapError (·.spot) = (ofText b).mapError (·.spot) := by
  rw [ofText_eq_ofLines, ofText_eq_ofLines]
  exact spot_ofLines_congr 1 h

theorem lineWords_eq_of_eqvGen {a b : List Char} (h : Relation.EqvGen Relaid a b) :
    lineWords a = lineWords b := by
  induction h with
  | rel a b h => exact h.lineWords_eq
  | refl a => rfl
  | symm a b _ ih => exact ih.symm
  | trans a b c _ _ ih₁ ih₂ => exact ih₁.trans ih₂

/-- Layout carries no meaning. However the blanks of a text are edited, as long as they are edited line
by line and none between two words goes missing, it holds the same rules or is at fault in the same
line and the same way. And the words of a line are just those that were laid out in it, unless the
first makes it a comment. -/
theorem ofText_of_relaid :
    (∀ a b : String, Relation.EqvGen Relaid a.toList b.toList →
      (ofText a).mapError (·.spot) = (ofText b).mapError (·.spot)) ∧
      ∀ (ws : List String) (line : String), (∀ word ∈ ws, IsWord word.toList) →
        (∀ first ∈ ws.head?, first.toList.head? ≠ some '#') →
        LaidOut (ws.map (·.toList)) line.toList → tokens line = ws := by
  refine ⟨fun a b h => spot_ofText_congr (lineWords_eq_of_eqvGen h), ?_⟩
  intro ws line hwords hfirst hlaid
  have hline : words line.toList = ws.map (·.toList) :=
    hlaid.words_eq (List.forall_mem_map.2 hwords)
  have hcomment : ((words line.toList).head?.bind fun word => word.head?) ≠ some '#' := by
    rw [hline]
    cases ws with
    | nil => simp
    | cons first rest => exact hfirst first rfl
  rw [tokens, wordsOfLine_eq, if_neg hcomment, hline, List.map_map]
  have hback : (String.ofList ∘ fun word : String => word.toList) = id := by
    funext word
    exact String.ofList_toList
  rw [hback, List.map_id]

/-- A tab and a line separator keep words apart as a space does, and a carriage return before a line
feed is one more blank; the second line is at fault all the same. -/
theorem ofText_of_relaid_of_fault :
    Relation.EqvGen Relaid "delete a\nkeep b".toList "delete\t\u2028a\r\nkeep b".toList ∧
      (ofText "delete\t\u2028a\r\nkeep b").mapError (·.spot) =
        .error (2, .unknownAction "keep") ∧
      tokens "\u0085keep\u00A0b " = ["keep", "b"] := by
  have hspace : IsGap [' '] := by decide
  have hother : IsGap ['\t', '\u2028'] := by decide
  have hgap : Relaid "delete a\nkeep b".toList "delete\t\u2028a\nkeep b".toList :=
    .between "delete".toList "a\nkeep b".toList hspace hother
  have hfeed : Relaid "delete\t\u2028a\nkeep b".toList "delete\t\u2028a\r\nkeep b".toList :=
    .feed "delete\t\u2028a".toList "keep b".toList
  have hedits := (Relation.EqvGen.rel _ _ hgap).trans _ _ _ (.rel _ _ hfeed)
  obtain ⟨htexts, htokens⟩ := ofText_of_relaid
  refine ⟨hedits, ?_, ?_⟩
  · rw [← htexts _ _ hedits]
    cbv
  · have hnext : IsGap ['\u0085'] := by decide
    have hfixed : IsGap ['\u00A0'] := by decide
    have hends : ∀ c ∈ [' '].head?, isBlank c = true := by simp [isBlank, blankRanges]
    have hgoes : ∀ c ∈ ['\u00A0', 'b', ' '].head?, isBlank c = true := by
      simp [isBlank, blankRanges]
    have hlast : LaidOut [['b']] ['\u00A0', 'b', ' '] := .word hfixed.blank hends (.blank hspace.blank)
    have hline : LaidOut ["keep".toList, "b".toList] "\u0085keep\u00A0b ".toList :=
      .word hnext.blank hgoes hlast
    exact htokens _ _ (by decide) (by decide) hline

end Rule

end Sweep
