import Mathlib.Data.List.Forall2
import Sweep.Glob
/-!
# What a glob pattern means

A pattern means the texts that fall into consecutive pieces, one for each of its elements: `Reads` says
which elements a pattern has, `Element.Takes` which pieces an element stands for, and `Splits` puts the
pieces together. None of this says how a matching split is found.

The matcher never searches for a split. It keeps a row of marks, one for each suffix of the text, and
the lemmas about rows all have one form: if `after` marks the suffixes with a property, the row of an
element marks those that begin with a piece of that element and go on with such a suffix.

## Main results

* `reads_iff` — every pattern has exactly one reading.
* `rounds_iff` — whole segments are nothing, or whatever ends in a slash.
* `marks_row` — the row of some elements marks the suffixes that fall into pieces for them.
* `means_source` — a pattern means its own text.
* `accepts_iff_means` — a pattern that is searched with accepts what it means, any other its own text.
-/

namespace Sweep.Glob

/-! ## The meaning of a pattern -/

/-- A pattern has these elements, read from left to right. -/
inductive Reads : List Char → List Element → Prop where
  | done : Reads [] []
  | segments {pattern : List Char} {es : List Element} (rest : Reads pattern es) :
      Reads ('*' :: '*' :: '/' :: pattern) (.segments :: es)
  /-- Two stars without a slash after them. -/
  | anything {pattern : List Char} {es : List Element} (hslash : pattern.head? ≠ some '/')
      (rest : Reads pattern es) : Reads ('*' :: '*' :: pattern) (.anything :: es)
  /-- A star without a star after it. -/
  | run {pattern : List Char} {es : List Element} (hstar : pattern.head? ≠ some '*')
      (rest : Reads pattern es) : Reads ('*' :: pattern) (.run :: es)
  | one {pattern : List Char} {es : List Element} (rest : Reads pattern es) :
      Reads ('?' :: pattern) (.one :: es)
  | literal {c : Char} {pattern : List Char} {es : List Element} (hstar : c ≠ '*') (hone : c ≠ '?')
      (rest : Reads pattern es) : Reads (c :: pattern) (.literal c :: es)

/-- A text is made of rounds: any number of them, each a run of characters without a slash and then a
slash. -/
def Rounds (text : List Char) : Prop :=
  ∃ runs : List (List Char), (∀ run ∈ runs, '/' ∉ run) ∧ runs.flatMap (· ++ ['/']) = text

/-- The pieces of text that an element stands for. -/
def Element.Takes : Element → List Char → Prop
  | segments, piece => Rounds piece
  | anything, piece => '\n' ∉ piece
  | run, piece => '/' ∉ piece
  | one, piece => ∃ c, c ≠ '/' ∧ piece = [c]
  | literal c, piece => piece = [c]

/-- A text falls into consecutive pieces, one for each element. -/
def Splits (es : List Element) (text : List Char) : Prop :=
  ∃ pieces, List.Forall₂ Element.Takes es pieces ∧ pieces.flatten = text

/-- A text is one of those that a pattern means. -/
def Means (glob : Glob) (text : String) : Prop :=
  ∃ es, Reads glob.source.toList es ∧ Splits es text.toList

/-! ## Rounds -/

theorem rounds_of_slash (front : List Char) : Rounds (front ++ ['/']) := by
  induction front with
  | nil => exact ⟨[[]], by simp, rfl⟩
  | cons c front ih =>
      obtain ⟨runs, hruns, htext⟩ := ih
      by_cases hc : c = '/'
      · refine ⟨[] :: runs, List.forall_mem_cons.2 ⟨List.not_mem_nil, hruns⟩, ?_⟩
        rw [List.flatMap_cons, htext, hc]
        rfl
      · -- the character goes in front of the first run
        cases runs with
        | nil => simp at htext
        | cons run runs =>
            obtain ⟨hrun, hruns⟩ := List.forall_mem_cons.1 hruns
            have hlonger : '/' ∉ c :: run := by simp [hrun, Ne.symm hc]
            refine ⟨(c :: run) :: runs, List.forall_mem_cons.2 ⟨hlonger, hruns⟩, ?_⟩
            rw [List.cons_append, ← htext]
            rfl

/-- Rounds are nothing, or whatever ends in a slash. -/
theorem rounds_iff {text : List Char} : Rounds text ↔ text = [] ∨ ∃ front, text = front ++ ['/'] := by
  constructor
  · intro h
    obtain ⟨runs, -, rfl⟩ := h
    rcases List.eq_nil_or_concat runs with rfl | ⟨before, run, rfl⟩
    · exact Or.inl rfl
    · exact Or.inr ⟨before.flatMap (· ++ ['/']) ++ run, by simp⟩
  · intro h
    rcases h with rfl | ⟨front, rfl⟩
    · exact ⟨[], by simp, rfl⟩
    · exact rounds_of_slash front

/-! ## Readings -/

theorem reads_elements (pattern : List Char) : Reads pattern (elements pattern) := by
  fun_induction elements pattern with
  | case1 rest ih => exact .segments ih
  | case2 rest hslash ih =>
      refine .anything ?_ ih
      cases rest with
      | nil => simp
      | cons c rest => exact fun h => hslash rest (by simpa using h)
  | case3 rest hsegments hstars ih =>
      refine .run ?_ ih
      cases rest with
      | nil => simp
      | cons c rest => exact fun h => hstars rest (by simpa using h)
  | case4 rest ih => exact .one ih
  | case5 c rest hsegments hstars hstar hone ih => exact .literal hstar hone ih
  | case6 => exact .done

/-- Every pattern has exactly one reading. -/
theorem reads_iff {pattern : List Char} {es : List Element} :
    Reads pattern es ↔ elements pattern = es := by
  constructor
  · intro h
    induction h with
    | done => rfl
    | segments rest ih => rw [elements, ih]
    | anything hslash rest ih =>
        rw [elements, ih]
        rintro more rfl
        exact hslash rfl
    | run hstar rest ih =>
        rw [elements, ih]
        · rintro more rfl
          exact hstar rfl
        · rintro more rfl
          exact hstar rfl
    | one rest ih => rw [elements, ih]
    | literal hstar hone rest ih =>
        rw [elements, ih]
        · exact fun more h _ => hstar h
        · exact fun more h _ => hstar h
        · exact hstar
        · exact hone
  · intro h
    rw [← h]
    exact reads_elements pattern

theorem means_iff {glob : Glob} {text : String} :
    glob.Means text ↔ Splits (elements glob.source.toList) text.toList := by
  simp [Means, reads_iff]

/-! ## Pieces one after the other -/

theorem splits_nil {text : List Char} : Splits [] text ↔ text = [] := by
  simp [Splits, eq_comm]

/-- A text that begins with a piece of an element goes on with pieces for the other elements. -/
theorem splits_cons {e : Element} {es : List Element} {text : List Char} :
    Splits (e :: es) text ↔ ∃ piece rest, piece ++ rest = text ∧ e.Takes piece ∧ Splits es rest := by
  constructor
  · intro h
    obtain ⟨pieces, htakes, rfl⟩ := h
    cases htakes with
    | @cons _ piece _ pieces hpiece hpieces =>
        exact ⟨piece, pieces.flatten, rfl, hpiece, pieces, hpieces, rfl⟩
  · intro h
    obtain ⟨piece, rest, rfl, hpiece, pieces, hpieces, rfl⟩ := h
    exact ⟨piece :: pieces, .cons hpiece hpieces, rfl⟩

/-- A pattern falls into pieces for its own elements. -/
theorem Reads.splits {pattern : List Char} {es : List Element} (h : Reads pattern es) :
    Splits es pattern := by
  induction h with
  | done => exact splits_nil.2 rfl
  | segments rest ih =>
      exact splits_cons.2 ⟨['*', '*', '/'], _, rfl, rounds_of_slash ['*', '*'], ih⟩
  | anything hslash rest ih =>
      exact splits_cons.2 ⟨['*', '*'], _, rfl, by simp [Element.Takes], ih⟩
  | run hstar rest ih => exact splits_cons.2 ⟨['*'], _, rfl, by simp [Element.Takes], ih⟩
  | one rest ih => exact splits_cons.2 ⟨['?'], _, rfl, ⟨'?', by decide, rfl⟩, ih⟩
  | @literal c _ _ hstar hone rest ih => exact splits_cons.2 ⟨[c], _, rfl, rfl, ih⟩

/-- A pattern means its own text. -/
theorem means_source (glob : Glob) : glob.Means glob.source :=
  ⟨_, reads_elements _, (reads_elements _).splits⟩

/-! ## Rows of marks -/

/-- A row has one mark for each suffix of a text, the whole text first: whether the suffix has a
property. -/
inductive Marks (p : List Char → Prop) : List Char → List Bool → Prop where
  | nil {mark : Bool} (hmark : mark = true ↔ p []) : Marks p [] [mark]
  | cons {c : Char} {text : List Char} {mark : Bool} {row : List Bool}
      (hmark : mark = true ↔ p (c :: text)) (rest : Marks p text row) :
      Marks p (c :: text) (mark :: row)

namespace Marks

variable {p q : List Char → Prop} {text : List Char} {row : List Bool}

theorem first_iff (h : Marks p text row) : first row = true ↔ p text := by
  cases h with
  | nil hmark => exact hmark
  | cons hmark rest => exact hmark

theorem tail {c : Char} (h : Marks p (c :: text) row) : Marks p text row.tail := by
  cases h with
  | cons hmark rest => exact rest

theorem congr (hpq : ∀ suffix, p suffix ↔ q suffix) (h : Marks p text row) : Marks q text row := by
  induction h with
  | nil hmark => exact .nil (hmark.trans (hpq _))
  | cons hmark rest ih => exact .cons (hmark.trans (hpq _)) ih

theorem or {other : List Bool} (h : Marks p text row) (hother : Marks q text other) :
    Marks (fun suffix => p suffix ∨ q suffix) text (List.zipWith (· || ·) row other) := by
  induction h generalizing other with
  | nil hmark =>
      cases hother with
      | nil hmark' => exact .nil (by simp [hmark, hmark'])
  | cons hmark rest ih =>
      cases hother with
      | cons hmark' rest' => exact .cons (by simp [hmark, hmark']) (ih rest')

end Marks

variable {q : List Char → Prop} {text : List Char} {after : List Bool}

/-- The row of one character marks what begins with one. -/
theorem marks_rowOne (p : Char → Bool) (h : Marks q text after) :
    Marks (fun suffix => ∃ c rest, suffix = c :: rest ∧ p c = true ∧ q rest) text
      (rowOne p text after) := by
  induction text generalizing after with
  | nil => exact .nil (by simp)
  | cons c text ih =>
      refine .cons ?_ (ih h.tail)
      simp [h.tail.first_iff, and_assoc]

/-- The row of any run of characters marks what begins with such a run. -/
theorem marks_rowRun (p : Char → Bool) (h : Marks q text after) :
    Marks (fun suffix => ∃ piece rest, piece ++ rest = suffix ∧ (∀ c ∈ piece, p c = true) ∧ q rest)
      text (rowRun p text after) := by
  induction text generalizing after with
  | nil =>
      refine .nil ?_
      simp [h.first_iff]
  | cons c text ih =>
      have hlater := ih h.tail
      refine .cons ?_ hlater
      simp only [Bool.or_eq_true, Bool.and_eq_true, h.first_iff, hlater.first_iff]
      constructor
      · intro hmarked
        rcases hmarked with hhere | ⟨hc, piece, rest, rfl, hpiece, hrest⟩
        · exact ⟨[], c :: text, rfl, by simp, hhere⟩
        · exact ⟨c :: piece, rest, rfl, List.forall_mem_cons.2 ⟨hc, hpiece⟩, hrest⟩
      · intro hsplit
        obtain ⟨piece, rest, hwhole, hpiece, hrest⟩ := hsplit
        cases piece with
        | nil => exact Or.inl (hwhole ▸ hrest)
        | cons first piece =>
            obtain ⟨rfl, rfl⟩ := List.cons.inj hwhole
            obtain ⟨hc, hpiece⟩ := List.forall_mem_cons.1 hpiece
            exact Or.inr ⟨hc, piece, rest, rfl, hpiece, hrest⟩

/-- The row of one or more rounds marks what goes on after some slash. -/
theorem marks_rowRounds (h : Marks q text after) :
    Marks (fun suffix => ∃ front rest, front ++ '/' :: rest = suffix ∧ q rest) text
      (rowRounds text after) := by
  induction text generalizing after with
  | nil => exact .nil (by simp)
  | cons c text ih =>
      have hlater := ih h.tail
      have hmark : (if c == '/' then first after.tail || first (rowRounds text after.tail)
          else first (rowRounds text after.tail)) = true ↔
            c = '/' ∧ q text ∨ ∃ front rest, front ++ '/' :: rest = text ∧ q rest := by
        by_cases hc : c = '/' <;> simp [hc, h.tail.first_iff, hlater.first_iff]
      refine .cons (hmark.trans ?_) hlater
      constructor
      · intro hmarked
        rcases hmarked with ⟨rfl, hrest⟩ | ⟨front, rest, rfl, hrest⟩
        · exact ⟨[], text, rfl, hrest⟩
        · exact ⟨c :: front, rest, rfl, hrest⟩
      · intro hsplit
        obtain ⟨front, rest, hwhole, hrest⟩ := hsplit
        cases front with
        | nil =>
            obtain ⟨rfl, rfl⟩ := List.cons.inj hwhole
            exact Or.inl ⟨rfl, hrest⟩
        | cons first front =>
            obtain ⟨rfl, rfl⟩ := List.cons.inj hwhole
            exact Or.inr ⟨front, rest, rfl, hrest⟩

/-- The row of an element marks what begins with one of its pieces. -/
theorem Element.marks_row (e : Element) (h : Marks q text after) :
    Marks (fun suffix => ∃ piece rest, piece ++ rest = suffix ∧ e.Takes piece ∧ q rest) text
      (e.row text after) := by
  cases e with
  | segments =>
      refine (h.or (marks_rowRounds h)).congr fun suffix => ?_
      constructor
      · intro hsplit
        rcases hsplit with hnone | ⟨front, rest, rfl, hrest⟩
        · exact ⟨[], suffix, rfl, rounds_iff.2 (Or.inl rfl), hnone⟩
        · exact ⟨front ++ ['/'], rest, by simp, rounds_of_slash front, hrest⟩
      · intro hsplit
        obtain ⟨piece, rest, rfl, hpiece, hrest⟩ := hsplit
        rcases rounds_iff.1 hpiece with rfl | ⟨front, rfl⟩
        · exact Or.inl hrest
        · exact Or.inr ⟨front, rest, by simp, hrest⟩
  | anything =>
      refine (marks_rowRun (· != '\n') h).congr fun suffix => ?_
      simp [Element.Takes, List.forall_mem_ne']
  | run =>
      refine (marks_rowRun (· != '/') h).congr fun suffix => ?_
      simp [Element.Takes, List.forall_mem_ne']
  | one =>
      refine (marks_rowOne (· != '/') h).congr fun suffix => ?_
      constructor
      · intro hsplit
        obtain ⟨c, rest, rfl, hc, hrest⟩ := hsplit
        exact ⟨[c], rest, rfl, ⟨c, by simpa using hc, rfl⟩, hrest⟩
      · intro hsplit
        obtain ⟨_, rest, rfl, ⟨c, hc, rfl⟩, hrest⟩ := hsplit
        exact ⟨c, rest, rfl, by simpa using hc, hrest⟩
  | literal c =>
      refine (marks_rowOne (· == c) h).congr fun suffix => ?_
      constructor
      · intro hsplit
        obtain ⟨first, rest, rfl, hfirst, hrest⟩ := hsplit
        exact ⟨[first], rest, rfl, by simpa [Element.Takes] using hfirst, hrest⟩
      · intro hsplit
        obtain ⟨_, rest, rfl, rfl, hrest⟩ := hsplit
        exact ⟨c, rest, rfl, by simp, hrest⟩

/-- The row of some elements marks the suffixes that fall into pieces for them. -/
theorem marks_row (text : List Char) (es : List Element) : Marks (Splits es) text (row text es) := by
  induction es with
  | nil =>
      induction text with
      | nil => exact .nil (by simp [splits_nil])
      | cons c text ih => exact .cons (by simp [splits_nil]) ih
  | cons e es ih =>
      rw [row]
      exact (e.marks_row ih).congr fun suffix => splits_cons.symm

/-! ## What is accepted -/

/-- The search alone finds what a pattern means. -/
theorem first_row_iff_means {glob : Glob} {text : String} :
    first (row text.toList (elements glob.source.toList)) = true ↔ glob.Means text := by
  rw [(marks_row text.toList (elements glob.source.toList)).first_iff, means_iff]

/-- A pattern that is searched with accepts a text exactly if the text is one that it means: if it
falls into consecutive pieces, one for each element of the pattern. A pattern means its own text, so
the comparison with it, which comes first, decides nothing then. A pattern that is not searched with
accepts its own text only. -/
theorem accepts_iff_means (glob : Glob) (text : String) :
    (glob.accepts text = true ↔
      if glob.searchable then glob.Means text else text = glob.source) ∧
    glob.Means glob.source ∧
    glob.accepts text =
      if glob.searchable then first (row text.toList (elements glob.source.toList))
      else text == glob.source := by
  have hsource : text = glob.source → glob.Means text := fun h => h ▸ means_source glob
  have haccepts : glob.accepts text = true ↔
      if glob.searchable then glob.Means text else text = glob.source := by
    rw [accepts, Bool.or_eq_true, Bool.and_eq_true, beq_iff_eq, first_row_iff_means]
    cases glob.searchable with
    | true => simpa using hsource
    | false => simp
  refine ⟨haccepts, means_source glob, ?_⟩
  rw [Bool.eq_iff_iff, haccepts]
  split
  · exact first_row_iff_means.symm
  · exact beq_iff_eq.symm

/-- Two stars before a slash stand for whole segments even in the middle of a name, and a third star
is one of its own. -/
example : accepts ⟨"a**/b"⟩ "ax/y/b" = true ∧ accepts ⟨"a**/b"⟩ "axb" = false ∧
    accepts ⟨"***"⟩ "x\ny" = true ∧ accepts ⟨"**"⟩ "x\ny" = false := by
  decide

end Sweep.Glob
