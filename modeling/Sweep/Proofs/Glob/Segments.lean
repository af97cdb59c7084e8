import Mathlib
import Sweep.Disk.Node
import Sweep.Proofs.Glob.Meaning
import Sweep.Proofs.Text
import Sweep.Proofs.Utf8
/-!
# Patterns and the segments of a path

A relative path is text with a slash between neighbouring segments. Of the elements of a pattern only
`**/` and `**` take slashes, and a slash that stands for itself. So a pattern without two stars in a
row is matched segment by segment, and `**/` in front of any pattern lets it begin at any segment.

Both are laws about what patterns mean. They carry over to what is accepted, since the elements of a
part of a pattern are some of the elements of the whole: a part is searched with if the whole is.

## Main results

* `splits_iff_forall₂_split`, `means_anywhere_iff` — the two laws.
* `accepts_iff_segments` — a pattern without two stars in a row, and what it says about names.
* `accepts_anywhere_iff` — a pattern after `**/`.
-/

namespace Sweep.Glob

open Text

/-! ## Parts of a pattern -/

theorem automatonSize_eq (es : List Element) :
    automatonSize es = frameSize + (es.map Element.cost).sum := by
  have hfrom : ∀ size, es.foldl (fun size e => size + e.cost) size =
      size + (es.map Element.cost).sum := by
    induction es with
    | nil => simp
    | cons e es ih =>
        intro size
        rw [List.foldl_cons, ih, List.map_cons, List.sum_cons, Nat.add_assoc]
  exact hfrom frameSize

/-- A block of a pattern over and over is searched with as often as its elements fit. -/
theorem searchable_replicate_iff {block : List Char} {es : List Element}
    (hblock : ∀ rest, elements (block ++ rest) = es ++ elements rest) (n : ℕ) :
    searchable ⟨String.ofList (List.replicate n block).flatten⟩ = true ↔
      frameSize + n * (es.map Element.cost).sum ≤ automatonLimit := by
  have helements : elements (List.replicate n block).flatten = (List.replicate n es).flatten := by
    induction n with
    | zero => rfl
    | succ n ih => rw [List.replicate_succ, List.flatten_cons, hblock, ih, ← List.flatten_cons,
        ← List.replicate_succ]
  have hsum : ((List.replicate n es).flatten.map Element.cost).sum =
      n * (es.map Element.cost).sum := by
    rw [List.map_flatten, List.sum_flatten, List.map_replicate, List.map_replicate,
      List.sum_replicate, smul_eq_mul]
  rw [searchable, decide_eq_true_eq, String.toList_ofList, helements, automatonSize_eq, hsum]

theorem searchable_questions_iff (n : ℕ) :
    searchable ⟨String.ofList (List.replicate n '?')⟩ = true ↔ n ≤ 10484 := by
  have hblock : ∀ rest, elements (['?'] ++ rest) = [.one] ++ elements rest := fun _ => rfl
  rw [← List.flatten_replicate_singleton, searchable_replicate_iff hblock]
  simp only [frameSize, automatonLimit, Element.cost, classSize, List.map_cons, List.map_nil,
    List.sum_cons, List.sum_nil]
  omega

theorem searchable_stars_iff (n : ℕ) :
    searchable ⟨String.ofList (List.replicate n ['*', 'b']).flatten⟩ = true ↔ n ≤ 9780 := by
  have hb : 'b'.utf8Size = 1 := rfl
  have hblock : ∀ rest, elements (['*', 'b'] ++ rest) = [.run, .literal 'b'] ++ elements rest :=
    fun _ => rfl
  rw [searchable_replicate_iff hblock]
  simp only [frameSize, automatonLimit, Element.cost, classSize, stateSize, hb, List.map_cons,
    List.map_nil, List.sum_cons, List.sum_nil]
  omega

/-- A part of a pattern is searched with if the whole is. -/
theorem searchable_of_sublist {part whole : Glob}
    (h : (elements part.source.toList).Sublist (elements whole.source.toList))
    (hwhole : whole.searchable = true) : part.searchable = true := by
  have hle : ((elements part.source.toList).map Element.cost).sum ≤
      ((elements whole.source.toList).map Element.cost).sum :=
    (h.map Element.cost).sum_le_sum fun _ _ => Nat.zero_le _
  simp only [searchable, decide_eq_true_eq, automatonSize_eq] at hwhole ⊢
  omega

/-- A pattern accepts its own text, and those that it is searched with and falls into pieces for. -/
theorem accepts_iff {glob : Glob} {text : String} : glob.accepts text = true ↔
    text = glob.source ∨
      glob.searchable = true ∧ Splits (elements glob.source.toList) text.toList := by
  rw [accepts, Bool.or_eq_true, Bool.and_eq_true, beq_iff_eq, first_row_iff_means, means_iff]

theorem accepts_iff_means_of_searchable {glob : Glob} (h : glob.searchable = true) (text : String) :
    glob.accepts text = true ↔ glob.Means text := by
  have hsource : text = glob.source → glob.Means text := fun heq => heq ▸ means_source glob
  rw [accepts_iff, ← means_iff]
  exact ⟨fun haccepts => haccepts.elim hsource And.right, fun hmeans => Or.inr ⟨h, hmeans⟩⟩

/-- The pieces for some elements, and then those for others. -/
theorem splits_append {front back : List Element} {text : List Char} :
    Splits (front ++ back) text ↔
      ∃ first rest, first ++ rest = text ∧ Splits front first ∧ Splits back rest := by
  induction front generalizing text with
  | nil => simp [splits_nil]
  | cons e front ih =>
      simp only [List.cons_append, splits_cons, ih]
      constructor
      · intro h
        obtain ⟨piece, _, rfl, hpiece, first, rest, rfl, hfirst, hrest⟩ := h
        exact ⟨piece ++ first, rest, by simp, ⟨piece, first, rfl, hpiece, hfirst⟩, hrest⟩
      · intro h
        obtain ⟨_, rest, rfl, ⟨piece, first, rfl, hpiece, hfirst⟩, hrest⟩ := h
        exact ⟨piece, first ++ rest, by simp, hpiece, first, rest, rfl, hfirst, hrest⟩

/-! ## Patterns without two stars in a row -/

theorem hasDoubleStar_iff {pattern : List Char} :
    hasDoubleStar pattern = true ↔ ['*', '*'] <:+: pattern := by
  fun_induction hasDoubleStar pattern with
  | case1 rest => exact iff_of_true rfl ⟨[], rest, rfl⟩
  | case2 c rest hnot ih =>
      rw [ih, List.infix_cons_iff]
      constructor
      · exact Or.inr
      · intro h
        refine h.resolve_left fun hstart => ?_
        obtain ⟨more, hmore⟩ := hstart
        cases hmore
        exact hnot _ rfl rfl
  | case3 => simp

theorem hasDoubleStar_part {part whole : List Char} (h : part <:+: whole)
    (hwhole : hasDoubleStar whole = false) : hasDoubleStar part = false := by
  cases hpart : hasDoubleStar part with
  | false => rfl
  | true =>
      rw [hasDoubleStar_iff.2 ((hasDoubleStar_iff.1 hpart).trans h)] at hwhole
      cases hwhole

theorem hasDoubleStar_tail {c : Char} {pattern : List Char}
    (h : hasDoubleStar (c :: pattern) = false) : hasDoubleStar pattern = false :=
  hasDoubleStar_part (List.infix_cons List.infix_rfl) h

/-- Up to a slash, a pattern without two stars in a row is read on its own. -/
theorem Reads.append_slash {front back : List Char} {es fs : List Element} (h : Reads front es)
    (hplain : hasDoubleStar front = false) (hback : Reads back fs) :
    Reads (front ++ '/' :: back) (es ++ .literal '/' :: fs) := by
  induction h with
  | done => exact .literal (by decide) (by decide) hback
  | segments rest ih => cases hplain
  | anything hslash rest ih => cases hplain
  | @run pattern es hstar rest ih =>
      refine .run ?_ (ih (hasDoubleStar_tail hplain))
      -- the star may be the last character in front of the slash
      cases pattern with
      | nil => simp
      | cons c pattern => exact hstar
  | one rest ih => exact .one (ih (hasDoubleStar_tail hplain))
  | literal hstar hone rest ih => exact .literal hstar hone (ih (hasDoubleStar_tail hplain))

theorem elements_append_slash {front : List Char} (hplain : hasDoubleStar front = false)
    (back : List Char) :
    elements (front ++ '/' :: back) = elements front ++ .literal '/' :: elements back :=
  reads_iff.1 ((reads_elements front).append_slash hplain (reads_elements back))

/-- Without two stars in a row, only a slash takes a slash. -/
theorem Reads.slash_not_mem_piece {pattern : List Char} {es : List Element} (h : Reads pattern es)
    (hplain : hasDoubleStar pattern = false) (hslash : '/' ∉ pattern) :
    ∀ e ∈ es, ∀ piece, e.Takes piece → '/' ∉ piece := by
  induction h with
  | done => simp
  | segments rest ih => cases hplain
  | anything hstar rest ih => cases hplain
  | run hstar rest ih =>
      refine List.forall_mem_cons.2 ⟨fun piece hpiece => hpiece, ?_⟩
      exact ih (hasDoubleStar_tail hplain) fun hmem => hslash (List.mem_cons_of_mem _ hmem)
  | one rest ih =>
      refine List.forall_mem_cons.2 ⟨?_, ?_⟩
      · rintro _ ⟨c, hc, rfl⟩
        simpa using hc.symm
      · exact ih (hasDoubleStar_tail hplain) fun hmem => hslash (List.mem_cons_of_mem _ hmem)
  | @literal c _ _ hstar hone rest ih =>
      refine List.forall_mem_cons.2 ⟨?_, ?_⟩
      · rintro _ rfl hmem
        exact hslash (List.mem_singleton.1 hmem ▸ List.mem_cons_self)
      · exact ih (hasDoubleStar_tail hplain) fun hmem => hslash (List.mem_cons_of_mem _ hmem)

theorem not_mem_of_splits {c : Char} {es : List Element} {text : List Char}
    (hpieces : ∀ e ∈ es, ∀ piece, e.Takes piece → c ∉ piece) (h : Splits es text) : c ∉ text := by
  induction es generalizing text with
  | nil =>
      rw [splits_nil.1 h]
      exact List.not_mem_nil
  | cons e es ih =>
      obtain ⟨hfirst, hothers⟩ := List.forall_mem_cons.1 hpieces
      obtain ⟨piece, rest, rfl, hpiece, hrest⟩ := splits_cons.1 h
      exact fun hmem => (List.mem_append.1 hmem).elim (hfirst piece hpiece) (ih hothers hrest)

/-- Without two stars in a row and without a slash, a pattern means texts without a slash. -/
theorem slash_not_mem_of_splits {pattern text : List Char} (hplain : hasDoubleStar pattern = false)
    (hslash : '/' ∉ pattern) (h : Splits (elements pattern) text) : '/' ∉ text :=
  not_mem_of_splits ((reads_elements pattern).slash_not_mem_piece hplain hslash) h

theorem slash_not_mem_of_accepts {glob : Glob} {text : String} (hplain : glob.isRecursive = false)
    (hslash : '/' ∉ glob.source.toList) (h : glob.accepts text = true) : '/' ∉ text.toList := by
  rcases accepts_iff.1 h with rfl | ⟨-, hsplits⟩
  · exact hslash
  · exact slash_not_mem_of_splits hplain hslash hsplits

/-! ## Segment by segment -/

theorem split_slash_eq_singleton {text : List Char} (h : '/' ∉ text) :
    split (· == '/') text = [text] := by
  refine split_eq_singleton fun c hc => ?_
  simp only [beq_eq_false_iff_ne]
  exact fun heq => h (heq ▸ hc)

theorem split_slash_append {front : List Char} (h : '/' ∉ front) (back : List Char) :
    split (· == '/') (front ++ '/' :: back) = front :: split (· == '/') back := by
  rw [split_append_cons (by decide), split_slash_eq_singleton h, List.singleton_append]

/-- A text is one segment, or its first segment ends at a slash. -/
theorem slash_cases (text : List Char) :
    ('/' ∉ text ∧ split (· == '/') text = [text]) ∨
      ∃ first rest, text = first ++ '/' :: rest ∧ '/' ∉ first ∧
        split (· == '/') text = first :: split (· == '/') rest := by
  by_cases hslash : '/' ∈ text
  · obtain ⟨first, rest, rfl, hfirst⟩ := List.eq_append_cons_of_mem hslash
    exact Or.inr ⟨first, rest, rfl, hfirst, split_slash_append hfirst rest⟩
  · exact Or.inl ⟨hslash, split_slash_eq_singleton hslash⟩

theorem plain_of_append_slash {front back : List Char}
    (h : hasDoubleStar (front ++ '/' :: back) = false) :
    hasDoubleStar front = false ∧ hasDoubleStar back = false :=
  ⟨hasDoubleStar_part (List.prefix_append ..).isInfix h,
    hasDoubleStar_part ((List.suffix_cons ..).trans (List.suffix_append ..)).isInfix h⟩

/-- Before and after a slash. -/
theorem splits_append_slash_iff {front : List Char} (hplain : hasDoubleStar front = false)
    {back text : List Char} :
    Splits (elements (front ++ '/' :: back)) text ↔ ∃ first rest, text = first ++ '/' :: rest ∧
      Splits (elements front) first ∧ Splits (elements back) rest := by
  rw [elements_append_slash hplain, splits_append]
  constructor
  · intro h
    obtain ⟨first, _, rfl, hfirst, hmore⟩ := h
    obtain ⟨_, rest, rfl, rfl, hrest⟩ := splits_cons.1 hmore
    exact ⟨first, rest, rfl, hfirst, hrest⟩
  · intro h
    obtain ⟨first, rest, rfl, hfirst, hrest⟩ := h
    exact ⟨first, '/' :: rest, rfl, hfirst, splits_cons.2 ⟨['/'], rest, rfl, rfl, hrest⟩⟩

/-- A text falls into pieces for a pattern without two stars in a row if its segments do, each for
the segment of the pattern at its place. -/
theorem splits_iff_forall₂_split {pattern text : List Char} (hplain : hasDoubleStar pattern = false) :
    Splits (elements pattern) text ↔
      List.Forall₂ (fun part segment => Splits (elements part) segment)
        (split (· == '/') pattern) (split (· == '/') text) := by
  generalize hparts : split (· == '/') pattern = parts
  induction parts generalizing pattern text with
  | nil => exact absurd hparts (split_ne_nil pattern)
  | cons part parts ih =>
      rcases slash_cases pattern with ⟨hslash, hone⟩ | ⟨front, back, rfl, hslash, hcut⟩
      · obtain ⟨rfl, rfl⟩ := List.cons.inj (hone.symm.trans hparts)
        constructor
        · intro h
          rw [split_slash_eq_singleton (slash_not_mem_of_splits hplain hslash h)]
          exact .cons h .nil
        · intro h
          rcases slash_cases text with ⟨-, htext⟩ | ⟨first, rest, rfl, -, htext⟩
          · rw [htext] at h
            exact (List.forall₂_cons.1 h).1
          · rw [htext, List.forall₂_cons, List.forall₂_nil_left_iff] at h
            exact absurd h.2 (split_ne_nil rest)
      · obtain ⟨rfl, hback⟩ := List.cons.inj (hcut.symm.trans hparts)
        obtain ⟨hfront, hplain⟩ := plain_of_append_slash hplain
        rw [splits_append_slash_iff hfront]
        constructor
        · intro h
          obtain ⟨first, rest, rfl, hfirst, hrest⟩ := h
          rw [split_slash_append (slash_not_mem_of_splits hfront hslash hfirst)]
          exact .cons hfirst ((ih hplain hback).1 hrest)
        · intro h
          rcases slash_cases text with ⟨-, htext⟩ | ⟨first, rest, rfl, -, htext⟩
          · rw [htext, List.forall₂_cons, List.forall₂_nil_right_iff, ← hback] at h
            exact absurd h.2 (split_ne_nil back)
          · rw [htext, List.forall₂_cons] at h
            exact ⟨first, rest, rfl, h.1, (ih hplain hback).2 h.2⟩

/-- The elements of a segment are some of those of the whole pattern. -/
theorem elements_sublist_of_mem_split {pattern part : List Char}
    (hplain : hasDoubleStar pattern = false) (h : part ∈ split (· == '/') pattern) :
    (elements part).Sublist (elements pattern) := by
  generalize hparts : split (· == '/') pattern = parts at h
  induction parts generalizing pattern with
  | nil => cases h
  | cons first parts ih =>
      rcases slash_cases pattern with ⟨-, hone⟩ | ⟨front, back, rfl, -, hcut⟩
      · obtain ⟨rfl, rfl⟩ := List.cons.inj (hone.symm.trans hparts)
        rw [List.mem_singleton.1 h]
      · obtain ⟨rfl, hback⟩ := List.cons.inj (hcut.symm.trans hparts)
        obtain ⟨hfront, hplain⟩ := plain_of_append_slash hplain
        rw [elements_append_slash hfront]
        rcases List.mem_cons.1 h with rfl | hlater
        · exact List.sublist_append_left ..
        · exact ((ih hplain hback hlater).cons _).trans (List.sublist_append_right ..)

/-! ## Names -/

/-- No entry of a directory has a slash in its name, whatever is read for bytes that are no text. -/
theorem slash_not_mem_name (name : Disk.Name) : '/' ∉ name.text.toList := by
  intro hmem
  rw [Disk.Name.text, String.toList_ofList] at hmem
  exact name.proper.2.2.2.1 (Utf8.mem_of_mem_lossy (by decide) (by decide) hmem)

/-- A pattern with a slash and without two stars in a row accepts no name. -/
theorem not_accepts_name {glob : Glob} (hplain : glob.isRecursive = false)
    (hslash : '/' ∈ glob.source.toList) (name : Disk.Name) : glob.accepts name.text = false := by
  have hname := slash_not_mem_name name
  rw [← Bool.not_eq_true, accepts_iff]
  rintro (heq | ⟨-, hsplits⟩)
  · exact hname (heq ▸ hslash)
  · obtain ⟨front, back, hsource, -⟩ := List.eq_append_cons_of_mem hslash
    rw [isRecursive, hsource] at hplain
    rw [hsource, splits_append_slash_iff (plain_of_append_slash hplain).1] at hsplits
    obtain ⟨first, rest, htext, -⟩ := hsplits
    exact hname (htext ▸ List.mem_append_right _ List.mem_cons_self)

/-! ## What is accepted -/

/-- The segments of a relative path: what stands between its slashes. -/
def segments (text : String) : List String :=
  (split (· == '/') text.toList).map String.ofList

/-- A pattern without two stars in a row that is searched with accepts a text exactly if both have as
many segments and each segment of the pattern accepts the segment of the text at its place. If it has
a slash it accepts no name of an entry of a directory, whether it is searched with or not. -/
theorem accepts_iff_segments {glob : Glob} (hplain : glob.isRecursive = false) :
    (glob.searchable = true → ∀ text, glob.accepts text = true ↔
      List.Forall₂ (fun part segment => accepts ⟨part⟩ segment = true)
        (segments glob.source) (segments text)) ∧
      ('/' ∈ glob.source.toList → ∀ name : Disk.Name, glob.accepts name.text = false) := by
  refine ⟨fun hsearchable text => ?_, not_accepts_name hplain⟩
  have hpart : ∀ part ∈ split (· == '/') glob.source.toList,
      searchable ⟨String.ofList part⟩ = true := by
    intro part hmem
    refine searchable_of_sublist ?_ hsearchable
    rw [String.toList_ofList]
    exact elements_sublist_of_mem_split hplain hmem
  have hsame : ∀ part segment, searchable ⟨String.ofList part⟩ = true →
      (accepts ⟨String.ofList part⟩ (String.ofList segment) = true ↔
        Splits (elements part) segment) := by
    intro part segment h
    rw [accepts_iff_means_of_searchable h, means_iff, String.toList_ofList, String.toList_ofList]
  rw [accepts_iff_means_of_searchable hsearchable, means_iff, splits_iff_forall₂_split hplain,
    segments, segments, List.forall₂_map_left_iff, List.forall₂_map_right_iff]
  constructor
  · intro h
    have hboth := (List.forall₂_and_left _ _).2 ⟨hpart, h⟩
    exact hboth.imp fun part segment hsplits => (hsame part segment hsplits.1).2 hsplits.2
  · intro h
    have hboth := (List.forall₂_and_left _ _).2 ⟨hpart, h⟩
    exact hboth.imp fun part segment haccepts => (hsame part segment haccepts.1).1 haccepts.2

/-- An empty segment, and a line feed for the question mark. -/
theorem accepts_iff_segments_of_star :
    isRecursive ⟨"*/b?"⟩ = false ∧ searchable ⟨"*/b?"⟩ = true ∧
      accepts ⟨"*/b?"⟩ "/b\n" = true ∧ ∀ name : Disk.Name, accepts ⟨"*/b?"⟩ name.text = false := by
  have hplain : isRecursive ⟨"*/b?"⟩ = false := by decide
  have hsearchable : searchable ⟨"*/b?"⟩ = true := by decide
  have hpattern : segments "*/b?" = ["*", "b?"] := by decide
  have htext : segments "/b\n" = ["", "b\n"] := by decide
  obtain ⟨hsegments, hnames⟩ := accepts_iff_segments hplain
  refine ⟨hplain, hsearchable, (hsegments hsearchable "/b\n").2 ?_, hnames (by decide)⟩
  rw [hpattern, htext]
  exact .cons (by decide) (.cons (by decide) .nil)

/-! ## At any depth -/

theorem elements_anywhere (pattern : String) :
    elements ("**/" ++ pattern).toList = .segments :: elements pattern.toList := by
  rw [String.toList_append]
  rfl

/-- After `**/`, a pattern begins at the beginning of a text or after one of its slashes. -/
theorem splits_segments_iff {es : List Element} {text : List Char} :
    Splits (.segments :: es) text ↔
      Splits es text ∨ ∃ front rest, text = front ++ '/' :: rest ∧ Splits es rest := by
  rw [splits_cons]
  constructor
  · intro h
    obtain ⟨piece, rest, rfl, hpiece, hrest⟩ := h
    rcases rounds_iff.1 hpiece with rfl | ⟨front, rfl⟩
    · exact Or.inl hrest
    · exact Or.inr ⟨front, rest, by simp, hrest⟩
  · intro h
    rcases h with hwhole | ⟨front, rest, rfl, hrest⟩
    · exact ⟨[], text, rfl, rounds_iff.2 (Or.inl rfl), hwhole⟩
    · exact ⟨front ++ ['/'], rest, by simp, rounds_of_slash front, hrest⟩

/-- A second `**/` adds nothing. -/
theorem splits_segments_segments_iff {es : List Element} {text : List Char} :
    Splits (.segments :: .segments :: es) text ↔ Splits (.segments :: es) text := by
  rw [splits_segments_iff]
  constructor
  · intro h
    rcases h with hwhole | ⟨front, rest, rfl, hrest⟩
    · exact hwhole
    · rcases splits_segments_iff.1 hrest with hhere | ⟨more, later, rfl, hlater⟩
      · exact splits_segments_iff.2 (Or.inr ⟨front, rest, rfl, hhere⟩)
      · exact splits_segments_iff.2 (Or.inr ⟨front ++ '/' :: more, later, by simp, hlater⟩)
  · exact Or.inl

theorem means_anywhere_iff {pattern text : String} :
    Means ⟨"**/" ++ pattern⟩ text ↔ Means ⟨pattern⟩ text ∨
      ∃ front rest, text = front ++ "/" ++ rest ∧ Means ⟨pattern⟩ rest := by
  simp only [means_iff, elements_anywhere, splits_segments_iff]
  refine or_congr_right ?_
  constructor
  · intro h
    obtain ⟨front, rest, htext, hrest⟩ := h
    refine ⟨String.ofList front, String.ofList rest, ?_, by rwa [String.toList_ofList]⟩
    apply String.toList_injective
    simp [htext]
  · intro h
    obtain ⟨front, rest, rfl, hrest⟩ := h
    exact ⟨front.toList, rest.toList, by simp, hrest⟩

theorem means_anywhere_anywhere_iff {pattern text : String} :
    Means ⟨"**/" ++ ("**/" ++ pattern)⟩ text ↔ Means ⟨"**/" ++ pattern⟩ text := by
  simp only [means_iff, elements_anywhere, splits_segments_segments_iff]

theorem searchable_of_anywhere {pattern : String} (h : searchable ⟨"**/" ++ pattern⟩ = true) :
    searchable ⟨pattern⟩ = true := by
  refine searchable_of_sublist ?_ h
  rw [elements_anywhere]
  exact List.sublist_cons_self ..

/-- With `**/` in front, a pattern accepts what it accepts itself and what goes on after a slash with
a text that it accepts, whatever it begins with. So a second `**/` changes nothing. -/
theorem accepts_anywhere_iff {pattern : String} (h : searchable ⟨"**/" ++ pattern⟩ = true)
    (text : String) :
    (accepts ⟨"**/" ++ pattern⟩ text = true ↔ accepts ⟨pattern⟩ text = true ∨
      ∃ front rest, text = front ++ "/" ++ rest ∧ accepts ⟨pattern⟩ rest = true) ∧
      (searchable ⟨"**/" ++ ("**/" ++ pattern)⟩ = true →
        accepts ⟨"**/" ++ ("**/" ++ pattern)⟩ text = accepts ⟨"**/" ++ pattern⟩ text) := by
  have hpattern := accepts_iff_means_of_searchable (searchable_of_anywhere h)
  have hanywhere := accepts_iff_means_of_searchable h
  constructor
  · simp only [hpattern, hanywhere]
    exact means_anywhere_iff
  · intro htwice
    rw [Bool.eq_iff_iff, hanywhere, accepts_iff_means_of_searchable htwice]
    exact means_anywhere_anywhere_iff

/-- A pattern that begins with stars of its own. -/
theorem accepts_anywhere_iff_of_stars :
    searchable ⟨"**/" ++ "***b"⟩ = true ∧ searchable ⟨"**/" ++ ("**/" ++ "***b")⟩ = true ∧
      accepts ⟨"***b"⟩ "\n/ab" = false ∧
      accepts ⟨"**/" ++ ("**/" ++ "***b")⟩ "\n/ab" = true := by
  have hsearchable : searchable ⟨"**/" ++ "***b"⟩ = true := by decide
  have htwice : searchable ⟨"**/" ++ ("**/" ++ "***b")⟩ = true := by decide
  obtain ⟨hdepth, hsame⟩ := accepts_anywhere_iff hsearchable "\n/ab"
  refine ⟨hsearchable, htwice, by decide, ?_⟩
  rw [hsame htwice]
  exact hdepth.2 (Or.inr ⟨"\n", "ab", by decide, by decide⟩)

end Sweep.Glob
