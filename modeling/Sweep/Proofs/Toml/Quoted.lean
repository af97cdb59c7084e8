import Mathlib.Tactic.SplitIfs
import Sweep.Toml.Quoted
/-!
# Quoted strings of TOML read back

A string is written in one of four ways, and each is read back by a reader of its own. For each
reader there is one lemma for each thing that can stand at the front of what it reads, so that a
string is read back character by character.

Between marks written three times the marks of the string itself are the hard part: a reader that
meets three of them in a row stops. The writer keeps them from standing in a row, by escapes or by
choosing another way, but up to two of them may stand right before the closing ones, and are then
read together with these.

## Main results

* `readEscape_escape?` — an escape stands for its character.
* `readLine_escapedBody`, `readLines_escapedBody`, `readVerbatim_append`,
  `readVerbatimLines_append` — the four ways to write a string.
* `decode?_encode_append` — any string reads back from the front of a text.
-/

namespace Sweep.Toml.Quoted

open Number

/-! ## Escapes -/

/-- The digits of a code point below 256 stand for its character. -/
theorem hexChar?_of_lt {c : Char} (h : c.toNat < 256) :
    hexChar? ['0', '0', hexDigit .capital (c.toNat / 16), hexDigit .capital (c.toNat % 16)] =
      some c := by
  have hzeros : digitsIn? 16 ['0', '0'] = some 0 := by decide
  have hfirst := digitsIn?_concat 16 ['0', '0'] (hexDigit .capital (c.toNat / 16))
  rw [hzeros, Option.bind_some, digitIn?_hexDigit _ (by omega), Option.map_some] at hfirst
  have hboth := digitsIn?_concat 16 (['0', '0'] ++ [hexDigit .capital (c.toNat / 16)])
    (hexDigit .capital (c.toNat % 16))
  rw [hfirst, Option.bind_some, digitIn?_hexDigit _ (by omega), Option.map_some] at hboth
  have hvalue : (0 * 16 + c.toNat / 16) * 16 + c.toNat % 16 = c.toNat := by omega
  rw [hvalue] at hboth
  have hdigits : digitsIn? 16
      ['0', '0', hexDigit .capital (c.toNat / 16), hexDigit .capital (c.toNat % 16)] =
        some c.toNat := hboth
  have hvalid : c.toNat.isValidChar := c.valid
  simp only [hexChar?, hdigits, Option.bind_eq_bind, Option.bind_some, if_pos hvalid,
    Char.ofNat_toNat]

/-- An escape stands for its character. -/
theorem readEscape_escape? {c : Char} {written : List Char} (h : escape? c = some written)
    (rest : List Char) :
    ∃ tail, written = '\\' :: tail ∧ readEscape (tail ++ rest) = some (c, rest) := by
  unfold escape? at h
  split_ifs at h with hback htab hfeed hreturn hslash hcontrol
  · cases h
    exact ⟨['b'], rfl, by rw [hback]; rfl⟩
  · cases h
    exact ⟨['t'], rfl, by rw [htab]; rfl⟩
  · cases h
    exact ⟨['f'], rfl, by rw [hfeed]; rfl⟩
  · cases h
    exact ⟨['r'], rfl, by rw [hreturn]; rfl⟩
  · cases h
    exact ⟨['\\'], rfl, by rw [hslash]; rfl⟩
  · cases h
    have hsmall : c.toNat < 256 := by
      simp [isControl] at hcontrol
      omega
    refine ⟨_, rfl, ?_⟩
    simp [readEscape, hexChar?_of_lt hsmall]

/-- What needs no escape is neither a backslash nor a control character. -/
theorem isControl_of_escape?_eq_none {c : Char} (h : escape? c = none) :
    isControl c = false ∧ c ≠ '\\' := by
  unfold escape? at h
  split_ifs at h with hback htab hfeed hreturn hslash hcontrol
  exact ⟨Bool.eq_false_iff.2 hcontrol, hslash⟩

theorem isPlain_of_not_control {c : Char} (hcontrol : isControl c = false) (hbreak : c ≠ '\n') :
    isPlain c = true := by
  simp [isPlain, hcontrol, hbreak]

/-! ## Between quotes, on one line -/

theorem readLine_escape {written rest cs left : List Char} {c : Char}
    (hescape : readEscape written = some (c, rest)) (hrest : readLine rest = some (cs, left)) :
    readLine ('\\' :: written) = some (c :: cs, left) := by
  rw [readLine]
  split
  · rename_i hnone
    rw [hescape] at hnone
    cases hnone
  · rename_i hsome
    rw [hescape] at hsome
    cases hsome
    rw [hrest]
    rfl

theorem readLine_plain {rest cs left : List Char} {c : Char} (hplain : isPlain c = true)
    (hquote : c ≠ '"') (hbackslash : c ≠ '\\') (hrest : readLine rest = some (cs, left)) :
    readLine (c :: rest) = some (c :: cs, left) := by
  rw [readLine]
  · rw [if_pos hplain, hrest]
    rfl
  · exact hquote
  · exact hbackslash

/-- A string in quotes reads back on one line. -/
theorem readLine_escapedBody (cs rest : List Char) (run : Nat) :
    readLine (escapedBody .once run cs ++ '"' :: rest) = some (cs, rest) := by
  fun_induction escapedBody .once run cs with
  | case1 run =>
      rw [List.nil_append, readLine]
  | case2 run tail hmarks ih => exact readLine_escape (by rfl) ih
  | case3 run tail hmarks ih => simp at hmarks
  | case4 run tail ih => exact readLine_escape (by rfl) ih
  | case5 run c tail hquote hbreak ih =>
      cases hescape : escape? c with
      | none =>
          obtain ⟨hcontrol, hbackslash⟩ := isControl_of_escape?_eq_none hescape
          exact readLine_plain (isPlain_of_not_control hcontrol hbreak) hquote hbackslash ih
      | some written =>
          obtain ⟨after, rfl, hread⟩ :=
            readEscape_escape? hescape (escapedBody .once 0 tail ++ '"' :: rest)
          rw [Option.getD_some, List.append_assoc]
          exact readLine_escape hread ih

/-! ## Between quotes, on several lines -/

/-- A backslash before an escape does not end a line. -/
theorem afterBreak?_of_readEscape {written rest : List Char} {c : Char}
    (h : readEscape written = some (c, rest)) :
    afterBreak? (written.dropWhile isSpace) = none := by
  unfold readEscape at h
  split at h <;> first | rfl | cases h

theorem readLines_escape {written rest cs left : List Char} {c : Char}
    (hescape : readEscape written = some (c, rest)) (hrest : readLines rest = some (cs, left)) :
    readLines ('\\' :: written) = some (c :: cs, left) := by
  rw [readLines]
  split
  · rename_i hbreak
    rw [afterBreak?_of_readEscape hescape] at hbreak
    cases hbreak
  · split
    · rename_i hnone
      rw [hescape] at hnone
      cases hnone
    · rename_i hsome
      rw [hescape] at hsome
      cases hsome
      rw [hrest]
      rfl

theorem readLines_break {rest cs left : List Char} (hrest : readLines rest = some (cs, left)) :
    readLines ('\n' :: rest) = some ('\n' :: cs, left) := by
  rw [readLines, hrest]
  rfl

/-- A quote that no two others follow belongs to the string, and so does every other character that
needs no escape. -/
theorem readLines_plain {rest cs left : List Char} {c : Char} (hplain : isPlain c = true)
    (hbackslash : c ≠ '\\') (hquote : c = '"' → ¬ ['"', '"'] <+: rest)
    (hrest : readLines rest = some (cs, left)) : readLines (c :: rest) = some (c :: cs, left) := by
  have hopen : ∀ more, c = '"' → rest ≠ '"' :: '"' :: more := by
    rintro more hc rfl
    exact hquote hc ⟨more, rfl⟩
  rw [readLines]
  · rw [if_pos hplain, hrest]
    rfl
  · exact fun more hc h => hopen _ hc h
  · exact fun more hc h => hopen _ hc h
  · exact fun more hc h => hopen _ hc h
  · exact hbackslash
  · rintro rfl
    cases hplain
  · rintro more rfl
    cases hplain

/-- Up to two quotes may stand right before the three that close a string. -/
theorem readLines_close {rest : List Char} (hrest : rest.head? ≠ some '"') {count : Nat}
    (hcount : count < 3) :
    readLines (List.replicate count '"' ++ '"' :: '"' :: '"' :: rest) =
      some (List.replicate count '"', rest) := by
  have hother : ∀ more, rest ≠ '"' :: more := by
    rintro more rfl
    exact hrest rfl
  match count, hcount with
  | 0, _ =>
      show readLines ('"' :: '"' :: '"' :: rest) = some ([], rest)
      rw [readLines]
      · exact fun more h => hother _ h
      · exact hother
  | 1, _ =>
      show readLines ('"' :: '"' :: '"' :: '"' :: rest) = some (['"'], rest)
      rw [readLines]
      exact hother
  | 2, _ =>
      show readLines ('"' :: '"' :: '"' :: '"' :: '"' :: rest) = some (['"', '"'], rest)
      rw [readLines]

/-- The body of a string in quotes begins with its first character, or with a backslash. -/
theorem escapedBody_cons (marks : Marks) (run : Nat) (c : Char) (tail : List Char) :
    ∃ first more, escapedBody marks run (c :: tail) = first :: more ∧
      (first = '\\' ∨ first = c ∧ escape? c = none ∧ (c = '"' → marks = .thrice ∧ run ≠ 2 ∧
        more = escapedBody marks (run + 1) tail)) := by
  by_cases hquote : c = '"'
  · subst hquote
    rw [escapedBody]
    by_cases hmarks : marks = .once || run = 2
    · rw [if_pos hmarks]
      exact ⟨_, _, rfl, Or.inl rfl⟩
    · rw [if_neg hmarks]
      have hthrice : marks = .thrice := by
        cases marks <;> simp at hmarks ⊢
      have hrun : run ≠ 2 := by
        rintro rfl
        simp at hmarks
      exact ⟨_, _, rfl, Or.inr ⟨rfl, rfl, fun _ => ⟨hthrice, hrun, rfl⟩⟩⟩
  · by_cases hbreak : c = '\n'
    · subst hbreak
      rw [escapedBody]
      cases marks with
      | once => exact ⟨_, _, rfl, Or.inl rfl⟩
      | thrice => exact ⟨_, _, rfl, Or.inr ⟨rfl, rfl, fun h => absurd h hquote⟩⟩
    · rw [escapedBody]
      · cases hescape : escape? c with
        | none => exact ⟨_, _, rfl, Or.inr ⟨rfl, rfl, fun h => absurd h hquote⟩⟩
        | some written =>
            obtain ⟨after, rfl, -⟩ := readEscape_escape? hescape []
            exact ⟨_, _, rfl, Or.inl rfl⟩
      · exact hquote
      · exact hbreak

/-- Two quotes can only stand in a row after another one where the string ends. -/
theorem ends_of_quotes {run : Nat} {tail rest : List Char} (hrun : run = 1 ∨ run = 2)
    (h : ['"', '"'] <+: escapedBody .thrice run tail ++ '"' :: '"' :: '"' :: rest) :
    tail = [] ∨ run = 1 ∧ tail = ['"'] := by
  cases tail with
  | nil => exact Or.inl rfl
  | cons c more =>
      obtain ⟨first, body, hbody, hfirst⟩ := escapedBody_cons .thrice run c more
      rw [hbody, List.cons_append, List.cons_prefix_cons] at h
      rcases hfirst with rfl | ⟨rfl, -, hquote⟩
      · exact absurd h.1 (by decide)
      · obtain ⟨-, hne, rfl⟩ := hquote h.1.symm
        have hone : run = 1 := by omega
        subst hone
        -- the second quote is the last character, as a third one would have an escape
        cases more with
        | nil =>
            rw [h.1]
            exact Or.inr ⟨rfl, rfl⟩
        | cons next others =>
            obtain ⟨second, body, hbody, hsecond⟩ := escapedBody_cons .thrice 2 next others
            rw [hbody, List.cons_append, List.cons_prefix_cons] at h
            rcases hsecond with rfl | ⟨rfl, -, hquote⟩
            · exact absurd h.2.1 (by decide)
            · exact absurd rfl (hquote h.2.1.symm).2.1

/-- A string in quotes reads back on several lines. -/
theorem readLines_escapedBody {run : Nat} (hrun : run ≤ 2) (cs : List Char) {rest : List Char}
    (hrest : rest.head? ≠ some '"') :
    readLines (escapedBody .thrice run cs ++ '"' :: '"' :: '"' :: rest) = some (cs, rest) := by
  generalize hmarks : Marks.thrice = marks
  fun_induction escapedBody marks run cs with
  | case1 run => exact readLines_close hrest (show 0 < 3 by omega)
  | case2 run tail hescaped ih => exact readLines_escape (by rfl) (ih (by omega))
  | case3 run tail hescaped ih =>
      subst hmarks
      have hopen : run ≠ 2 := by
        rintro rfl
        simp at hescaped
      have htail := ih (by omega)
      by_cases hclose :
          ['"', '"'] <+: escapedBody .thrice (run + 1) tail ++ '"' :: '"' :: '"' :: rest
      · rcases ends_of_quotes (by omega) hclose with rfl | ⟨hone, rfl⟩
        · exact readLines_close hrest (show 1 < 3 by omega)
        · rw [hone]
          exact readLines_close hrest (show 2 < 3 by omega)
      · exact readLines_plain (by decide) (by decide) (fun _ => hclose) htail
  | case4 run tail ih =>
      subst hmarks
      exact readLines_break (ih (by omega))
  | case5 run c tail hquote hbreak ih =>
      have htail := ih (by omega)
      cases hescape : escape? c with
      | none =>
          obtain ⟨hcontrol, hbackslash⟩ := isControl_of_escape?_eq_none hescape
          exact readLines_plain (isPlain_of_not_control hcontrol hbreak) hbackslash
            (fun h => absurd h hquote) htail
      | some written =>
          obtain ⟨after, rfl, hread⟩ := readEscape_escape? hescape
            (escapedBody marks 0 tail ++ '"' :: '"' :: '"' :: rest)
          rw [Option.getD_some, List.append_assoc]
          exact readLines_escape hread htail

/-! ## Between apostrophes -/

/-- A string without its mark, line breaks and control characters reads back as it is. -/
theorem readVerbatim_append {cs : List Char} (hmark : '\'' ∉ cs) (hbreak : '\n' ∉ cs)
    (hcontrol : cs.any isControl = false) (rest : List Char) :
    readVerbatim (cs ++ '\'' :: rest) = some (cs, rest) := by
  induction cs with
  | nil => rfl
  | cons c tail ih =>
      rw [List.any_cons, Bool.or_eq_false_iff] at hcontrol
      rw [List.mem_cons, not_or] at hmark hbreak
      have hplain := isPlain_of_not_control hcontrol.1 (Ne.symm hbreak.1)
      rw [List.cons_append, readVerbatim]
      · rw [if_pos hplain, ih hmark.2 hbreak.2 hcontrol.2]
        rfl
      · exact Ne.symm hmark.1

theorem readVerbatimLines_break {rest cs left : List Char}
    (hrest : readVerbatimLines rest = some (cs, left)) :
    readVerbatimLines ('\n' :: rest) = some ('\n' :: cs, left) := by
  rw [readVerbatimLines, hrest]
  rfl

/-- An apostrophe that no two others follow belongs to the string, and so does every other plain
character. -/
theorem readVerbatimLines_plain {rest cs left : List Char} {c : Char} (hplain : isPlain c = true)
    (hmark : c = '\'' → ¬ ['\'', '\''] <+: rest)
    (hrest : readVerbatimLines rest = some (cs, left)) :
    readVerbatimLines (c :: rest) = some (c :: cs, left) := by
  have hopen : ∀ more, c = '\'' → rest ≠ '\'' :: '\'' :: more := by
    rintro more hc rfl
    exact hmark hc ⟨more, rfl⟩
  rw [readVerbatimLines]
  · rw [if_pos hplain, hrest]
    rfl
  · exact fun more hc h => hopen _ hc h
  · exact fun more hc h => hopen _ hc h
  · exact fun more hc h => hopen _ hc h
  · rintro rfl
    cases hplain
  · rintro more rfl
    cases hplain

/-- Up to two apostrophes may stand right before the three that close a string. -/
theorem readVerbatimLines_close {rest : List Char} (hrest : rest.head? ≠ some '\'') {count : Nat}
    (hcount : count < 3) :
    readVerbatimLines (List.replicate count '\'' ++ '\'' :: '\'' :: '\'' :: rest) =
      some (List.replicate count '\'', rest) := by
  have hother : ∀ more, rest ≠ '\'' :: more := by
    rintro more rfl
    exact hrest rfl
  match count, hcount with
  | 0, _ =>
      show readVerbatimLines ('\'' :: '\'' :: '\'' :: rest) = some ([], rest)
      rw [readVerbatimLines]
      · exact fun more h => hother _ h
      · exact hother
  | 1, _ =>
      show readVerbatimLines ('\'' :: '\'' :: '\'' :: '\'' :: rest) = some (['\''], rest)
      rw [readVerbatimLines]
      exact hother
  | 2, _ =>
      show readVerbatimLines ('\'' :: '\'' :: '\'' :: '\'' :: '\'' :: rest) =
        some (['\'', '\''], rest)
      rw [readVerbatimLines]

theorem longestRun_go_mono (mark : Char) (cs : List Char) {run other : Nat} (h : run ≤ other) :
    longestRun.go mark run cs ≤ longestRun.go mark other cs := by
  induction cs generalizing run other with
  | nil => exact h
  | cons c tail ih =>
      rw [longestRun.go, longestRun.go]
      split
      · exact ih (Nat.succ_le_succ h)
      · omega

theorem le_longestRun_go (mark : Char) (cs : List Char) (run : Nat) :
    run ≤ longestRun.go mark run cs := by
  induction cs generalizing run with
  | nil => exact Nat.le_refl run
  | cons c tail ih =>
      rw [longestRun.go]
      split
      · exact Nat.le_of_succ_le (ih (run + 1))
      · exact Nat.le_max_left _ _

/-- The runs of a string are no longer than those of one that it ends. -/
theorem longestRun_tail_le (mark c : Char) (tail : List Char) :
    longestRun mark tail ≤ longestRun mark (c :: tail) := by
  rw [longestRun, longestRun, longestRun.go]
  split
  · exact longestRun_go_mono mark tail (Nat.zero_le _)
  · exact Nat.le_max_right _ _

theorem not_mem_of_longestRun_eq_zero {mark : Char} {cs : List Char}
    (h : longestRun mark cs = 0) : mark ∉ cs := by
  induction cs with
  | nil => exact List.not_mem_nil
  | cons c tail ih =>
      have htail := longestRun_tail_le mark c tail
      rw [List.mem_cons, not_or]
      constructor
      · intro hmark
        have hrun : 1 ≤ longestRun mark (c :: tail) := by
          rw [longestRun, longestRun.go, if_pos hmark.symm]
          exact le_longestRun_go mark tail 1
        omega
      · exact ih (by omega)

theorem three_le_longestRun (mark : Char) (cs : List Char) :
    3 ≤ longestRun mark (mark :: mark :: mark :: cs) := by
  simp only [longestRun, longestRun.go, if_true]
  exact le_longestRun_go mark cs 3

/-- A string in which no three marks stand in a row reads back as it is. -/
theorem readVerbatimLines_append {cs : List Char} (hrun : longestRun '\'' cs < 3)
    (hcontrol : cs.any isControl = false) {rest : List Char} (hrest : rest.head? ≠ some '\'') :
    readVerbatimLines (cs ++ '\'' :: '\'' :: '\'' :: rest) = some (cs, rest) := by
  induction cs with
  | nil => exact readVerbatimLines_close hrest (show 0 < 3 by omega)
  | cons c tail ih =>
      rw [List.any_cons, Bool.or_eq_false_iff] at hcontrol
      have htail := ih (Nat.lt_of_le_of_lt (longestRun_tail_le _ _ _) hrun) hcontrol.2
      by_cases hbreak : c = '\n'
      · rw [hbreak]
        exact readVerbatimLines_break htail
      · have hplain := isPlain_of_not_control hcontrol.1 hbreak
        by_cases hclose : c = '\'' ∧ ['\'', '\''] <+: tail ++ '\'' :: '\'' :: '\'' :: rest
        · obtain ⟨rfl, hmarks⟩ := hclose
          match tail, hmarks with
          | [], _ => exact readVerbatimLines_close hrest (show 1 < 3 by omega)
          | [next], hmarks =>
              rw [List.singleton_append, List.cons_prefix_cons] at hmarks
              rw [← hmarks.1]
              exact readVerbatimLines_close hrest (show 2 < 3 by omega)
          | next :: third :: more, hmarks =>
              rw [List.cons_append, List.cons_append, List.cons_prefix_cons,
                List.cons_prefix_cons] at hmarks
              rw [← hmarks.1, ← hmarks.2.1] at hrun
              exact absurd (three_le_longestRun '\'' more) (Nat.not_le.2 hrun)
        · exact readVerbatimLines_plain hplain (fun hmark h => hclose ⟨hmark, h⟩) htail

/-! ## All ways -/

/-- Between apostrophes on one line there is nothing that needs an escape, no apostrophe and no line
break. -/
theorem of_styleOf_eq_once {cs : List Char} (h : styleOf cs = .verbatim .once) :
    cs.any isControl = false ∧ '\'' ∉ cs ∧ '\n' ∉ cs := by
  simp only [styleOf] at h
  split_ifs at h with hcontrol hplain hbare hquotes hmarks
  · rw [Bool.and_eq_true, decide_eq_true_eq, Bool.not_eq_true'] at hbare
    refine ⟨Bool.eq_false_iff.2 hcontrol, not_mem_of_longestRun_eq_zero hbare.1, ?_⟩
    intro hbreak
    rw [List.contains_iff_mem.2 hbreak] at hbare
    cases hbare.2
  · cases h

/-- Between apostrophes on several lines there is nothing that needs an escape, and there are no
three apostrophes in a row. -/
theorem of_styleOf_eq_thrice {cs : List Char} (h : styleOf cs = .verbatim .thrice) :
    cs.any isControl = false ∧ longestRun '\'' cs < 3 := by
  simp only [styleOf] at h
  split_ifs at h with hcontrol hplain hbare hquotes hmarks
  · cases h
  · exact ⟨Bool.eq_false_iff.2 hcontrol, hmarks⟩

theorem afterBreak?_cons {c : Char} (hfeed : c ≠ '\n') (hreturn : c ≠ '\r') (rest : List Char) :
    afterBreak? (c :: rest) = none := by
  rw [afterBreak?]
  · exact fun _ h => hfeed (List.cons.inj h).1
  · exact fun _ h => hreturn (List.cons.inj h).1

/-- The line break that is written in front of a string with several lines does not count, and
nothing else at its front is taken for one. -/
theorem dropBreak_append {cs body : List Char} {mark : Char} (rest : List Char)
    (hmark : mark ≠ '\n' ∧ mark ≠ '\r')
    (hbody : ∀ c more, body = c :: more → '\n' ∉ cs → c ≠ '\n' ∧ c ≠ '\r') :
    dropBreak ((if cs.contains '\n' then ['\n'] else []) ++ (body ++ mark :: rest)) =
      body ++ mark :: rest := by
  by_cases hbreak : '\n' ∈ cs
  · rw [if_pos (List.contains_iff_mem.2 hbreak)]
    rfl
  · rw [if_neg (fun h => hbreak (List.contains_iff_mem.1 h)), List.nil_append, dropBreak]
    cases body with
    | nil =>
        rw [List.nil_append, afterBreak?_cons hmark.1 hmark.2]
        rfl
    | cons c more =>
        have hfirst := hbody c more rfl hbreak
        rw [List.cons_append, afterBreak?_cons hfirst.1 hfirst.2]
        rfl

theorem decode?_line {rest : List Char} {mark : Char} (h : ¬ [mark, mark] <+: rest) :
    decode? (mark :: rest) = decodeLine? (mark :: rest) := by
  have hother : ∀ more, rest ≠ mark :: mark :: more := by
    rintro more rfl
    exact h ⟨more, rfl⟩
  rw [decode?]
  · rintro more heq
    obtain ⟨rfl, hmore⟩ := List.cons.inj heq
    exact hother more hmore
  · rintro more heq
    obtain ⟨rfl, hmore⟩ := List.cons.inj heq
    exact hother more hmore

theorem not_two_of_head {mark : Char} {rest : List Char} (h : rest.head? ≠ some mark) :
    ¬ [mark, mark] <+: mark :: rest := by
  intro hmarks
  obtain ⟨more, hmore⟩ := (List.cons_prefix_cons.1 hmarks).2
  rw [← hmore] at h
  exact h rfl

/-- A quote that is written once is not the first of three. -/
theorem not_two_escapedBody (cs : List Char) {rest : List Char} (hrest : rest.head? ≠ some '"') :
    ¬ ['"', '"'] <+: escapedBody .once 0 cs ++ '"' :: rest := by
  cases cs with
  | nil => exact not_two_of_head hrest
  | cons c tail =>
      obtain ⟨first, more, hbody, hfirst⟩ := escapedBody_cons .once 0 c tail
      rw [hbody, List.cons_append, List.cons_prefix_cons]
      rintro ⟨rfl, -⟩
      rcases hfirst with hslash | ⟨hc, -, hmarks⟩
      · cases hslash
      · cases (hmarks hc.symm).1

/-- An apostrophe that is written once is not the first of three. -/
theorem not_two_verbatim {cs rest : List Char} (hmark : '\'' ∉ cs)
    (hrest : rest.head? ≠ some '\'') : ¬ ['\'', '\''] <+: cs ++ '\'' :: rest := by
  cases cs with
  | nil => exact not_two_of_head hrest
  | cons c tail =>
      rw [List.cons_append, List.cons_prefix_cons]
      rintro ⟨rfl, -⟩
      exact hmark List.mem_cons_self

/-- In a string without line feeds a character is no line break, unless it is a control character. -/
theorem ne_break_of_not_control {c : Char} {cs : List Char} (hcontrol : isControl c = false)
    (hmem : c ∈ cs) (hbreak : '\n' ∉ cs) : c ≠ '\n' ∧ c ≠ '\r' := by
  constructor
  · rintro rfl
    exact hbreak hmem
  · rintro rfl
    cases hcontrol

theorem head_escapedBody {c : Char} {cs more : List Char}
    (hbody : escapedBody .thrice 0 cs = c :: more) (hbreak : '\n' ∉ cs) :
    c ≠ '\n' ∧ c ≠ '\r' := by
  cases cs with
  | nil => cases hbody
  | cons head tail =>
      obtain ⟨first, others, hcons, hfirst⟩ := escapedBody_cons .thrice 0 head tail
      obtain ⟨rfl, -⟩ := List.cons.inj (hcons.symm.trans hbody)
      rcases hfirst with rfl | ⟨rfl, hescape, -⟩
      · decide
      · have hcontrol := (isControl_of_escape?_eq_none hescape).1
        exact ne_break_of_not_control hcontrol List.mem_cons_self hbreak

/-- Any string reads back from the front of a text that does not go on with a mark. -/
theorem decode?_encode_append (cs : List Char) {rest : List Char}
    (hquote : rest.head? ≠ some '"') (hmark : rest.head? ≠ some '\'') :
    decode? (encode cs ++ rest) = some (cs, rest) := by
  unfold encode
  cases hstyle : styleOf cs with
  | escaped marks =>
      cases marks with
      | once =>
          show decode? ('"' :: (escapedBody .once 0 cs ++ ['"'] ++ rest)) = _
          rw [List.append_assoc, List.singleton_append, decode?_line]
          · exact readLine_escapedBody cs rest 0
          · exact not_two_escapedBody cs hquote
      | thrice =>
          show decode? ('"' :: '"' :: '"' :: ((if cs.contains '\n' then ['\n'] else []) ++
            escapedBody .thrice 0 cs ++ ['"', '"', '"'] ++ rest)) = _
          rw [List.append_assoc, List.append_assoc, decode?]
          show readLines (dropBreak (_ ++ (_ ++ '"' :: '"' :: '"' :: rest))) = _
          rw [dropBreak_append _ (by decide)]
          · exact readLines_escapedBody (Nat.zero_le 2) cs hquote
          · exact fun _ _ => head_escapedBody
  | verbatim marks =>
      cases marks with
      | once =>
          obtain ⟨hcontrol, hapostrophe, hbreak⟩ := of_styleOf_eq_once hstyle
          show decode? ('\'' :: (cs ++ ['\''] ++ rest)) = _
          rw [List.append_assoc, List.singleton_append, decode?_line]
          · exact readVerbatim_append hapostrophe hbreak hcontrol rest
          · exact not_two_verbatim hapostrophe hmark
      | thrice =>
          obtain ⟨hcontrol, hrun⟩ := of_styleOf_eq_thrice hstyle
          show decode? ('\'' :: '\'' :: '\'' :: ((if cs.contains '\n' then ['\n'] else []) ++
            cs ++ ['\'', '\'', '\''] ++ rest)) = _
          rw [List.append_assoc, List.append_assoc, decode?]
          show readVerbatimLines (dropBreak (_ ++ (_ ++ '\'' :: '\'' :: '\'' :: rest))) = _
          rw [dropBreak_append _ (by decide)]
          · exact readVerbatimLines_append hrun hcontrol hmark
          · rintro c more rfl hbreak
            rw [List.any_cons, Bool.or_eq_false_iff] at hcontrol
            exact ne_break_of_not_control hcontrol.1 List.mem_cons_self hbreak

end Sweep.Toml.Quoted
