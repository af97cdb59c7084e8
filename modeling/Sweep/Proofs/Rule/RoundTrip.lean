import Mathlib
import Sweep.Command.Perform
import Sweep.Proofs.Rule.Grammar
import Sweep.Proofs.Text
/-!
# Writing rules and reading them back

A rule is *expressible* if the rule language can write it down: its patterns are words, and its
condition is a repeatedly negated question or a conjunction of several of them. Every rule has a
text, but only the expressible ones are read back from theirs; every rule that is read is one of
them.

The text of an expressible rule is made of the words of one of its derivations, the one that spells
out every vicinity. So what the grammar says about reading words applies to it.

## Main results

* `isExpressible_of_ofText` — what is read is expressible.
* `exists_line_of_isExpressible` — the text of an expressible rule comes from a derivation.
* `ofText_listText` — expressible rules, one on a line, are read back.
* `ofText_text_iff_isExpressible` — the rules that are read back are the expressible ones, and texts
  of rules settle after they have been written once.
-/

namespace Sweep

open Text

/-! ## What the rule language can express -/

/-- A question about a word, negated any number of times. -/
inductive Condition.IsChain : Condition → Prop where
  | present {vicinity : Vicinity} {pattern : Glob} (hword : IsWord pattern.source.toList) :
      IsChain (.present vicinity pattern)
  | negated {condition : Condition} (h : IsChain condition) : IsChain (.negated condition)

/-- A condition that the rule language can write down. -/
inductive Condition.IsExpressible : Condition → Prop where
  | single {condition : Condition} (h : condition.IsChain) : IsExpressible condition
  | several {conditions : List Condition} (hlength : 2 ≤ conditions.length)
      (h : ∀ condition ∈ conditions, condition.IsChain) : IsExpressible (.every conditions)

namespace Rule

/-- A rule that the rule language can write down. -/
structure IsExpressible (rule : Rule) : Prop where
  target : IsWord rule.target.source.toList
  condition : ∀ condition ∈ rule.condition, condition.IsExpressible

/-- Rules in the rule language, one on a line. -/
def listText (rules : List Rule) : String :=
  joinTexts "\n" (rules.map (·.text))

open Grammar

/-! ## What is read is expressible -/

theorem Grammar.Predicate.isChain {predicate : Predicate}
    (h : ∀ word ∈ predicate.words, IsWord word.toList) : predicate.condition.IsChain := by
  induction predicate with
  | negated inner ih =>
      have hinner := ih fun word hword => h word (List.mem_cons_of_mem _ hword)
      exact .negated hinner
  | question vicinity pattern =>
      have hpattern : pattern ∈ (Predicate.question vicinity pattern).words := by
        cases vicinity <;> simp [Predicate.words]
      exact .present (h pattern hpattern)

theorem Grammar.Clause.isExpressible {clause : Clause}
    (h : ∀ word ∈ clause.words, IsWord word.toList) : clause.condition.IsExpressible := by
  obtain ⟨first, others⟩ := clause
  have hfirst : first.condition.IsChain := by
    apply Predicate.isChain
    intro word hword
    exact h word (List.mem_append_left _ hword)
  have hothers : ∀ other ∈ others, other.condition.IsChain := by
    intro other hother
    apply Predicate.isChain
    intro word hword
    apply h word
    simp only [Clause.words, List.mem_append, List.mem_flatMap, List.mem_cons]
    exact Or.inr ⟨other, hother, Or.inr hword⟩
  cases others with
  | nil => exact .single hfirst
  | cons next others =>
      apply Condition.IsExpressible.several
      · simp
      · intro condition hcondition
        rcases List.mem_cons.1 hcondition with rfl | hcondition
        · exact hfirst
        · obtain ⟨other, hother, rfl⟩ := List.mem_map.1 hcondition
          exact hothers other hother

theorem Grammar.Line.isExpressible {line : Line}
    (h : ∀ word ∈ line.words, IsWord word.toList) : line.rule.IsExpressible := by
  obtain ⟨target, clause⟩ := line
  constructor
  · exact h target (by simp [Line.words])
  · intro condition hcondition
    cases clause with
    | none => cases hcondition
    | some clause =>
        cases hcondition
        apply Clause.isExpressible
        intro word hword
        exact h word (by simp [Line.words, hword])

theorem isWord_of_mem_wordsOfLine {line word : List Char} (h : word ∈ wordsOfLine line) :
    IsWord word := by
  unfold wordsOfLine at h
  simp only at h
  split at h
  · cases h
  · exact forall_mem_words (trim line) word h

theorem isExpressible_of_ofLines {number : Nat} {lines : List (List Char)} {rules : List Rule}
    (h : ofLines number lines = .ok rules) : ∀ rule ∈ rules, rule.IsExpressible := by
  induction lines generalizing number rules with
  | nil =>
      cases h
      simp
  | cons line rest ih =>
      rw [ofLines] at h
      cases hline : ofTokens? ((wordsOfLine line).map String.ofList) with
      | error fault => simp [hline] at h
      | ok found =>
          simp only [hline] at h
          cases found with
          | none => exact ih h
          | some rule =>
              cases hrest : ofLines (number + 1) rest with
              | error fault => simp [hrest, Except.map] at h
              | ok others =>
                  rw [hrest] at h
                  cases h
                  obtain ⟨derivation, hwords, rfl⟩ := ofTokens?_eq_some_iff.1 hline
                  have hfirst : derivation.rule.IsExpressible := by
                    apply Line.isExpressible
                    intro word hword
                    rw [hwords] at hword
                    obtain ⟨cs, hcs, rfl⟩ := List.mem_map.1 hword
                    simpa using isWord_of_mem_wordsOfLine hcs
                  intro rule hrule
                  rcases List.mem_cons.1 hrule with rfl | hrule
                  · exact hfirst
                  · exact ih hrest rule hrule

/-- What is read is expressible. -/
theorem isExpressible_of_ofText {text : String} {rules : List Rule} (h : ofText text = .ok rules) :
    ∀ rule ∈ rules, rule.IsExpressible :=
  isExpressible_of_ofLines h

/-! ## The words of a text -/

theorem Grammar.Predicate.words_ne_nil (predicate : Predicate) : predicate.words ≠ [] := by
  cases predicate with
  | negated inner => simp [words]
  | question vicinity pattern => cases vicinity <;> simp [words]

theorem isWord_vicinity (vicinity : Vicinity) : IsWord vicinity.word.toList := by
  cases vicinity <;> decide

/-- The text of a negated question is made of the words of a predicate. -/
theorem exists_predicate_of_isChain {condition : Condition} (h : condition.IsChain) :
    ∃ predicate : Predicate, predicate.condition = condition ∧
      (∀ word ∈ predicate.words, IsWord word.toList) ∧
      condition.text = joinTexts " " predicate.words := by
  induction h with
  | @present vicinity pattern hword =>
      refine ⟨.question (some vicinity) pattern.source, rfl, ?_, ?_⟩
      · simp only [Predicate.words, List.forall_mem_cons]
        exact ⟨isWord_vicinity vicinity, by decide, hword, by simp⟩
      · have hexists : " exists " = " " ++ "exists" ++ " " := rfl
        simp only [Condition.text, Predicate.words, joinTexts, hexists, String.append_assoc]
  | @negated condition h ih =>
      obtain ⟨inner, hcondition, hwords, htext⟩ := ih
      refine ⟨.negated inner, congrArg Condition.negated hcondition, ?_, ?_⟩
      · simp only [Predicate.words, List.forall_mem_cons]
        exact ⟨by decide, hwords⟩
      · rw [Condition.text, htext, Predicate.words, joinTexts_cons " " "not" inner.words_ne_nil]
        rfl

/-- The text of a conjunction is made of the words of a clause. -/
theorem exists_clause_of_isChain {first : Condition} {others : List Condition}
    (hfirst : first.IsChain) (hothers : ∀ other ∈ others, other.IsChain) :
    ∃ clause : Clause, clause.conditions = first :: others ∧
      (∀ word ∈ clause.words, IsWord word.toList) ∧
      joinTexts " and " (conditionTexts (first :: others)) = joinTexts " " clause.words := by
  induction others generalizing first with
  | nil =>
      obtain ⟨predicate, rfl, hwords, htext⟩ := exists_predicate_of_isChain hfirst
      have hall : (Clause.mk predicate []).words = predicate.words := List.append_nil _
      exact ⟨⟨predicate, []⟩, rfl, hall ▸ hwords, hall ▸ htext⟩
  | cons next others ih =>
      obtain ⟨predicate, rfl, hwords, htext⟩ := exists_predicate_of_isChain hfirst
      obtain ⟨⟨second, more⟩, hmore, hrest, hrestText⟩ := ih (hothers next List.mem_cons_self)
        fun other hother => hothers other (List.mem_cons_of_mem _ hother)
      have hall : (Clause.mk predicate (second :: more)).words =
          predicate.words ++ ["and"] ++ (Clause.mk second more).words := by
        simp [Clause.words]
      refine ⟨⟨predicate, second :: more⟩, congrArg (predicate.condition :: ·) hmore, ?_, ?_⟩
      · intro word hword
        rw [hall, List.mem_append, List.mem_append, List.mem_singleton] at hword
        rcases hword with (hword | rfl) | hword
        · exact hwords word hword
        · decide
        · exact hrest word hword
      · have hsecond : (Clause.mk second more).words ≠ [] := by
          simp [Clause.words, second.words_ne_nil]
        have hand : " and " = " " ++ "and" ++ " " := rfl
        rw [hall, joinTexts_append " " (by simp) hsecond,
          joinTexts_append " " predicate.words_ne_nil (by simp), ← hrestText, ← htext]
        simp only [conditionTexts, joinTexts, hand, String.append_assoc]

theorem exists_clause_of_isExpressible {condition : Condition} (h : condition.IsExpressible) :
    ∃ clause : Clause, clause.condition = condition ∧
      (∀ word ∈ clause.words, IsWord word.toList) ∧
      condition.text = joinTexts " " clause.words := by
  cases h with
  | single h =>
      have hnone : ∀ other ∈ ([] : List Condition), other.IsChain := by simp
      obtain ⟨clause, hconditions, hwords, htext⟩ := exists_clause_of_isChain h hnone
      refine ⟨clause, ?_, hwords, htext⟩
      rw [← conjunction_conditions, hconditions]
      rfl
  | @several conditions hlength h =>
      cases conditions with
      | nil => simp at hlength
      | cons first others =>
          obtain ⟨clause, hconditions, hwords, htext⟩ :=
            exists_clause_of_isChain (h first List.mem_cons_self)
              fun other hother => h other (List.mem_cons_of_mem _ hother)
          refine ⟨clause, ?_, hwords, htext⟩
          rw [← conjunction_conditions, hconditions]
          cases others with
          | nil => simp at hlength
          | cons second others => rfl

/-- The text of an expressible rule is made of the words of one of its derivations. -/
theorem exists_line_of_isExpressible {rule : Rule} (h : rule.IsExpressible) :
    ∃ line : Line, line.rule = rule ∧ (∀ word ∈ line.words, IsWord word.toList) ∧
      rule.text = joinTexts " " line.words := by
  obtain ⟨action, target, condition⟩ := rule
  cases action
  obtain ⟨htarget, hcondition⟩ := h
  cases condition with
  | none =>
      refine ⟨⟨target.source, none⟩, rfl, ?_, ?_⟩
      · simp only [Line.words, List.forall_mem_cons]
        exact ⟨by decide, htarget, by simp⟩
      · simp [Rule.text, Action.word, Line.words, joinTexts]
  | some condition =>
      obtain ⟨clause, rfl, hwords, htext⟩ := exists_clause_of_isExpressible (hcondition condition rfl)
      have hclause : clause.words ≠ [] := by simp [Clause.words, clause.first.words_ne_nil]
      refine ⟨⟨target.source, some clause⟩, rfl, ?_, ?_⟩
      · simp only [Line.words, List.forall_mem_cons]
        exact ⟨by decide, htarget, by decide, hwords⟩
      · have hwhen : " when " = " " ++ "when" ++ " " := rfl
        simp only [Rule.text, Action.word, Line.words, joinTexts, joinTexts_cons " " "when" hclause,
          htext, hwhen, String.append_assoc]

/-! ## Texts are read back -/

theorem Grammar.Line.wordsOfLine_joinTexts {line : Line}
    (h : ∀ word ∈ line.words, IsWord word.toList) :
    (wordsOfLine (joinTexts " " line.words).toList).map String.ofList = line.words := by
  have hwords : ∀ word ∈ line.words.map (·.toList), IsWord word := by
    intro word hword
    obtain ⟨text, htext, rfl⟩ := List.mem_map.1 hword
    exact h text htext
  have hhead : (join [' '] (line.words.map (·.toList))).head? = some 'd' := by
    obtain ⟨back, hback⟩ := exists_join_cons [' '] "delete".toList (line.words.tail.map (·.toList))
    exact (congrArg List.head? hback).trans rfl
  have hblank : " ".toList = [' '] := rfl
  have hcomment : some 'd' ≠ some '#' := by decide
  rw [toList_joinTexts, hblank, wordsOfLine]
  simp only [trim_join hwords, hhead, if_neg hcomment, words_join hwords, List.map_map]
  simp

/-- An expressible rule is read back from its text, and its text is a line. -/
theorem ofTokens?_text {rule : Rule} (h : rule.IsExpressible) :
    ofTokens? ((wordsOfLine rule.text.toList).map String.ofList) = .ok (some rule) ∧
      IsLine rule.text.toList := by
  obtain ⟨line, rfl, hwords, htext⟩ := exists_line_of_isExpressible h
  constructor
  · rw [htext, line.wordsOfLine_joinTexts hwords, ofTokens?_eq_some_iff]
    exact ⟨line, rfl, rfl⟩
  · rw [htext, toList_joinTexts]
    apply isLine_join
    · intro word hword
      obtain ⟨text, hmem, rfl⟩ := List.mem_map.1 hword
      exact hwords text hmem
    · simp [Line.words]

theorem ofLines_text {rules : List Rule} (h : ∀ rule ∈ rules, rule.IsExpressible) (number : Nat) :
    ofLines number (rules.map (·.text.toList)) = .ok rules := by
  induction rules generalizing number with
  | nil => rfl
  | cons rule rest ih =>
      have hfirst := (ofTokens?_text (h rule List.mem_cons_self)).1
      have hrest := ih (fun other hother => h other (List.mem_cons_of_mem _ hother)) (number + 1)
      simp only [List.map_cons, ofLines, hfirst, hrest]
      rfl

theorem isLine_text {rules : List Rule} (h : ∀ rule ∈ rules, rule.IsExpressible) :
    ∀ line ∈ rules.map (·.text.toList), IsLine line := by
  intro line hline
  obtain ⟨rule, hrule, rfl⟩ := List.mem_map.1 hline
  exact (ofTokens?_text (h rule hrule)).2

/-- Expressible rules are read back, one on a line. -/
theorem ofText_listText {rules : List Rule} (h : ∀ rule ∈ rules, rule.IsExpressible) :
    ofText (listText rules) = .ok rules := by
  have hlines : lines (listText rules).toList = rules.map (·.text.toList) := by
    rw [listText, toList_joinTexts, List.map_map]
    exact lines_join (isLine_text h)
  rw [ofText, hlines, ofLines_text h]

/-- So they are when each line is ended. -/
theorem ofText_ofLines {rules : List Rule} (h : ∀ rule ∈ rules, rule.IsExpressible) :
    ofText (Screen.ofLines (rules.map (·.text))) = .ok rules := by
  have hlines : lines (Screen.ofLines (rules.map (·.text))).toList =
      rules.map (·.text.toList) := by
    have hended : (Screen.ofLines (rules.map (·.text))).toList =
        (rules.map (·.text.toList)).flatMap (· ++ ['\n']) := by
      simp [Screen.ofLines, String.toList_join, List.flatMap_def, Function.comp_def]
    rw [hended, lines_flatMap (isLine_text h)]
  rw [ofText, hlines, ofLines_text h]

/-- What `check` writes for programs, or when it is to be quiet, is read back. -/
theorem ofText_checked {view : View} {rules : List Rule}
    (hquiet : view.format = .quiet ∨ view.format = .human ∧ view.quiet = true)
    (h : ∀ rule ∈ rules, rule.IsExpressible) (file : Path) :
    ofText (checked view file rules) = .ok rules := by
  have hchecked : checked view file rules = Screen.ofLines (rules.map (·.text)) := by
    rcases hquiet with hformat | ⟨hformat, hview⟩
    · simp [checked, hformat]
    · simp [checked, hformat, hview]
  rw [hchecked, ofText_ofLines h]

/-- A rule is read back from its text exactly if it is expressible. Whatever text is read, its rules
are expressible: written again one on a line, or by a quiet `check`, they are read back, and from
then on the text stays the same. -/
theorem ofText_text_iff_isExpressible :
    (∀ rule : Rule, ofText rule.text = .ok [rule] ↔ rule.IsExpressible) ∧
      ∀ (text : String) (rules : List Rule), ofText text = .ok rules →
        (∀ rule ∈ rules, rule.IsExpressible) ∧
        ofText (listText rules) = .ok rules ∧
        (ofText (listText rules)).map listText = .ok (listText rules) ∧
        ∀ (view : View) (file : Path),
          view.format = .quiet ∨ view.format = .human ∧ view.quiet = true →
            ofText (checked view file rules) = .ok rules := by
  constructor
  · intro rule
    constructor
    · intro h
      exact isExpressible_of_ofText h rule List.mem_cons_self
    · intro h
      have hone : ∀ other ∈ [rule], other.IsExpressible := by simpa using h
      have hback := ofText_listText hone
      exact hback
  · intro text rules h
    have hrules := isExpressible_of_ofText h
    have hback := ofText_listText hrules
    refine ⟨hrules, hback, ?_, fun view file hquiet => ofText_checked hquiet hrules file⟩
    rw [hback]
    rfl

/-- A text with a comment, odd blanks and a vicinity left out: its rules are read back from
`delete x when not here exists #`. -/
theorem ofText_text_of_spaced :
    ofText "# tidy\n\tdelete  x when not exists #\r\n" =
        .ok [⟨.delete, ⟨"x"⟩, some (.negated (.present .here ⟨"#"⟩))⟩] ∧
      ofText (listText [⟨.delete, ⟨"x"⟩, some (.negated (.present .here ⟨"#"⟩))⟩]) =
        .ok [⟨.delete, ⟨"x"⟩, some (.negated (.present .here ⟨"#"⟩))⟩] := by
  have hread : ofText "# tidy\n\tdelete  x when not exists #\r\n" =
      .ok [⟨.delete, ⟨"x"⟩, some (.negated (.present .here ⟨"#"⟩))⟩] := by
    cbv
  obtain ⟨-, hwritten, -⟩ := ofText_text_iff_isExpressible.2 _ _ hread
  exact ⟨hread, hwritten⟩

end Rule

end Sweep
