import Sweep.Rule.Reader
/-!
# The grammar of the rule language

    line       =  "delete" TARGET ["when" clause]
    clause     =  predicate {"and" predicate}
    predicate  =  "not" predicate  |  [VICINITY] "exists" PATTERN

`Predicate`, `Clause` and `Line` are the derivations of this grammar. A derivation has the words that
it derives, and the condition or rule that it means. Targets and patterns are any words, keywords
included; still no words have two derivations, because the words of a predicate are never the
beginning of those of another one.

## Main results

* `Grammar.Predicate.words_append_inj` — where a predicate ends does not depend on what follows.
* `ofPredicate_words`, `exists_of_ofPredicate` — reading a predicate undoes its derivation.
* `ofTokens?_reads_grammar` — the reader accepts the grammar, and nothing else.
-/

namespace Sweep

theorem Vicinity.word_of_ofWord? {word : String} {vicinity : Vicinity}
    (h : ofWord? word = some vicinity) : word = vicinity.word := by
  have hfound := List.find?_some h
  simp only [decide_eq_true_eq] at hfound
  exact hfound.symm

theorem Vicinity.word_injective {a b : Vicinity} (h : a.word = b.word) : a = b := by
  have hread := ofWord?_word a
  rw [h, ofWord?_word b] at hread
  exact (Option.some.inj hread).symm

theorem Vicinity.word_ne_not (vicinity : Vicinity) : vicinity.word ≠ "not" := by
  cases vicinity <;> decide

theorem Vicinity.word_ne_exists (vicinity : Vicinity) : vicinity.word ≠ "exists" := by
  cases vicinity <;> decide

theorem Action.eq_delete_of_ofWord? {word : String} {action : Action}
    (h : ofWord? word = some action) : word = "delete" ∧ action = .delete := by
  unfold ofWord? at h
  split at h
  · exact ⟨by assumption, (Option.some.inj h).symm⟩
  · cases h

namespace Rule

/-! ## Derivations -/

namespace Grammar

/-- How a predicate is derived. -/
inductive Predicate where
  /-- By `not` in front of a predicate. -/
  | negated (inner : Predicate)
  /-- As a question, whose vicinity may be left out. -/
  | question (vicinity : Option Vicinity) (pattern : String)
deriving DecidableEq, Repr

/-- The words that a predicate is written with. -/
def Predicate.words : Predicate → List String
  | negated inner => "not" :: inner.words
  | question none pattern => ["exists", pattern]
  | question (some vicinity) pattern => [vicinity.word, "exists", pattern]

/-- What a predicate means. `not` is about the predicate right after it, and a question without a
vicinity is about the directory itself. -/
def Predicate.condition : Predicate → Condition
  | negated inner => .negated inner.condition
  | question vicinity pattern => .present (vicinity.getD .here) ⟨pattern⟩

/-- How what stands after `when` is derived. -/
structure Clause where
  first : Predicate
  /-- The predicates that follow, each after an `and`. -/
  others : List Predicate
deriving DecidableEq, Repr

def Clause.words (clause : Clause) : List String :=
  clause.first.words ++ clause.others.flatMap fun predicate => "and" :: predicate.words

/-- What a clause means: a single predicate by itself, or one conjunction of all of them. -/
def Clause.condition (clause : Clause) : Condition :=
  match clause.others with
  | [] => clause.first.condition
  | others => .every (clause.first.condition :: others.map (·.condition))

/-- How a rule is derived. -/
structure Line where
  target : String
  clause : Option Clause
deriving DecidableEq, Repr

def Line.words (line : Line) : List String :=
  "delete" :: line.target :: match line.clause with
    | none => []
    | some clause => "when" :: clause.words

/-- The rule that a line means. -/
def Line.rule (line : Line) : Rule :=
  ⟨.delete, ⟨line.target⟩, line.clause.map (·.condition)⟩

/-! ## Derivations are unique -/

/-- Where a predicate ends does not depend on what follows. -/
theorem Predicate.words_append_inj {a b : Predicate} {rest more : List String}
    (h : a.words ++ rest = b.words ++ more) : a = b ∧ rest = more := by
  induction a generalizing b with
  | negated inner ih =>
      cases b with
      | negated other =>
          simp only [words, List.cons_append, List.cons.injEq, true_and] at h
          have hinner := ih h
          exact ⟨congrArg negated hinner.1, hinner.2⟩
      | question vicinity pattern =>
          have hfirst := congrArg List.head? h
          cases vicinity with
          | none => simp [words] at hfirst
          | some vicinity => exact absurd (by simpa [words] using hfirst.symm) vicinity.word_ne_not
  | question vicinity pattern =>
      cases b with
      | negated other =>
          have hfirst := congrArg List.head? h
          cases vicinity with
          | none => simp [words] at hfirst
          | some vicinity => exact absurd (by simpa [words] using hfirst) vicinity.word_ne_not
      | question other text =>
          cases vicinity with
          | none =>
              cases other with
              | none => simpa [words] using h
              | some other =>
                  have hfirst := congrArg List.head? h
                  exact absurd (by simpa [words] using hfirst.symm) other.word_ne_exists
          | some vicinity =>
              cases other with
              | none =>
                  have hfirst := congrArg List.head? h
                  exact absurd (by simpa [words] using hfirst) vicinity.word_ne_exists
              | some other =>
                  simp only [words, List.cons_append, List.nil_append, List.cons.injEq,
                    true_and] at h
                  obtain ⟨hword, hpattern, hrest⟩ := h
                  rw [Vicinity.word_injective hword, hpattern]
                  exact ⟨rfl, hrest⟩

theorem Clause.words_injective {a b : Clause} (h : a.words = b.words) : a = b := by
  obtain ⟨first, others⟩ := a
  obtain ⟨second, more⟩ := b
  simp only [words] at h
  have hfirst := Predicate.words_append_inj h
  obtain ⟨rfl, hothers⟩ := hfirst
  suffices others = more by rw [this]
  clear h
  induction others generalizing more with
  | nil =>
      cases more with
      | nil => rfl
      | cons predicate more => simp at hothers
  | cons predicate others ih =>
      cases more with
      | nil => simp at hothers
      | cons other more =>
          simp only [List.flatMap_cons, List.cons_append, List.cons.injEq, true_and] at hothers
          have hnext := Predicate.words_append_inj hothers
          rw [hnext.1, ih more hnext.2]

theorem Line.words_injective {a b : Line} (h : a.words = b.words) : a = b := by
  obtain ⟨target, clause⟩ := a
  obtain ⟨other, more⟩ := b
  simp only [words, List.cons.injEq, true_and] at h
  obtain ⟨rfl, hclause⟩ := h
  cases clause with
  | none =>
      cases more with
      | none => rfl
      | some more => simp at hclause
  | some clause =>
      cases more with
      | none => simp at hclause
      | some more =>
          simp only [List.cons.injEq, true_and] at hclause
          rw [Clause.words_injective hclause]

end Grammar

open Grammar

/-! ## Predicates are read -/

theorem ofPredicate_not (words : List String) :
    ofPredicate ("not" :: words) =
      (ofPredicate words).map fun (condition, left) => (.negated condition, left) := by
  rw [ofPredicate, if_pos rfl]
  cases ofPredicate words <;> rfl

theorem ofPredicate_exists (words : List String) :
    ofPredicate ("exists" :: words) = ofPattern .here words := by
  rw [ofPredicate, if_neg (by decide), if_pos rfl]

theorem ofPredicate_vicinity (vicinity : Vicinity) (words : List String) :
    ofPredicate (vicinity.word :: "exists" :: words) = ofPattern vicinity words := by
  rw [ofPredicate, if_neg vicinity.word_ne_not, if_neg vicinity.word_ne_exists,
    Vicinity.ofWord?_word]
  simp

/-- A predicate is read off the front of any words that begin with it. -/
theorem ofPredicate_words (predicate : Predicate) (rest : List String) :
    ofPredicate (predicate.words ++ rest) = .ok (predicate.condition, rest) := by
  induction predicate with
  | negated inner ih =>
      rw [Predicate.words, List.cons_append, ofPredicate_not, ih]
      rfl
  | question vicinity pattern =>
      cases vicinity with
      | none => exact ofPredicate_exists (pattern :: rest)
      | some vicinity => exact ofPredicate_vicinity vicinity (pattern :: rest)

theorem eq_of_ofPattern {vicinity : Vicinity} {words left : List String} {condition : Condition}
    (h : ofPattern vicinity words = .ok (condition, left)) :
    ∃ pattern, words = pattern :: left ∧ condition = .present vicinity ⟨pattern⟩ := by
  cases words with
  | nil => cases h
  | cons pattern rest =>
      simp only [ofPattern, Except.ok.injEq, Prod.mk.injEq] at h
      exact ⟨pattern, by rw [h.2], h.1.symm⟩

/-- What is read as a predicate is the words of one. -/
theorem exists_of_ofPredicate {words left : List String} {condition : Condition}
    (h : ofPredicate words = .ok (condition, left)) :
    ∃ predicate : Predicate, words = predicate.words ++ left ∧ predicate.condition = condition := by
  induction words generalizing condition left with
  | nil => cases h
  | cons word rest ih =>
      by_cases hnot : word = "not"
      · subst hnot
        rw [ofPredicate_not] at h
        cases hrest : ofPredicate rest with
        | error fault =>
            rw [hrest] at h
            cases h
        | ok found =>
            obtain ⟨inner, kept⟩ := found
            rw [hrest] at h
            cases h
            obtain ⟨predicate, hwords, hcondition⟩ := ih hrest
            exact ⟨.negated predicate, by rw [hwords]; rfl, by rw [← hcondition]; rfl⟩
      · by_cases hexists : word = "exists"
        · subst hexists
          rw [ofPredicate_exists] at h
          obtain ⟨pattern, hwords, hcondition⟩ := eq_of_ofPattern h
          exact ⟨.question none pattern, by rw [hwords]; rfl, hcondition.symm⟩
        · rw [ofPredicate, if_neg hnot, if_neg hexists] at h
          cases hvicinity : Vicinity.ofWord? word with
          | none => simp [hvicinity] at h
          | some vicinity =>
              simp only [hvicinity] at h
              cases rest with
              | nil => cases h
              | cons next rest =>
                  by_cases hnext : next = "exists"
                  · simp only [if_pos hnext] at h
                    obtain ⟨pattern, hwords, hcondition⟩ := eq_of_ofPattern h
                    refine ⟨.question (some vicinity) pattern, ?_, hcondition.symm⟩
                    rw [hwords, hnext, Vicinity.word_of_ofWord? hvicinity]
                    rfl
                  · simp [if_neg hnext] at h

/-! ## Clauses are read -/

/-- What the predicates of a clause mean, in order. -/
def Grammar.Clause.conditions (clause : Clause) : List Condition :=
  clause.first.condition :: clause.others.map (·.condition)

theorem conjunction_conditions (clause : Clause) :
    conjunction clause.conditions = clause.condition := by
  obtain ⟨first, others⟩ := clause
  cases others <;> rfl

theorem ofPredicates_words (clause : Clause) :
    ofPredicates clause.words = .ok clause.conditions := by
  obtain ⟨first, others⟩ := clause
  induction others generalizing first with
  | nil =>
      have hfirst := ofPredicate_words first []
      rw [ofPredicates]
      simp only [Clause.words]
      split
      · simp_all
      · rename_i condition hread
        cases hread.symm.trans hfirst
        rfl
      · rename_i condition word rest hread
        cases hread.symm.trans hfirst
  | cons next others ih =>
      have hfirst := ofPredicate_words first ("and" :: (Clause.mk next others).words)
      have hwords : (Clause.mk first (next :: others)).words =
          first.words ++ "and" :: (Clause.mk next others).words := by
        simp [Clause.words]
      rw [hwords, ofPredicates]
      split
      · simp_all
      · rename_i condition hread
        cases hread.symm.trans hfirst
      · rename_i condition word rest hread
        cases hread.symm.trans hfirst
        rw [if_pos rfl, ih]
        rfl

theorem exists_of_ofPredicates {words : List String} {conditions : List Condition}
    (h : ofPredicates words = .ok conditions) :
    ∃ clause : Clause, clause.words = words ∧ clause.conditions = conditions := by
  fun_induction ofPredicates words generalizing conditions with
  | case1 words fault hread => cases h
  | case2 words condition hread =>
      cases h
      obtain ⟨predicate, hwords, hcondition⟩ := exists_of_ofPredicate hread
      refine ⟨⟨predicate, []⟩, ?_, ?_⟩
      · rw [hwords]
        rfl
      · rw [← hcondition]
        rfl
  | case3 words condition rest fault hrest hread ih => cases h
  | case4 words condition rest others hrest hread ih =>
      cases h
      obtain ⟨predicate, hwords, hcondition⟩ := exists_of_ofPredicate hread
      obtain ⟨⟨next, more⟩, hmore, hothers⟩ := ih hrest
      refine ⟨⟨predicate, next :: more⟩, ?_, ?_⟩
      · rw [hwords, ← hmore]
        simp [Clause.words]
      · rw [← hcondition, ← hothers]
        rfl
  | case5 words condition word rest hread hword => cases h

theorem ofCondition_eq_ok_iff {words : List String} {condition : Condition} :
    ofCondition words = .ok condition ↔
      ∃ clause : Clause, clause.words = words ∧ clause.condition = condition := by
  constructor
  · intro h
    cases hread : ofPredicates words with
    | error fault => simp [ofCondition, hread, Except.map] at h
    | ok conditions =>
        obtain ⟨clause, hwords, hconditions⟩ := exists_of_ofPredicates hread
        refine ⟨clause, hwords, ?_⟩
        simp only [ofCondition, hread, Except.map, Except.ok.injEq] at h
        rw [← h, ← hconditions, conjunction_conditions]
  · intro h
    obtain ⟨clause, hwords, hcondition⟩ := h
    rw [ofCondition, ← hwords, ofPredicates_words, ← hcondition, ← conjunction_conditions]
    rfl

/-! ## Lines are read -/

/-- A rule is read from the words of the lines that mean it. -/
theorem ofTokens?_eq_some_iff {words : List String} {rule : Rule} :
    ofTokens? words = .ok (some rule) ↔ ∃ line : Line, line.words = words ∧ line.rule = rule := by
  constructor
  · intro h
    cases words with
    | nil => cases h
    | cons word rest =>
        cases haction : Action.ofWord? word with
        | none => simp [ofTokens?, haction] at h
        | some action =>
            obtain ⟨rfl, rfl⟩ := Action.eq_delete_of_ofWord? haction
            simp only [ofTokens?, haction] at h
            cases rest with
            | nil => cases h
            | cons target rest =>
                cases rest with
                | nil =>
                    cases h
                    exact ⟨⟨target, none⟩, rfl, rfl⟩
                | cons next rest =>
                    by_cases hwhen : next = "when"
                    · simp only [if_pos hwhen] at h
                      cases hread : ofCondition rest with
                      | error fault => simp [hread, Except.map] at h
                      | ok condition =>
                          simp only [hread, Except.map, Except.ok.injEq, Option.some.injEq] at h
                          obtain ⟨clause, hwords, hcondition⟩ := ofCondition_eq_ok_iff.1 hread
                          refine ⟨⟨target, some clause⟩, ?_, ?_⟩
                          · rw [hwhen, ← hwords]
                            rfl
                          · rw [← h, ← hcondition]
                            rfl
                    · simp [if_neg hwhen] at h
  · intro h
    obtain ⟨⟨target, clause⟩, rfl, rfl⟩ := h
    cases clause with
    | none => rfl
    | some clause =>
        have hread := ofCondition_eq_ok_iff.2 ⟨clause, rfl, rfl⟩
        have haction := Action.ofWord?_word .delete
        rw [Action.word] at haction
        simp only [Line.words, ofTokens?, haction, if_true, hread]
        rfl

/-- Only a line without words holds no rule. -/
theorem ofTokens?_eq_none_iff {words : List String} : ofTokens? words = .ok none ↔ words = [] := by
  constructor
  · intro h
    cases words with
    | nil => rfl
    | cons word rest =>
        simp only [ofTokens?] at h
        split at h
        · cases h
        · split at h
          · cases h
          · cases h
          · split at h
            · rename_i rest _
              cases hread : ofCondition rest <;> simp [hread, Except.map] at h
            · cases h
  · intro h
    rw [h]
    rfl

/-- The reader accepts the words of the grammar and nothing else. No words have two derivations, and
the rule that is read is the one that the derivation means. A line without words holds no rule. -/
theorem ofTokens?_reads_grammar :
    Function.Injective Line.words ∧
      ∀ (words : List String) (found : Option Rule), ofTokens? words = .ok found ↔
        words = [] ∧ found = none ∨
          ∃ line : Line, line.words = words ∧ found = some line.rule := by
  refine ⟨fun a b => Line.words_injective, fun words found => ?_⟩
  cases found with
  | none => simp [ofTokens?_eq_none_iff]
  | some rule =>
      rw [ofTokens?_eq_some_iff]
      simp [eq_comm]

/-- Keywords can be targets and patterns. -/
example : ofTokens? ["delete", "when", "when", "exists", "and", "and", "not", "exists", "exists"] =
    .ok (some ⟨.delete, ⟨"when"⟩,
      some (.every [.present .here ⟨"and"⟩, .negated (.present .here ⟨"exists"⟩)])⟩) := by
  cbv

end Rule

end Sweep
