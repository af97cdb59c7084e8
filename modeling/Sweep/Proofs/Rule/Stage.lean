import Sweep.Proofs.Rule.Grammar
/-!
# Reading a line stage by stage

What may stand next on a line depends on little of what stands before: on a `Stage`. Reading stage by
stage does what reading by the grammar does, as far as faults go. So a line is at fault either at a
word which the stage before it does not take, or at its end, when the stage there may not be the last.

## Main results

* `map_ofTokens?` — reading a line fails as reading it stage by stage does.
* `ofTokens?_eq_error_at_word_iff`, `ofTokens?_eq_error_at_end_iff` — where a line is at fault.
-/

namespace Sweep.Rule

/-! ## Stages -/

/-- What may stand next on a line. -/
inductive Stage where
  | action
  | target (action : Action)
  /-- The condition, or nothing. -/
  | afterTarget
  | predicate
  /-- The question about a vicinity that has been named. -/
  | existence (vicinity : Vicinity)
  | pattern
  /-- A further predicate, or nothing. -/
  | afterPredicate
deriving DecidableEq, Repr

namespace Stage

/-- Goes on by one word. -/
def step : Stage → String → Except LineFault Stage
  | action, word =>
    match Action.ofWord? word with
    | none => .error (.unknownAction word)
    | some verb => .ok (target verb)
  | target _, _ => .ok afterTarget
  | afterTarget, word =>
    if word = "when" then .ok predicate else .error (.unexpectedWord .whenOrEnd word)
  | predicate, word =>
    if word = "not" then .ok predicate
    else if word = "exists" then .ok pattern
    else match Vicinity.ofWord? word with
      | none => .error (.unexpectedWord .predicate word)
      | some vicinity => .ok (existence vicinity)
  | existence _, word =>
    if word = "exists" then .ok pattern else .error (.unexpectedWord .existence word)
  | pattern, _ => .ok afterPredicate
  | afterPredicate, word =>
    if word = "and" then .ok predicate else .error (.unexpectedWord .andOrEnd word)

/-- What is wrong with a line that ends at a stage. A line without words is not at fault. -/
def atEnd : Stage → Except LineFault Unit
  | target verb => .error (.missingTarget verb.word)
  | predicate => .error (.unexpectedEnd .condition)
  | existence vicinity => .error (.unexpectedEnd (.existenceAfter vicinity))
  | pattern => .error .missingPattern
  | _ => .ok ()

/-- Goes on by some words. -/
def read (stage : Stage) (words : List String) : Except LineFault Stage :=
  words.foldlM step stage

/-- Goes on to the end of a line. -/
def check (stage : Stage) (words : List String) : Except LineFault Unit :=
  (stage.read words).bind atEnd

/-- Whether any word may stand next. -/
def takesAny : Stage → Bool
  | target _ => true
  | pattern => true
  | _ => false

/-- Some words that bring a line to the end of a rule. -/
def completion : Stage → List String
  | action => ["delete", "*"]
  | target _ => ["*"]
  | predicate => ["exists", "*"]
  | existence _ => ["exists", "*"]
  | pattern => ["*"]
  | _ => []

theorem read_nil (stage : Stage) : stage.read [] = .ok stage := rfl

theorem read_cons (stage : Stage) (word : String) (rest : List String) :
    stage.read (word :: rest) = (stage.step word).bind (·.read rest) := rfl

theorem read_append (stage : Stage) (front rest : List String) :
    stage.read (front ++ rest) = (stage.read front).bind (·.read rest) :=
  List.foldlM_append

theorem read_concat (stage : Stage) (front : List String) (word : String) :
    stage.read (front ++ [word]) = (stage.read front).bind (·.step word) := by
  rw [read_append]
  congr 1
  funext later
  rw [read_cons]
  cases later.step word <;> rfl

theorem check_nil (stage : Stage) : stage.check [] = stage.atEnd := rfl

theorem check_cons (stage : Stage) (word : String) (rest : List String) :
    stage.check (word :: rest) = (stage.step word).bind (·.check rest) := by
  rw [check, read_cons]
  cases stage.step word <;> rfl

theorem check_append (stage : Stage) (front rest : List String) :
    stage.check (front ++ rest) = (stage.read front).bind (·.check rest) := by
  rw [check, read_append]
  cases stage.read front <;> rfl

theorem check_completion (stage : Stage) : stage.check stage.completion = .ok () := by
  cases stage <;> rfl

end Stage

/-! ## Reading stage by stage -/

theorem Stage.check_pattern (vicinity : Vicinity) (words : List String) :
    Stage.pattern.check words =
      (ofPattern vicinity words).bind fun found => Stage.afterPredicate.check found.2 := by
  cases words <;> rfl

/-- A predicate is read as its stages are. -/
theorem Stage.check_predicate (words : List String) :
    Stage.predicate.check words =
      (ofPredicate words).bind fun found => Stage.afterPredicate.check found.2 := by
  induction words with
  | nil => rfl
  | cons word rest ih =>
      rw [check_cons, step]
      by_cases hnot : word = "not"
      · rw [if_pos hnot, hnot, ofPredicate_not]
        show Stage.predicate.check rest = _
        rw [ih]
        cases ofPredicate rest <;> rfl
      · rw [if_neg hnot]
        by_cases hexists : word = "exists"
        · rw [if_pos hexists, hexists, ofPredicate_exists]
          exact check_pattern .here rest
        · rw [if_neg hexists, ofPredicate, if_neg hnot, if_neg hexists]
          cases Vicinity.ofWord? word with
          | none => rfl
          | some vicinity =>
              show (existence vicinity).check rest = _
              cases rest with
              | nil => rfl
              | cons next rest =>
                  rw [check_cons, step]
                  by_cases hnext : next = "exists"
                  · simp only [if_pos hnext]
                    exact check_pattern vicinity rest
                  · simp only [if_neg hnext]
                    rfl

theorem Stage.check_predicates (words : List String) :
    Stage.predicate.check words = (ofPredicates words).map fun _ => () := by
  rw [check_predicate]
  fun_induction ofPredicates words with
  | case1 words fault hread =>
      rw [hread]
      rfl
  | case2 words condition hread =>
      rw [hread]
      rfl
  | case3 words condition rest fault hrest hread ih =>
      rw [hread]
      show Stage.predicate.check rest = _
      rw [check_predicate, ih, hrest]
  | case4 words condition rest others hrest hread ih =>
      rw [hread]
      show Stage.predicate.check rest = _
      rw [check_predicate, ih, hrest]
      rfl
  | case5 words condition word rest hread hword =>
      rw [hread]
      show Stage.afterPredicate.check (word :: rest) = _
      rw [check_cons, step, if_neg hword]
      rfl

/-- Reading a line fails as reading it stage by stage does. -/
theorem map_ofTokens? (words : List String) :
    (ofTokens? words).map (fun _ => ()) = Stage.action.check words := by
  cases words with
  | nil => rfl
  | cons word rest =>
      rw [Stage.check_cons, Stage.step, ofTokens?]
      cases haction : Action.ofWord? word with
      | none => rfl
      | some verb =>
          show _ = (Stage.target verb).check rest
          cases rest with
          | nil =>
              obtain ⟨rfl, rfl⟩ := Action.eq_delete_of_ofWord? haction
              rfl
          | cons target rest =>
              rw [Stage.check_cons, Stage.step]
              show _ = Stage.afterTarget.check rest
              cases rest with
              | nil => rfl
              | cons next rest =>
                  rw [Stage.check_cons, Stage.step]
                  by_cases hwhen : next = "when"
                  · simp only [if_pos hwhen]
                    show _ = Stage.predicate.check rest
                    rw [Stage.check_predicates, ofCondition]
                    cases ofPredicates rest <;> rfl
                  · simp only [if_neg hwhen]
                    rfl

/-- A line is at fault exactly if reading it stage by stage is. -/
theorem ofTokens?_eq_error_iff {words : List String} {fault : LineFault} :
    ofTokens? words = .error fault ↔ Stage.action.check words = .error fault := by
  rw [← map_ofTokens?]
  cases ofTokens? words <;> simp [Except.map]

/-! ## Faults at a word and at the end -/

/-- The word that a fault is about, if it is not about the end of the line. -/
def LineFault.found? : LineFault → Option String
  | unknownAction found => some found
  | unexpectedWord _ found => some found
  | _ => none

namespace Stage

/-- The fault of a word that may not stand where it does. Only the first one is no action. -/
theorem fault_of_step {stage : Stage} {word : String} {fault : LineFault}
    (h : stage.step word = .error fault) :
    stage = .action ∧ fault = .unknownAction word ∨
      stage ≠ .action ∧ ∃ expected, fault = .unexpectedWord expected word := by
  cases stage <;> simp only [step] at h <;> grind

theorem found?_of_step {stage : Stage} {word : String} {fault : LineFault}
    (h : stage.step word = .error fault) : fault.found? = some word := by
  rcases fault_of_step h with ⟨-, rfl⟩ | ⟨-, expected, rfl⟩ <;> rfl

theorem found?_of_atEnd {stage : Stage} {fault : LineFault} (h : stage.atEnd = .error fault) :
    fault.found? = none := by
  cases stage <;> cases h <;> rfl

theorem step_ne_action (stage : Stage) (word : String) : stage.step word ≠ .ok .action := by
  cases stage <;> simp only [step] <;> grind

/-- What has been read ends with the last word, read at the stage before. -/
theorem exists_last_step {words : List String} {stage later : Stage}
    (h : stage.read words = .ok later) :
    words = [] ∧ stage = later ∨ ∃ front word before, words = front ++ [word] ∧
      stage.read front = .ok before ∧ before.step word = .ok later := by
  rcases List.eq_nil_or_concat words with rfl | ⟨front, word, rfl⟩
  · cases h
    exact Or.inl ⟨rfl, rfl⟩
  · rw [List.concat_eq_append] at h ⊢
    rw [read_concat] at h
    cases hfront : stage.read front with
    | error fault =>
        rw [hfront] at h
        cases h
    | ok before =>
        rw [hfront] at h
        exact Or.inr ⟨front, word, before, rfl, hfront, h⟩

/-- No word leads back to the stage where an action must stand. -/
theorem read_eq_action_iff {words : List String} :
    Stage.action.read words = .ok .action ↔ words = [] := by
  constructor
  · intro h
    rcases exists_last_step h with ⟨hnil, -⟩ | ⟨front, word, before, -, -, hstep⟩
    · exact hnil
    · exact absurd hstep (before.step_ne_action word)
  · intro h
    rw [h]
    rfl

/-- Going on to the end of a line fails at a word, or at the end. -/
theorem check_eq_error_iff {stage : Stage} {words : List String} {fault : LineFault} :
    stage.check words = .error fault ↔
      (∃ number word later, words[number]? = some word ∧
        stage.read (words.take number) = .ok later ∧ later.step word = .error fault) ∨
      ∃ later, stage.read words = .ok later ∧ later.atEnd = .error fault := by
  induction words generalizing stage with
  | nil => simp [check_nil, read_nil]
  | cons word rest ih =>
      rw [check_cons, read_cons]
      cases hstep : stage.step word with
      | error cause =>
          show Except.error cause = .error fault ↔ _
          constructor
          · intro h
            cases h
            exact Or.inl ⟨0, word, stage, rfl, rfl, hstep⟩
          · intro h
            obtain ⟨number, other, later, hword, hread, hfault⟩ | ⟨later, hread, -⟩ := h
            · cases number with
              | zero =>
                  cases hword
                  cases hread
                  rw [hstep] at hfault
                  cases hfault
                  rfl
              | succ number =>
                  rw [List.take_succ_cons, read_cons, hstep] at hread
                  cases hread
            · cases hread
      | ok next =>
          show next.check rest = .error fault ↔ _
          rw [ih]
          apply or_congr
          · constructor
            · intro h
              obtain ⟨number, other, later, hword, hread, hfault⟩ := h
              refine ⟨number + 1, other, later, hword, ?_, hfault⟩
              rw [List.take_succ_cons, read_cons, hstep]
              exact hread
            · intro h
              obtain ⟨number, other, later, hword, hread, hfault⟩ := h
              cases number with
              | zero =>
                  cases hword
                  cases hread
                  rw [hstep] at hfault
                  cases hfault
              | succ number =>
                  rw [List.take_succ_cons, read_cons, hstep] at hread
                  exact ⟨number, other, later, hword, hread, hfault⟩
          · exact Iff.rfl

end Stage

/-- A line is at fault for a word exactly if this word offends, and the stage before it tells why. -/
theorem ofTokens?_eq_error_at_word_iff {words : List String} {fault : LineFault} {word : String} :
    ofTokens? words = .error fault ∧ fault.found? = some word ↔
      ∃ number stage, words[number]? = some word ∧
        Stage.action.read (words.take number) = .ok stage ∧ stage.step word = .error fault := by
  rw [ofTokens?_eq_error_iff, Stage.check_eq_error_iff]
  constructor
  · intro h
    obtain ⟨⟨number, other, stage, hword, hread, hfault⟩ | ⟨stage, -, hfault⟩, hfound⟩ := h
    · obtain rfl : other = word := by simpa [Stage.found?_of_step hfault] using hfound
      exact ⟨number, stage, hword, hread, hfault⟩
    · rw [Stage.found?_of_atEnd hfault] at hfound
      cases hfound
  · intro h
    obtain ⟨number, stage, hword, hread, hfault⟩ := h
    exact ⟨Or.inl ⟨number, word, stage, hword, hread, hfault⟩, Stage.found?_of_step hfault⟩

/-- A line is at fault for its end exactly if it is read to a stage that may not be the last. -/
theorem ofTokens?_eq_error_at_end_iff {words : List String} {fault : LineFault} :
    ofTokens? words = .error fault ∧ fault.found? = none ↔
      ∃ stage, Stage.action.read words = .ok stage ∧ stage.atEnd = .error fault := by
  rw [ofTokens?_eq_error_iff, Stage.check_eq_error_iff]
  constructor
  · intro h
    obtain ⟨⟨number, other, stage, -, -, hfault⟩ | h, hfound⟩ := h
    · rw [Stage.found?_of_step hfault] at hfound
      cases hfound
    · exact h
  · intro h
    obtain ⟨stage, hread, hfault⟩ := h
    exact ⟨Or.inr ⟨stage, hread, hfault⟩, Stage.found?_of_atEnd hfault⟩

/-- A line is at fault for its end as the stage is to which it is read. -/
theorem ofTokens?_eq_error_iff_of_found? {words : List String} {fault : LineFault}
    (hfault : fault.found? = none) : ofTokens? words = .error fault ↔
      ∃ stage, Stage.action.read words = .ok stage ∧ stage.atEnd = .error fault := by
  rw [← ofTokens?_eq_error_at_end_iff, and_iff_left hfault]

end Sweep.Rule
