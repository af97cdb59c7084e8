import Sweep.Proofs.Rule.Stage
/-!
# Where a line leaves the grammar

Every stage of reading can be brought to the end of some rule. So a word at which no stage goes on is
the first one after which the line is no beginning of a rule, and a line that ends in the midst of a
rule is still the beginning of one.

A keyword is a word that the grammar prescribes. The same word may also be a target or a pattern, so
whether the last word of a line is a keyword is a matter of the derivations that begin with the line.

## Main results

* `begins_iff` — a line is the beginning of a rule exactly if it can be read to some stage.
* `endsIn_iff` — the last word is a keyword exactly if the stage before it asked for one.
* `ofTokens?_names_first_offence` — which fault a line has, and at which word.
-/

namespace Sweep.Rule

open Grammar

/-! ## Keywords and free words -/

namespace Grammar

/-- A word where it stands in a derivation. -/
inductive Symbol where
  /-- The grammar prescribes it. -/
  | keyword (word : String)
  /-- Any word may stand there. -/
  | free (word : String)
deriving DecidableEq, Repr

def Symbol.word : Symbol → String
  | keyword word => word
  | free word => word

@[simp] theorem Symbol.word_keyword (word : String) : (keyword word).word = word := rfl

@[simp] theorem Symbol.word_free (word : String) : (free word).word = word := rfl

def Symbol.isFree : Symbol → Bool
  | keyword _ => false
  | free _ => true

def Predicate.symbols : Predicate → List Symbol
  | negated inner => .keyword "not" :: inner.symbols
  | question none pattern => [.keyword "exists", .free pattern]
  | question (some vicinity) pattern =>
    [.keyword vicinity.word, .keyword "exists", .free pattern]

def Clause.symbols (clause : Clause) : List Symbol :=
  clause.first.symbols ++
    clause.others.flatMap fun predicate => .keyword "and" :: predicate.symbols

def Line.symbols (line : Line) : List Symbol :=
  .keyword "delete" :: .free line.target :: match line.clause with
    | none => []
    | some clause => .keyword "when" :: clause.symbols

theorem Predicate.map_word_symbols (predicate : Predicate) :
    predicate.symbols.map (·.word) = predicate.words := by
  induction predicate with
  | negated inner ih => rw [symbols, words, List.map_cons, ih, Symbol.word_keyword]
  | question vicinity pattern => cases vicinity <;> rfl

theorem Line.map_word_symbols (line : Line) : line.symbols.map (·.word) = line.words := by
  obtain ⟨target, clause⟩ := line
  cases clause with
  | none => rfl
  | some clause =>
      simp [symbols, words, Clause.symbols, Clause.words, List.map_flatMap,
        Predicate.map_word_symbols]

/-- Some rule begins with these words. -/
def Begins (words : List String) : Prop :=
  ∃ line : Line, words <+: line.words

/-- Some rule begins with these words, and the last of them is a certain keyword in it. -/
def EndsIn (words : List String) (word : String) : Prop :=
  ∃ (line : Line) (front : List Symbol), front ++ [.keyword word] <+: line.symbols ∧
    words = front.map (·.word) ++ [word]

/-- Up to the word with a certain number a rule may begin that way, with this word none does. -/
def Offends (words : List String) (number : Nat) (word : String) : Prop :=
  words[number]? = some word ∧ Begins (words.take number) ∧ ¬ Begins (words.take (number + 1))

theorem Begins.front {words longer : List String} (h : Begins longer) (hfront : words <+: longer) :
    Begins words := by
  obtain ⟨line, hline⟩ := h
  exact ⟨line, hfront.trans hline⟩

/-- At most one word of a line offends. -/
theorem Offends.unique {words : List String} {i j : Nat} {word other : String}
    (h : Offends words i word) (hother : Offends words j other) : i = j := by
  have hle : ∀ {a b : Nat} {u v : String}, Offends words a u → Offends words b v → b ≤ a := by
    intro a b u v ha hb
    apply Nat.le_of_not_lt
    intro hlt
    -- the words up to the first offence are among those before the second one
    exact ha.2.2 (hb.2.1.front (List.take_prefix_take_left (by omega)))
  exact Nat.le_antisymm (hle hother h) (hle h hother)

end Grammar

/-! ## Beginnings of rules -/

/-- The words of rules are those that are read to an end. -/
theorem exists_line_iff {words : List String} :
    (∃ line : Line, line.words = words) ↔ words ≠ [] ∧ Stage.action.check words = .ok () := by
  rw [← map_ofTokens?]
  constructor
  · intro h
    obtain ⟨line, rfl⟩ := h
    have hread := ofTokens?_eq_some_iff.2 ⟨line, rfl, rfl⟩
    rw [hread]
    exact ⟨List.cons_ne_nil _ _, rfl⟩
  · intro h
    obtain ⟨hne, hcheck⟩ := h
    cases hread : ofTokens? words with
    | error fault =>
        rw [hread] at hcheck
        cases hcheck
    | ok found =>
        cases found with
        | none => exact absurd (ofTokens?_eq_none_iff.1 hread) hne
        | some rule =>
            obtain ⟨line, hwords, -⟩ := ofTokens?_eq_some_iff.1 hread
            exact ⟨line, hwords⟩

/-- A line is the beginning of a rule exactly if it can be read to some stage. -/
theorem begins_iff {words : List String} :
    Begins words ↔ ∃ stage, Stage.action.read words = .ok stage := by
  constructor
  · intro h
    obtain ⟨line, more, hwords⟩ := h
    have hcheck := (exists_line_iff.1 ⟨line, rfl⟩).2
    rw [← hwords, Stage.check_append] at hcheck
    cases hread : Stage.action.read words with
    | error fault =>
        rw [hread] at hcheck
        cases hcheck
    | ok stage => exact ⟨stage, rfl⟩
  · intro h
    obtain ⟨stage, hread⟩ := h
    have hcheck : Stage.action.check (words ++ stage.completion) = .ok () := by
      rw [Stage.check_append, hread]
      exact stage.check_completion
    have hne : words ++ stage.completion ≠ [] := by
      intro hnil
      obtain ⟨rfl, hcompletion⟩ := List.append_eq_nil_iff.1 hnil
      cases hread
      cases hcompletion
    obtain ⟨line, hline⟩ := exists_line_iff.2 ⟨hne, hcheck⟩
    exact ⟨line, hline ▸ List.prefix_append words stage.completion⟩

/-- A word offends exactly if the words before it are read to a stage which does not take it. -/
theorem offends_iff {words : List String} {number : Nat} {word : String} :
    Offends words number word ↔ words[number]? = some word ∧
      ∃ stage fault, Stage.action.read (words.take number) = .ok stage ∧
        stage.step word = .error fault := by
  unfold Offends
  apply and_congr_right
  intro hword
  rw [List.take_add_one, hword, Option.toList_some, begins_iff, begins_iff]
  constructor
  · intro h
    obtain ⟨⟨stage, hread⟩, hstop⟩ := h
    cases hstep : stage.step word with
    | error fault => exact ⟨stage, fault, hread, hstep⟩
    | ok next =>
        refine absurd ⟨next, ?_⟩ hstop
        rw [Stage.read_concat, hread]
        exact hstep
  · intro h
    obtain ⟨stage, fault, hread, hstep⟩ := h
    refine ⟨⟨stage, hread⟩, ?_⟩
    intro hnext
    obtain ⟨next, hnext⟩ := hnext
    rw [Stage.read_concat, hread] at hnext
    exact absurd (hstep.symm.trans hnext) (by simp)

/-! ## Keywords at the end -/

namespace Stage

/-- Goes on by symbols: keywords where a keyword must stand, and free words where any may. -/
def readSymbols (stage : Stage) : List Symbol → Option Stage
  | [] => some stage
  | symbol :: rest =>
    match stage.step symbol.word with
    | .error _ => none
    | .ok next => if symbol.isFree = stage.takesAny then next.readSymbols rest else none

theorem readSymbols_append (stage : Stage) (front rest : List Symbol) :
    stage.readSymbols (front ++ rest) = (stage.readSymbols front).bind (·.readSymbols rest) := by
  induction front generalizing stage with
  | nil => rfl
  | cons symbol front ih =>
      simp only [List.cons_append, readSymbols]
      cases stage.step symbol.word with
      | error fault => rfl
      | ok next =>
          by_cases hfree : symbol.isFree = stage.takesAny
          · simp only [if_pos hfree]
            exact ih next
          · simp only [if_neg hfree]
            rfl

/-- What is read symbol by symbol is read word by word. -/
theorem read_of_readSymbols {stage later : Stage} {symbols : List Symbol}
    (h : stage.readSymbols symbols = some later) :
    stage.read (symbols.map (·.word)) = .ok later := by
  induction symbols generalizing stage with
  | nil =>
      cases h
      rfl
  | cons symbol rest ih =>
      rw [readSymbols] at h
      rw [List.map_cons, read_cons]
      cases hstep : stage.step symbol.word with
      | error fault =>
          rw [hstep] at h
          cases h
      | ok next =>
          rw [hstep] at h
          by_cases hfree : symbol.isFree = stage.takesAny
          · simp only [if_pos hfree] at h
            exact ih h
          · simp [if_neg hfree] at h

theorem readSymbols_predicate (predicate : Predicate) (rest : List Symbol) :
    Stage.predicate.readSymbols (predicate.symbols ++ rest) =
      Stage.afterPredicate.readSymbols rest := by
  induction predicate with
  | negated inner ih => exact ih
  | question vicinity pattern =>
      cases vicinity with
      | none => rfl
      | some vicinity => cases vicinity <;> rfl

theorem readSymbols_others (others : List Predicate) :
    Stage.afterPredicate.readSymbols
      (others.flatMap fun predicate => .keyword "and" :: predicate.symbols) =
        some .afterPredicate := by
  induction others with
  | nil => rfl
  | cons predicate others ih =>
      rw [List.flatMap_cons, List.cons_append]
      show Stage.predicate.readSymbols (predicate.symbols ++ _) = _
      rw [readSymbols_predicate, ih]

/-- The symbols of a rule are read to the end. -/
theorem readSymbols_line (line : Line) :
    ∃ stage, Stage.action.readSymbols line.symbols = some stage := by
  obtain ⟨target, clause⟩ := line
  cases clause with
  | none => exact ⟨.afterTarget, rfl⟩
  | some clause =>
      refine ⟨.afterPredicate, ?_⟩
      show Stage.predicate.readSymbols clause.symbols = _
      rw [Clause.symbols, readSymbols_predicate, readSymbols_others]

/-- Any beginning of the symbols of a rule is read. -/
theorem exists_readSymbols_of_front {line : Line} {front : List Symbol}
    (h : front <+: line.symbols) : ∃ stage, Stage.action.readSymbols front = some stage := by
  obtain ⟨rest, hrest⟩ := h
  obtain ⟨last, hlast⟩ := readSymbols_line line
  rw [← hrest, readSymbols_append] at hlast
  obtain ⟨stage, hstage, -⟩ := Option.bind_eq_some_iff.1 hlast
  exact ⟨stage, hstage⟩

end Stage

/-- The last symbol of what is read is free exactly if any word could stand there. -/
theorem Stage.step_of_readSymbols_concat {stage : Stage} {front : List Symbol} {symbol : Symbol}
    (h : Stage.action.readSymbols (front ++ [symbol]) = some stage) :
    ∃ before, Stage.action.read (front.map (·.word)) = .ok before ∧
      before.step symbol.word = .ok stage ∧ symbol.isFree = before.takesAny := by
  rw [readSymbols_append] at h
  obtain ⟨before, hbefore, hlast⟩ := Option.bind_eq_some_iff.1 h
  refine ⟨before, read_of_readSymbols hbefore, ?_⟩
  rw [readSymbols] at hlast
  cases hstep : before.step symbol.word with
  | error fault => simp [hstep] at hlast
  | ok next =>
      simp only [hstep] at hlast
      by_cases hfree : symbol.isFree = before.takesAny
      · simp only [if_pos hfree] at hlast
        cases hlast
        exact ⟨rfl, hfree⟩
      · simp [if_neg hfree] at hlast

/-- A line ends in a keyword exactly if its last word was read at a stage that asks for one. -/
theorem endsIn_iff {words : List String} {word : String} :
    EndsIn words word ↔ ∃ front before stage, words = front ++ [word] ∧
      Stage.action.read front = .ok before ∧ before.takesAny = false ∧
      before.step word = .ok stage := by
  constructor
  · intro h
    obtain ⟨line, front, hfront, hwords⟩ := h
    obtain ⟨stage, hstage⟩ := Stage.exists_readSymbols_of_front hfront
    obtain ⟨before, hread, hstep, hfree⟩ := Stage.step_of_readSymbols_concat hstage
    exact ⟨_, before, stage, hwords, hread, hfree.symm, hstep⟩
  · intro h
    obtain ⟨front, before, stage, rfl, hread, hfree, hstep⟩ := h
    have hlast : Stage.action.read (front ++ [word]) = .ok stage := by
      rw [Stage.read_concat, hread]
      exact hstep
    obtain ⟨line, hline⟩ := begins_iff.2 ⟨stage, hlast⟩
    -- the symbols of the rule that stand where the words do
    rw [← line.map_word_symbols] at hline
    obtain ⟨symbols, hfront, hsymbols⟩ := List.prefix_map_iff.1 hline
    obtain ⟨start, tail, rfl, hstart, htail⟩ := List.map_eq_append_iff.1 hsymbols.symm
    obtain ⟨symbol, rfl, rfl⟩ := List.map_eq_singleton_iff.1 htail
    obtain ⟨last, hsymbol⟩ := Stage.exists_readSymbols_of_front hfront
    obtain ⟨other, hother, -, hkeyword⟩ := Stage.step_of_readSymbols_concat hsymbol
    rw [hstart, hread] at hother
    cases hother
    rw [hfree] at hkeyword
    cases symbol with
    | free _ => cases hkeyword
    | keyword word => exact ⟨line, start, hfront, by rw [hstart]⟩

/-! ## Which fault a line has -/

namespace Stage

/-- The keywords that lead to a stage. -/
def keywords : Stage → List String
  | target verb => [verb.word]
  | predicate => ["when", "and", "not"]
  | existence vicinity => [vicinity.word]
  | pattern => ["exists"]
  | _ => []

theorem mem_keywords_of_step {before stage : Stage} {word : String} (hfree : before.takesAny = false)
    (h : before.step word = .ok stage) : word ∈ stage.keywords := by
  cases before with
  | action =>
      cases haction : Action.ofWord? word with
      | none => simp [step, haction] at h
      | some verb =>
          simp only [step, haction, Except.ok.injEq] at h
          obtain ⟨rfl, rfl⟩ := Action.eq_delete_of_ofWord? haction
          rw [← h]
          exact List.mem_singleton_self _
  | target _ => cases hfree
  | pattern => cases hfree
  | predicate =>
      simp only [step] at h
      by_cases hnot : word = "not"
      · rw [if_pos hnot, Except.ok.injEq] at h
        simp [← h, keywords, hnot]
      · rw [if_neg hnot] at h
        by_cases hexists : word = "exists"
        · rw [if_pos hexists, Except.ok.injEq] at h
          simp [← h, keywords, hexists]
        · rw [if_neg hexists] at h
          cases hvicinity : Vicinity.ofWord? word with
          | none => simp [hvicinity] at h
          | some vicinity =>
              simp only [hvicinity, Except.ok.injEq] at h
              simp [← h, keywords, Vicinity.word_of_ofWord? hvicinity]
  | afterTarget => simp only [step] at h; grind [keywords]
  | existence _ => simp only [step] at h; grind [keywords]
  | afterPredicate => simp only [step] at h; grind [keywords]

/-- The stage that a keyword leads to. -/
def ofKeyword? (word : String) : Option Stage :=
  if word ∈ predicate.keywords then some predicate
  else if word ∈ pattern.keywords then some pattern
  else ((Action.ofWord? word).map target).or ((Vicinity.ofWord? word).map existence)

theorem ofKeyword?_of_mem {stage : Stage} {word : String} (h : word ∈ stage.keywords) :
    ofKeyword? word = some stage := by
  cases stage with
  | predicate => exact if_pos h
  | pattern =>
      obtain rfl := List.mem_singleton.1 h
      rfl
  | target verb =>
      obtain rfl := List.mem_singleton.1 h
      cases verb
      rfl
  | existence vicinity =>
      obtain rfl := List.mem_singleton.1 h
      cases vicinity <;> rfl
  | _ => cases h

/-- A keyword leads to one stage only. -/
theorem eq_of_mem_keywords {stage other : Stage} {word : String} (h : word ∈ stage.keywords)
    (hother : word ∈ other.keywords) : stage = other :=
  Option.some.inj ((ofKeyword?_of_mem h).symm.trans (ofKeyword?_of_mem hother))

/-- Where a keyword must have stood, not any word could stand. -/
theorem takesAny_of_step {before stage : Stage} {word : String} (hstage : stage.keywords ≠ [])
    (h : before.step word = .ok stage) : before.takesAny = false := by
  cases before with
  | target _ =>
      cases h
      exact absurd rfl hstage
  | pattern =>
      cases h
      exact absurd rfl hstage
  | _ => rfl

end Stage

/-- A line is read to a stage that a keyword leads to exactly if it ends in such a keyword. -/
theorem Stage.read_eq_ok_iff_endsIn {words : List String} {stage : Stage}
    (hstage : stage.keywords ≠ []) :
    Stage.action.read words = .ok stage ↔ ∃ word ∈ stage.keywords, EndsIn words word := by
  constructor
  · intro h
    rcases exists_last_step h with ⟨-, rfl⟩ | ⟨front, word, before, rfl, hfront, hstep⟩
    · exact absurd rfl hstage
    · have hfree := takesAny_of_step hstage hstep
      exact ⟨word, mem_keywords_of_step hfree hstep,
        endsIn_iff.2 ⟨front, before, stage, rfl, hfront, hfree, hstep⟩⟩
  · intro h
    obtain ⟨word, hword, hends⟩ := h
    obtain ⟨front, before, last, rfl, hread, hfree, hstep⟩ := endsIn_iff.1 hends
    rw [read_concat, hread, eq_of_mem_keywords hword (mem_keywords_of_step hfree hstep)]
    exact hstep

/-- Only the first word of a line stands where an action must. -/
theorem Stage.eq_zero_of_read_take {words : List String} {number : Nat} {word : String}
    (hword : words[number]? = some word)
    (hread : Stage.action.read (words.take number) = .ok .action) : number = 0 := by
  have hlt := (List.getElem?_eq_some_iff.1 hword).1
  rcases List.take_eq_nil_iff.1 (read_eq_action_iff.1 hread) with rfl | rfl
  · rfl
  · cases hlt

/-- An action is unknown exactly if the first word offends. -/
theorem ofTokens?_eq_unknownAction_iff {words : List String} {found : String} :
    ofTokens? words = .error (.unknownAction found) ↔ Offends words 0 found := by
  constructor
  · intro h
    obtain ⟨number, stage, hword, hread, hstep⟩ :=
      ofTokens?_eq_error_at_word_iff.1 ⟨h, rfl⟩
    rcases Stage.fault_of_step hstep with ⟨rfl, -⟩ | ⟨-, expected, hfault⟩
    · obtain rfl := Stage.eq_zero_of_read_take hword hread
      exact offends_iff.2 ⟨hword, .action, _, hread, hstep⟩
    · cases hfault
  · intro h
    obtain ⟨hword, stage, fault, hread, hstep⟩ := offends_iff.1 h
    cases hread
    rcases Stage.fault_of_step hstep with ⟨-, rfl⟩ | ⟨hstage, -⟩
    · exact (ofTokens?_eq_error_at_word_iff.2 ⟨0, .action, hword, rfl, hstep⟩).1
    · exact absurd rfl hstage

/-- A word is unexpected exactly if it offends and is not the first. -/
theorem ofTokens?_eq_unexpectedWord_iff {words : List String} {found : String} :
    (∃ expected, ofTokens? words = .error (.unexpectedWord expected found)) ↔
      ∃ number, 0 < number ∧ Offends words number found := by
  constructor
  · intro h
    obtain ⟨expected, h⟩ := h
    obtain ⟨number, stage, hword, hread, hstep⟩ :=
      ofTokens?_eq_error_at_word_iff.1 ⟨h, rfl⟩
    refine ⟨number, ?_, offends_iff.2 ⟨hword, stage, _, hread, hstep⟩⟩
    rcases Stage.fault_of_step hstep with ⟨-, hfault⟩ | ⟨hstage, -⟩
    · cases hfault
    · apply Nat.pos_of_ne_zero
      intro hzero
      subst hzero
      cases hread
      exact hstage rfl
  · intro h
    obtain ⟨number, hpos, hoffends⟩ := h
    obtain ⟨hword, stage, fault, hread, hstep⟩ := offends_iff.1 hoffends
    rcases Stage.fault_of_step hstep with ⟨rfl, -⟩ | ⟨-, expected, rfl⟩
    · have hzero := Stage.eq_zero_of_read_take hword hread
      omega
    · exact ⟨expected,
        (ofTokens?_eq_error_at_word_iff.2 ⟨number, stage, hword, hread, hstep⟩).1⟩

/-- A line is at fault for its end exactly if it is the beginning of a rule but no rule. -/
theorem exists_error_at_end_iff {words : List String} :
    (∃ fault, ofTokens? words = .error fault ∧ fault.found? = none) ↔
      words ≠ [] ∧ Begins words ∧ ¬ ∃ line : Line, line.words = words := by
  constructor
  · intro h
    obtain ⟨fault, herror⟩ := h
    obtain ⟨stage, hread, hend⟩ := ofTokens?_eq_error_at_end_iff.1 herror
    have hcheck : Stage.action.check words = .error fault := by
      rw [Stage.check, hread]
      exact hend
    refine ⟨?_, begins_iff.2 ⟨stage, hread⟩, ?_⟩
    · rintro rfl
      cases hcheck
    · intro hline
      have hok := (exists_line_iff.1 hline).2
      rw [hcheck] at hok
      cases hok
  · intro h
    obtain ⟨hne, hbegins, hline⟩ := h
    obtain ⟨stage, hread⟩ := begins_iff.1 hbegins
    cases hend : stage.atEnd with
    | error fault =>
        exact ⟨fault, ofTokens?_eq_error_at_end_iff.2 ⟨stage, hread, hend⟩⟩
    | ok found =>
        refine absurd (exists_line_iff.2 ⟨hne, ?_⟩) hline
        rw [Stage.check, hread]
        exact hend

/-- Only an action leads to the stage where its target must stand. -/
theorem Stage.eq_action_of_step {before : Stage} {word : String} {verb : Action}
    (h : before.step word = .ok (.target verb)) : before = .action ∧ word = verb.word := by
  have hkeywords : (target verb).keywords ≠ [] := List.cons_ne_nil verb.word []
  have hfree := takesAny_of_step hkeywords h
  refine ⟨?_, List.mem_singleton.1 (mem_keywords_of_step hfree h)⟩
  cases before <;> simp only [step] at h <;> grind

/-- The target is missing exactly from an action that stands alone. -/
theorem ofTokens?_eq_missingTarget_iff {words : List String} {text : String} :
    ofTokens? words = .error (.missingTarget text) ↔
      words = [text] ∧ ∃ action : Action, action.word = text := by
  constructor
  · intro h
    obtain ⟨stage, hread, hend⟩ := (ofTokens?_eq_error_iff_of_found? rfl).1 h
    cases stage with
    | target verb =>
        cases hend
        rcases Stage.exists_last_step hread with ⟨-, hstage⟩ | ⟨front, word, before, rfl, hfront, h⟩
        · cases hstage
        · obtain ⟨rfl, rfl⟩ := Stage.eq_action_of_step h
          rw [Stage.read_eq_action_iff.1 hfront]
          exact ⟨rfl, verb, rfl⟩
    | _ => cases hend
  · intro h
    obtain ⟨rfl, action, rfl⟩ := h
    cases action
    rfl

/-- The pattern of a question is missing exactly if the line ends in the keyword before it. -/
theorem ofTokens?_eq_missingPattern_iff {words : List String} :
    ofTokens? words = .error .missingPattern ↔ EndsIn words "exists" := by
  have hends : Stage.action.read words = .ok .pattern ↔
      ∃ word ∈ Stage.pattern.keywords, EndsIn words word :=
    Stage.read_eq_ok_iff_endsIn (by simp [Stage.keywords])
  simp only [Stage.keywords, List.mem_singleton, exists_eq_left] at hends
  rw [ofTokens?_eq_error_iff_of_found? rfl, ← hends]
  constructor
  · intro h
    obtain ⟨stage, hread, hend⟩ := h
    cases stage <;> cases hend
    exact hread
  · intro h
    exact ⟨.pattern, h, rfl⟩

/-- The end of a line is unexpected exactly after the other keywords of a condition. -/
theorem ofTokens?_eq_unexpectedEnd_iff {words : List String} :
    (∃ expected, ofTokens? words = .error (.unexpectedEnd expected)) ↔
      ∃ word, (word ∈ ["when", "and", "not"] ∨ ∃ vicinity : Vicinity, word = vicinity.word) ∧
        EndsIn words word := by
  have hpredicate : Stage.action.read words = .ok .predicate ↔
      ∃ word ∈ Stage.predicate.keywords, EndsIn words word :=
    Stage.read_eq_ok_iff_endsIn (by simp [Stage.keywords])
  have hexistence : ∀ vicinity, Stage.action.read words = .ok (.existence vicinity) ↔
      ∃ word ∈ (Stage.existence vicinity).keywords, EndsIn words word :=
    fun vicinity => Stage.read_eq_ok_iff_endsIn (by simp [Stage.keywords])
  constructor
  · intro h
    obtain ⟨expected, h⟩ := h
    obtain ⟨stage, hread, hend⟩ := (ofTokens?_eq_error_iff_of_found? rfl).1 h
    cases stage with
    | predicate =>
        obtain ⟨word, hword, hends⟩ := hpredicate.1 hread
        exact ⟨word, Or.inl hword, hends⟩
    | existence vicinity =>
        obtain ⟨word, hword, hends⟩ := (hexistence vicinity).1 hread
        exact ⟨word, Or.inr ⟨vicinity, List.mem_singleton.1 hword⟩, hends⟩
    | _ => cases hend
  · intro h
    obtain ⟨word, hword | ⟨vicinity, rfl⟩, hends⟩ := h
    · exact ⟨.condition, (ofTokens?_eq_error_iff_of_found? rfl).2
        ⟨.predicate, hpredicate.2 ⟨word, hword, hends⟩, rfl⟩⟩
    · exact ⟨.existenceAfter vicinity, (ofTokens?_eq_error_iff_of_found? rfl).2
        ⟨.existence vicinity, (hexistence vicinity).2
          ⟨_, List.mem_singleton_self vicinity.word, hends⟩, rfl⟩⟩

/-- A line is at fault for its first word that no rule goes on with, of which there is no more than
one. If every word of it goes on with some rule, it is at fault for its end if no rule ends there; and
what is missing then is told by the keyword at the end. -/
theorem ofTokens?_names_first_offence (words : List String) :
    (∀ i j word other, Offends words i word → Offends words j other → i = j) ∧
      (∀ found, ofTokens? words = .error (.unknownAction found) ↔ Offends words 0 found) ∧
      (∀ found, (∃ expected, ofTokens? words = .error (.unexpectedWord expected found)) ↔
        ∃ number, 0 < number ∧ Offends words number found) ∧
      ((∃ fault, ofTokens? words = .error fault ∧ fault.found? = none) ↔
        words ≠ [] ∧ Begins words ∧ ¬ ∃ line : Line, line.words = words) ∧
      (∀ text, ofTokens? words = .error (.missingTarget text) ↔
        words = [text] ∧ ∃ action : Action, action.word = text) ∧
      (ofTokens? words = .error .missingPattern ↔ EndsIn words "exists") ∧
      ((∃ expected, ofTokens? words = .error (.unexpectedEnd expected)) ↔
        ∃ word, (word ∈ ["when", "and", "not"] ∨ ∃ vicinity : Vicinity, word = vicinity.word) ∧
          EndsIn words word) := by
  refine ⟨fun i j word other => Offends.unique, ?_, ?_, exists_error_at_end_iff, ?_,
    ofTokens?_eq_missingPattern_iff, ofTokens?_eq_unexpectedEnd_iff⟩
  · intro found
    exact ofTokens?_eq_unknownAction_iff
  · intro found
    exact ofTokens?_eq_unexpectedWord_iff
  · intro text
    exact ofTokens?_eq_missingTarget_iff

/-- The second `exists` is a pattern, so the line may go on with `and` alone. -/
example : ofTokens? ["delete", "when", "when", "exists", "exists", "exists"] =
    .error (.unexpectedWord .andOrEnd "exists") := by
  cbv

end Sweep.Rule
