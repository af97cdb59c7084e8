import Sweep.Proofs.Rule.RoundTrip
import Sweep.Search
/-!
# Trees that the rule language lacks

The text of a condition has no parentheses. What is written for a tree is therefore the text of its
*operands* one after the other: those of a conjunction are the operands of its parts, and `not` in
front of several operands is read as part of the first one. `Condition.flattened` is the condition
with these operands, which is what the text is read back as.

Flattening a conjunction keeps what the condition means. Moving a negation to the first of several
operands does not; where every negation stands above one operand only, nothing is lost.

## Main results

* `text_flattened` — a tree and its flattened form have the same text.
* `isExpressible_flattened` — the flattened form can be written down.
* `allHold_flat` — the operands hold together exactly if the tree does.
* `ofText_text_eq_flattened` — what the text of any tree is read back as, and when that means the same.
-/

namespace Sweep

open Text

namespace Condition

/-! ## Operands -/

/-- Operands with a negation in front of the first one. -/
def negateFirst : List Condition → List Condition
  | [] => []
  | first :: rest => .negated first :: rest

mutual

/-- The operands that the text of a condition consists of. -/
def flat : Condition → List Condition
  | .present vicinity pattern => [.present vicinity pattern]
  | .negated condition => negateFirst condition.flat
  | .every conditions => flatAll conditions
termination_by structural condition => condition

/-- The operands of some conditions, one condition after the other. -/
def flatAll : List Condition → List Condition
  | [] => []
  | condition :: rest => condition.flat ++ flatAll rest
termination_by structural conditions => conditions

end

/-- The condition with the same operands and no other structure: one operand stands for itself, and
several are a conjunction. -/
def flattened (condition : Condition) : Condition :=
  match condition.flat with
  | [only] => only
  | operands => .every operands

/-- A condition whose patterns are words, and in which no conjunction is empty. -/
inductive IsWritable : Condition → Prop where
  | present {vicinity : Vicinity} {pattern : Glob} (hword : IsWord pattern.source.toList) :
      IsWritable (.present vicinity pattern)
  | negated {condition : Condition} (h : IsWritable condition) : IsWritable (.negated condition)
  | every {conditions : List Condition} (hsome : conditions ≠ [])
      (h : ∀ condition ∈ conditions, IsWritable condition) : IsWritable (.every conditions)

/-- A condition in which no negation stands above two or more operands. -/
inductive NegatesSingly : Condition → Prop where
  | present {vicinity : Vicinity} {pattern : Glob} : NegatesSingly (.present vicinity pattern)
  | negated {condition : Condition} (hone : condition.flat.length < 2)
      (h : NegatesSingly condition) : NegatesSingly (.negated condition)
  | every {conditions : List Condition} (h : ∀ condition ∈ conditions, NegatesSingly condition) :
      NegatesSingly (.every conditions)

theorem mem_flatAll {conditions : List Condition} {operand : Condition} :
    operand ∈ flatAll conditions ↔ ∃ condition ∈ conditions, operand ∈ condition.flat := by
  induction conditions with
  | nil => simp [flatAll]
  | cons condition rest ih => simp [flatAll, ih]

namespace IsWritable

variable {condition : Condition}

theorem flat_ne_nil (h : condition.IsWritable) : condition.flat ≠ [] := by
  induction h with
  | present hword => simp [flat]
  | @negated condition h ih =>
      obtain ⟨first, rest, hflat⟩ := List.exists_cons_of_ne_nil ih
      simp [flat, hflat, negateFirst]
  | @every conditions hsome h ih =>
      obtain ⟨condition, rest, rfl⟩ := List.exists_cons_of_ne_nil hsome
      simp [flat, flatAll, ih condition List.mem_cons_self]

/-- The operands are questions, negated any number of times. -/
theorem isChain_of_mem_flat (h : condition.IsWritable) :
    ∀ operand ∈ condition.flat, operand.IsChain := by
  induction h with
  | present hword =>
      intro operand hoperand
      obtain rfl := List.mem_singleton.1 hoperand
      exact .present hword
  | @negated condition h ih =>
      intro operand hoperand
      rw [flat] at hoperand
      cases hflat : condition.flat with
      | nil => exact absurd hflat h.flat_ne_nil
      | cons first rest =>
          rw [hflat] at hoperand ih
          rcases List.mem_cons.1 hoperand with rfl | hrest
          · exact .negated (ih first List.mem_cons_self)
          · exact ih operand (List.mem_cons_of_mem _ hrest)
  | every hsome h ih =>
      intro operand hoperand
      obtain ⟨condition, hmem, hflat⟩ := mem_flatAll.1 hoperand
      exact ih condition hmem operand hflat

/-- What can be read back from the text of a condition can be written down. -/
theorem isExpressible_flattened (h : condition.IsWritable) : condition.flattened.IsExpressible := by
  have hchains := h.isChain_of_mem_flat
  have hsome := h.flat_ne_nil
  unfold flattened
  split
  · rename_i only hflat
    exact .single (hchains only (by simp [hflat]))
  · rename_i hmany
    refine .several ?_ hchains
    have hpositive := List.length_pos_iff.2 hsome
    have hone : condition.flat.length ≠ 1 := by
      intro hlength
      obtain ⟨only, honly⟩ := List.length_eq_one_iff.1 hlength
      exact hmany only honly
    omega

end IsWritable

/-! ## The text of a tree -/

theorem conditionTexts_append (conditions more : List Condition) :
    conditionTexts (conditions ++ more) = conditionTexts conditions ++ conditionTexts more := by
  induction conditions with
  | nil => rfl
  | cons condition rest ih => simp [conditionTexts, ih]

theorem conditionTexts_ne_nil {conditions : List Condition} (h : conditions ≠ []) :
    conditionTexts conditions ≠ [] := by
  obtain ⟨condition, rest, rfl⟩ := List.exists_cons_of_ne_nil h
  simp [conditionTexts]

/-- A negation in front of a text is one in front of its first operand. -/
theorem joinTexts_negateFirst {operands : List Condition} (h : operands ≠ []) :
    joinTexts " and " (conditionTexts (negateFirst operands)) =
      "not " ++ joinTexts " and " (conditionTexts operands) := by
  obtain ⟨first, rest, rfl⟩ := List.exists_cons_of_ne_nil h
  cases rest with
  | nil => simp [negateFirst, conditionTexts, joinTexts, text]
  | cons second rest =>
      simp [negateFirst, conditionTexts, joinTexts, text, String.append_assoc]

/-- Conditions and their operands make the same text if each of the conditions does. -/
theorem joinTexts_flatAll {conditions : List Condition}
    (hsome : ∀ condition ∈ conditions, condition.flat ≠ [])
    (htext : ∀ condition ∈ conditions,
      condition.text = joinTexts " and " (conditionTexts condition.flat)) :
    joinTexts " and " (conditionTexts conditions) =
      joinTexts " and " (conditionTexts (flatAll conditions)) := by
  induction conditions with
  | nil => rfl
  | cons condition rest ih =>
      obtain ⟨hflat, hothers⟩ := List.forall_mem_cons.1 hsome
      obtain ⟨hfirst, hlater⟩ := List.forall_mem_cons.1 htext
      have hrest := ih hothers hlater
      cases rest with
      | nil => simpa [conditionTexts, joinTexts, flatAll] using hfirst
      | cons second rest =>
          have hsecond : flatAll (second :: rest) ≠ [] := by
            simp [flatAll, hothers second List.mem_cons_self]
          rw [flatAll, conditionTexts_append, joinTexts_append " and "
            (conditionTexts_ne_nil hflat) (conditionTexts_ne_nil hsecond), ← hfirst, ← hrest,
            conditionTexts, joinTexts_cons " and " _ (by simp [conditionTexts])]

/-- The text of a tree is that of its operands, joined by `and`. -/
theorem text_eq_joinTexts_flat {condition : Condition} (h : condition.IsWritable) :
    condition.text = joinTexts " and " (conditionTexts condition.flat) := by
  induction h with
  | present hword => rfl
  | @negated condition h ih => rw [flat, joinTexts_negateFirst h.flat_ne_nil, ← ih, text]
  | every hsome h ih =>
      rw [flat, text]
      exact joinTexts_flatAll (fun condition hmem => (h condition hmem).flat_ne_nil) ih

/-- A tree and its flattened form have the same text. -/
theorem text_flattened {condition : Condition} (h : condition.IsWritable) :
    condition.flattened.text = condition.text := by
  rw [text_eq_joinTexts_flat h]
  unfold flattened
  split
  · rename_i only hflat
    simp [hflat, conditionTexts, joinTexts]
  · rw [text]

/-! ## The meaning of a tree -/

section Holds

variable (disk : Disk) (path : Path)

theorem allHold_append (conditions more : List Condition) :
    allHold disk path (conditions ++ more) =
      (allHold disk path conditions && allHold disk path more) := by
  induction conditions with
  | nil => simp [allHold]
  | cons condition rest ih => simp [allHold, ih, Bool.and_assoc]

/-- Conditions hold together exactly if their operands do, if each of them does. -/
theorem allHold_flatAll {conditions : List Condition}
    (h : ∀ condition ∈ conditions, allHold disk path condition.flat = condition.holds disk path) :
    allHold disk path (flatAll conditions) = allHold disk path conditions := by
  induction conditions with
  | nil => rfl
  | cons condition rest ih =>
      obtain ⟨hfirst, hlater⟩ := List.forall_mem_cons.1 h
      rw [flatAll, allHold_append, hfirst, ih hlater, allHold]

/-- The operands of a tree that negates single operands only hold together exactly if the tree
does. -/
theorem allHold_flat {condition : Condition} (hwritable : condition.IsWritable)
    (hsingly : condition.NegatesSingly) :
    allHold disk path condition.flat = condition.holds disk path := by
  induction hwritable with
  | present hword => simp [flat, allHold]
  | @negated condition h ih =>
      cases hsingly with
      | negated hone hinner =>
          have hsome := List.length_pos_iff.2 h.flat_ne_nil
          obtain ⟨only, honly⟩ := List.length_eq_one_iff.1 (show condition.flat.length = 1 by omega)
          have hheld := ih hinner
          rw [honly] at hheld
          simp only [allHold, Bool.and_true] at hheld
          simp [flat, honly, negateFirst, allHold, holds, hheld]
  | every hsome h ih =>
      cases hsingly with
      | every hall =>
          rw [flat, holds]
          exact allHold_flatAll disk path fun condition hmem => ih condition hmem (hall condition hmem)

/-- Flattening such a tree keeps what it means. -/
theorem holds_flattened {condition : Condition} (hwritable : condition.IsWritable)
    (hsingly : condition.NegatesSingly) :
    condition.flattened.holds disk path = condition.holds disk path := by
  rw [← allHold_flat disk path hwritable hsingly]
  unfold flattened
  split
  · rename_i only hflat
    simp [hflat, allHold]
  · rw [holds]

end Holds

end Condition

namespace Rule

/-- A rule whose patterns are words and whose condition, if any, has no empty conjunction. -/
structure IsWritable (rule : Rule) : Prop where
  target : IsWord rule.target.source.toList
  condition : ∀ condition ∈ rule.condition, condition.IsWritable

/-- The rule with its condition flattened. -/
def flattened (rule : Rule) : Rule :=
  { rule with condition := rule.condition.map (·.flattened) }

theorem text_flattened {rule : Rule} (h : rule.IsWritable) : rule.flattened.text = rule.text := by
  obtain ⟨action, target, condition⟩ := rule
  cases condition with
  | none => rfl
  | some condition =>
      have htext := Condition.text_flattened (h.condition condition rfl)
      simp [flattened, text, htext]

theorem isExpressible_flattened {rule : Rule} (h : rule.IsWritable) :
    rule.flattened.IsExpressible := by
  constructor
  · exact h.target
  · intro condition hcondition
    obtain ⟨tree, htree, rfl⟩ := Option.map_eq_some_iff.1 hcondition
    exact (h.condition tree htree).isExpressible_flattened

/-- The text of a rule, whatever tree its condition is, is read back as the rule with that condition
flattened: the same target, one operand by itself or several as one conjunction, and each negation
in front of the first operand it stood above. Where no negation stands above several operands, the
condition that is read holds in the same directories of any disk. -/
theorem ofText_text_eq_flattened {rule : Rule} (h : rule.IsWritable) :
    ofText rule.text = .ok [rule.flattened] ∧
      ∀ condition ∈ rule.condition, condition.NegatesSingly → ∀ disk path,
        condition.flattened.holds disk path = condition.holds disk path := by
  constructor
  · have hone : ∀ other ∈ [rule.flattened], other.IsExpressible := by
      simpa using isExpressible_flattened h
    have hback := ofText_listText hone
    rw [← text_flattened h]
    exact hback
  · intro condition hcondition hsingly disk path
    exact Condition.holds_flattened disk path (h.condition condition hcondition) hsingly

/-- Conjunctions within each other and one between two negations. -/
def nestedTree : Condition :=
  .every [.negated (.every [.negated (.present .child ⟨"and"⟩)]),
    .every [.present .here ⟨"not"⟩, .every [.present .parents ⟨"*"⟩]]]

/-- The tree above is read back as one conjunction of three operands, which means the same. -/
theorem ofText_text_of_nested :
    IsWritable ⟨.delete, ⟨"#"⟩, some nestedTree⟩ ∧ nestedTree.NegatesSingly ∧
      ofText (text ⟨.delete, ⟨"#"⟩, some nestedTree⟩) =
        .ok [⟨.delete, ⟨"#"⟩, some (.every [.negated (.negated (.present .child ⟨"and"⟩)),
          .present .here ⟨"not"⟩, .present .parents ⟨"*"⟩])⟩] ∧
      ∀ disk path, nestedTree.flattened.holds disk path = nestedTree.holds disk path := by
  have hwords : IsWord "#".toList ∧ IsWord "and".toList ∧ IsWord "not".toList ∧
      IsWord "*".toList := by
    decide
  have htree : nestedTree.IsWritable := by
    refine .every (by simp) ?_
    simp only [List.forall_mem_cons, List.not_mem_nil, IsEmpty.forall_iff, implies_true, and_true]
    refine ⟨.negated (.every (by simp) ?_), .every (by simp) ?_⟩
    · simpa using .negated (.present hwords.2.1)
    · simpa using ⟨.present hwords.2.2.1, .every (by simp) (by simpa using .present hwords.2.2.2)⟩
  have hsingly : nestedTree.NegatesSingly := by
    refine .every ?_
    simp only [List.forall_mem_cons, List.not_mem_nil, IsEmpty.forall_iff, implies_true, and_true]
    refine ⟨.negated (by decide) (.every ?_), .every ?_⟩
    · simpa using .negated (by decide) .present
    · simpa using ⟨.present, .every (by simpa using .present)⟩
  have hrule : IsWritable ⟨.delete, ⟨"#"⟩, some nestedTree⟩ := ⟨hwords.1, by simpa using htree⟩
  obtain ⟨hread, hmeans⟩ := ofText_text_eq_flattened hrule
  exact ⟨hrule, hsingly, hread, hmeans nestedTree rfl hsingly⟩

/-- A negated conjunction is read back with its first operand negated. -/
example : (Condition.negated (.every [.present .here ⟨"a"⟩, .present .here ⟨"b"⟩])).flattened =
    .every [.negated (.present .here ⟨"a"⟩), .present .here ⟨"b"⟩] :=
  rfl

end Rule

end Sweep
