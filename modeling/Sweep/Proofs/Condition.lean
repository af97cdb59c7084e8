import Sweep.Proofs.Path
import Sweep.Proofs.Walk
/-!
# Conditions while a disk is pruned

On a pruned disk a question that is answered yes was answered yes before. Negation turns that round.
So a condition that asks for yes only can cease to hold while a scan removes things, but not begin
to; one that asks for a no somewhere can begin to hold, and then holds on the disk as it was if the
questions asked for a no are taken as answered no.

## Main results

* `Condition.lenient_of_prunedWithin` — what becomes of a condition when the disk is pruned.
* `Rule.applies_lenient_of_prunedWithin` — where a rule applies on a pruned disk, its lenient form
  applied before.
* `Rule.applies_of_prunedWithin` — a steady rule applies on a pruned disk only where it applied
  before.
-/

namespace Sweep

open Disk

mutual

/-- Whether all questions of a condition are asked for this answer. A negation asks for the other
one. -/
def Condition.asksFor : Condition → Bool → Bool
  | .present .., yes => yes
  | .negated condition, yes => condition.asksFor (!yes)
  | .every conditions, yes => allAskFor conditions yes
termination_by structural condition => condition

/-- Whether all questions of some conditions are asked for this answer. -/
def allAskFor : List Condition → Bool → Bool
  | [], _ => true
  | condition :: rest, yes => condition.asksFor yes && allAskFor rest yes
termination_by structural conditions => conditions

end

/-- Whether the condition of a rule asks for yes only. -/
def Rule.isSteady (rule : Rule) : Bool :=
  rule.condition.all (·.asksFor true)

/-- A condition that never holds: the negation of the conjunction of nothing. -/
def Condition.never : Condition :=
  .negated (.every [])

mutual

/-- The condition with each question asked for the other answer than this one answered no, and all
else kept. -/
def Condition.lenient : Condition → Bool → Condition
  | .present vicinity pattern, yes => if yes then .present vicinity pattern else .never
  | .negated condition, yes => .negated (condition.lenient (!yes))
  | .every conditions, yes => .every (allLenient conditions yes)
termination_by structural condition => condition

/-- Some conditions with each question asked for the other answer than this one answered no. -/
def allLenient : List Condition → Bool → List Condition
  | [], _ => []
  | condition :: rest, yes => condition.lenient yes :: allLenient rest yes
termination_by structural conditions => conditions

end

/-- The rule with each question that its condition asks for a no answered no. -/
def Rule.lenient (rule : Rule) : Rule :=
  { rule with condition := rule.condition.map (·.lenient true) }

theorem Condition.holds_never (disk : Disk) (path : Path) :
    Condition.never.holds disk path = false := rfl

mutual

/-- In a condition that asks for one answer only, no question is answered in advance. -/
theorem Condition.lenient_of_asksFor (condition : Condition) (yes : Bool)
    (hasks : condition.asksFor yes = true) : condition.lenient yes = condition := by
  cases condition with
  | present vicinity pattern =>
      obtain rfl : yes = true := by simpa [Condition.asksFor] using hasks
      rfl
  | negated condition =>
      have hturned : condition.asksFor (!yes) = true := by simpa [Condition.asksFor] using hasks
      rw [Condition.lenient, Condition.lenient_of_asksFor condition (!yes) hturned]
  | every conditions =>
      have hall : allAskFor conditions yes = true := by simpa [Condition.asksFor] using hasks
      rw [Condition.lenient, allLenient_of_allAskFor conditions yes hall]
termination_by structural condition

theorem allLenient_of_allAskFor (conditions : List Condition) (yes : Bool)
    (hasks : allAskFor conditions yes = true) : allLenient conditions yes = conditions := by
  cases conditions with
  | nil => rfl
  | cons condition rest =>
      simp only [allAskFor, Bool.and_eq_true] at hasks
      rw [allLenient, Condition.lenient_of_asksFor condition yes hasks.1,
        allLenient_of_allAskFor rest yes hasks.2]
termination_by structural conditions

end

/-- A steady rule is its own lenient form. -/
theorem Rule.lenient_of_isSteady {rule : Rule} (hsteady : rule.isSteady = true) :
    rule.lenient = rule := by
  unfold Rule.isSteady at hsteady
  cases hcondition : rule.condition with
  | none => rw [Rule.lenient, hcondition, Option.map_none, ← hcondition]
  | some condition =>
      rw [hcondition, Option.all_some] at hsteady
      rw [Rule.lenient, hcondition, Option.map_some, Condition.lenient_of_asksFor _ _ hsteady,
        ← hcondition]

section Pruned

variable {p : Place → Prop} {old new : Disk} (hpruned : PrunedWithin p old new)

include hpruned

/-! ## Questions -/

theorem holdsMatch_of_prunedWithin {pattern : Glob} {path : Path}
    (h : new.holdsMatch pattern path = true) : old.holdsMatch pattern path = true := by
  obtain ⟨entry, hentry, hmatches⟩ := List.any_eq_true.1 h
  exact List.any_eq_true.2 ⟨entry, hpruned.mem_entries hentry, hmatches⟩

theorem mem_directoriesIn_of_prunedWithin {path directory : Path}
    (h : directory ∈ new.directoriesIn path) : directory ∈ old.directoriesIn path := by
  simp only [Disk.directoriesIn, List.mem_map, List.mem_filter] at h ⊢
  obtain ⟨entry, ⟨hentry, hkind⟩, hpath⟩ := h
  exact ⟨entry, ⟨hpruned.mem_entries hentry, hkind⟩, hpath⟩

/-- A vicinity on a pruned disk has no directory that it did not have before. -/
theorem Vicinity.mem_directories_of_prunedWithin {vicinity : Vicinity} {path directory : Path}
    (h : directory ∈ vicinity.directories new path) :
    directory ∈ vicinity.directories old path := by
  cases vicinity with
  | here => exact h
  | parent => exact h
  | parents => exact h
  | child => exact mem_directoriesIn_of_prunedWithin hpruned h
  | children =>
      obtain ⟨below, hunder⟩ := mem_directoriesBelow_iff.1 h
      exact mem_directoriesBelow_iff.2 ⟨below, hunder.of_prunedWithin hpruned⟩
  | sibling =>
      simp only [Vicinity.directories] at h ⊢
      cases hparent : path.parent? with
      | none => simp [hparent] at h
      | some holder =>
          simp only [hparent, List.mem_filter] at h ⊢
          exact ⟨mem_directoriesIn_of_prunedWithin hpruned h.1, h.2⟩

end Pruned

/-! ## Conditions -/

section Holds

variable {p : Place → Prop} {old new : Disk} {path : Path}

mutual

/-- A condition that holds on a pruned disk held before once what it asks for a no is answered no.
Below a negation it is the other way round, so both directions go through the induction. -/
theorem Condition.lenient_of_prunedWithin (hpruned : PrunedWithin p old new)
    (hrooted : path.rooted = true) (condition : Condition) :
    (condition.holds new path = true → (condition.lenient true).holds old path = true) ∧
      ((condition.lenient false).holds old path = true → condition.holds new path = true) := by
  cases condition with
  | present vicinity pattern =>
      have hno : (Condition.lenient (.present vicinity pattern) false).holds old path = false :=
        Condition.holds_never old path
      refine ⟨fun h => ?_, fun h => absurd h (by simp [hno])⟩
      simp only [Condition.lenient, if_true, Condition.holds, Disk.absolutize,
        Path.absolutize_of_rooted _ hrooted] at h ⊢
      obtain ⟨directory, hdirectory, hmatches⟩ := List.any_eq_true.1 h
      exact List.any_eq_true.2 ⟨directory, Vicinity.mem_directories_of_prunedWithin hpruned hdirectory,
        holdsMatch_of_prunedWithin hpruned hmatches⟩
  | negated condition =>
      obtain ⟨hforth, hback⟩ := Condition.lenient_of_prunedWithin hpruned hrooted condition
      simp only [Condition.lenient, Bool.not_true, Bool.not_false, Condition.holds,
        Bool.not_eq_true', ← Bool.not_eq_true]
      exact ⟨mt hback, mt hforth⟩
  | every conditions => exact allLenient_of_prunedWithin hpruned hrooted conditions
termination_by structural condition

theorem allLenient_of_prunedWithin (hpruned : PrunedWithin p old new) (hrooted : path.rooted = true)
    (conditions : List Condition) :
    (allHold new path conditions = true → allHold old path (allLenient conditions true) = true) ∧
      (allHold old path (allLenient conditions false) = true → allHold new path conditions = true) := by
  cases conditions with
  | nil => exact ⟨fun _ => rfl, fun _ => rfl⟩
  | cons condition rest =>
      obtain ⟨hforth, hback⟩ := Condition.lenient_of_prunedWithin hpruned hrooted condition
      obtain ⟨hrestForth, hrestBack⟩ := allLenient_of_prunedWithin hpruned hrooted rest
      simp only [allLenient, allHold, Bool.and_eq_true]
      exact ⟨And.imp hforth hrestForth, And.imp hback hrestBack⟩
termination_by structural conditions

end

/-- Where a rule applies on a pruned disk, its lenient form applied before. -/
theorem Rule.applies_lenient_of_prunedWithin (hpruned : PrunedWithin p old new) {rule : Rule}
    (hrooted : path.rooted = true) (h : applies new path rule.condition = true) :
    applies old path rule.lenient.condition = true := by
  unfold Rule.lenient
  cases hcondition : rule.condition with
  | none => rfl
  | some condition =>
      rw [hcondition] at h
      exact (Condition.lenient_of_prunedWithin hpruned hrooted condition).1 h

/-- A steady rule applies on a pruned disk only where it applied before. -/
theorem Rule.applies_of_prunedWithin (hpruned : PrunedWithin p old new) {rule : Rule}
    (hsteady : rule.isSteady = true) (hrooted : path.rooted = true) (h : applies new path rule.condition = true) :
    applies old path rule.condition = true := by
  have hlenient := Rule.applies_lenient_of_prunedWithin hpruned hrooted h
  rwa [Rule.lenient_of_isSteady hsteady] at hlenient

end Holds

end Sweep
