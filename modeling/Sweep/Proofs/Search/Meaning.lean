import Mathlib
import Sweep.Proofs.Disk.Spelled
import Sweep.Proofs.Search.Around
/-!
# What a condition means

A question holds if some directory around shows an entry with a matching name, and a condition is the
boolean reading of its questions.

Nothing in this is about order. A disk hands out the entries of a directory in any order, and each
time in another one; `Disk.Searches` collects what a search may then find, and `Condition.MayAnswer`
what the evaluation may answer. A search always ends, because no path is longer than `pathLimit`, and
whatever the order, it finds the same directories. So there is one answer.

## Main results

* `Disk.Searches.mem_iff` — a search finds the directories around, whatever the order.
* `exists_searches` — it ends.
* `holds_iff_means` — a condition holds exactly if it does by its meaning, whatever the order.
-/

namespace Sweep

open Disk

/-! ## The meaning of a condition -/

mutual

/-- What it means that a condition holds in a directory. -/
def Condition.Means (disk : Disk) (directory : Path) : Condition → Prop
  | .present vicinity pattern =>
    ∃ found, vicinity.Around disk directory found ∧
      ∃ name kind, disk.Shows found name kind ∧ pattern.accepts name.text = true
  | .negated condition => ¬ condition.Means disk directory
  | .every conditions => AllMean disk directory conditions
termination_by structural condition => condition

/-- What it means that all conditions hold in a directory. -/
def AllMean (disk : Disk) (directory : Path) : List Condition → Prop
  | [] => True
  | condition :: rest => condition.Means disk directory ∧ AllMean disk directory rest
termination_by structural conditions => conditions

end

/-! ## Searching in any order -/

/-- The entries of a directory in the order in which the disk hands them out. -/
def Disk.Enumerates (disk : Disk) (path : Path) (listing : Listing) : Prop :=
  listing.Perm (disk.entries path)

/-- The directories among the entries of a directory. -/
def directoriesOf (path : Path) (listing : Listing) : List Path :=
  (listing.filter (·.2 = .directory)).map fun entry => path.child entry.1.bytes

/-- What a walk comes upon that has some directories left to enter: each of them, followed by what
is below it. -/
inductive Disk.Tours (disk : Disk) : List Path → List Path → Prop where
  | done : Tours disk [] []
  | enter {directory : Path} {rest inner more : List Path} {listing : Listing}
      (hlisting : disk.Enumerates directory listing)
      (hinner : Tours disk (directoriesOf directory listing) inner) (hmore : Tours disk rest more) :
      Tours disk (directory :: rest) (directory :: (inner ++ more))

/-- What a search for a vicinity may find. -/
inductive Disk.Searches (disk : Disk) (directory : Path) : Vicinity → List Path → Prop where
  | here : Searches disk directory .here [directory]
  | parent : Searches disk directory .parent directory.parent?.toList
  | parents : Searches disk directory .parents directory.above
  | child {listing : Listing} (hlisting : disk.Enumerates directory listing) :
      Searches disk directory .child (directoriesOf directory listing)
  | children {listing : Listing} {found : List Path} (hlisting : disk.Enumerates directory listing)
      (htour : disk.Tours (directoriesOf directory listing) found) :
      Searches disk directory .children found
  | sibling {holder : Path} {listing : Listing} (hholder : directory.parent? = some holder)
      (hlisting : disk.Enumerates holder listing) :
      Searches disk directory .sibling
        ((directoriesOf holder listing).filter (·.fileName? ≠ directory.fileName?))
  | alone (hnone : directory.parent? = none) : Searches disk directory .sibling []

/-- What looking through the entries of a directory for a match may answer. -/
def Disk.MayMatch (disk : Disk) (pattern : Glob) (path : Path) (answer : Bool) : Prop :=
  ∃ listing, disk.Enumerates path listing ∧
    answer = listing.any fun entry => pattern.accepts entry.1.text

mutual

/-- What the evaluation of a condition may answer in a directory. -/
def Condition.MayAnswer (disk : Disk) (directory : Path) : Condition → Bool → Prop
  | .present vicinity pattern, answer =>
    ∃ found answers, disk.Searches directory vicinity found ∧
      List.Forall₂ (disk.MayMatch pattern) found answers ∧ answer = answers.any id
  | .negated condition, answer => condition.MayAnswer disk directory (!answer)
  | .every conditions, answer => AllMayAnswer disk directory conditions answer
termination_by structural condition => condition

/-- What the evaluation of all conditions may answer in a directory. -/
def AllMayAnswer (disk : Disk) (directory : Path) : List Condition → Bool → Prop
  | [], answer => answer = true
  | condition :: rest, answer =>
    ∃ first others, condition.MayAnswer disk directory first ∧
      AllMayAnswer disk directory rest others ∧ answer = (first && others)
termination_by structural conditions => conditions

end

variable {disk : Disk} {directory : Path}

/-! ## Every search ends, and finds the same -/

theorem directoriesOf_perm {listing : Listing} (h : disk.Enumerates directory listing) :
    (directoriesOf directory listing).Perm (disk.directoriesIn directory) :=
  (h.filter _).map _

/-- What is below a directory are its children and what is below them. -/
theorem transGen_child_iff_of_enumerates {listing : Listing} {path : Path}
    (h : disk.Enumerates directory listing) :
    Relation.TransGen disk.Child directory path ↔
      ∃ child ∈ directoriesOf directory listing,
        path = child ∨ Relation.TransGen disk.Child child path := by
  simp only [(directoriesOf_perm h).mem_iff, mem_directoriesIn_iff]
  rw [Relation.TransGen.head'_iff]
  simp only [Relation.reflTransGen_iff_eq_or_transGen]

/-- A walk comes upon the directories that it has left to enter, and upon what is below them. -/
theorem Disk.Tours.mem_iff {todo found : List Path} {path : Path} (h : disk.Tours todo found) :
    path ∈ found ↔
      ∃ first ∈ todo, path = first ∨ Relation.TransGen disk.Child first path := by
  induction h with
  | done => simp
  | @enter directory rest inner more listing hlisting hinner hmore ihinner ihmore =>
      rw [← transGen_child_iff_of_enumerates hlisting] at ihinner
      simp only [List.mem_cons, List.mem_append, ihinner, ihmore, exists_eq_or_imp, or_assoc]

/-- Whatever the order, a search finds the directories around. -/
theorem Disk.Searches.mem_iff (hfolded : directory.IsFolded) {vicinity : Vicinity}
    {found : List Path} {path : Path} (h : disk.Searches directory vicinity found) :
    path ∈ found ↔ vicinity.Around disk directory path := by
  cases h with
  | here => exact Vicinity.mem_directories_iff hfolded .here
  | parent => exact Vicinity.mem_directories_iff hfolded .parent
  | parents => exact Vicinity.mem_directories_iff hfolded .parents
  | child hlisting =>
      rw [(directoriesOf_perm hlisting).mem_iff]
      exact Vicinity.mem_directories_iff hfolded .child
  | children hlisting htour =>
      rw [htour.mem_iff, ← transGen_child_iff_of_enumerates hlisting]
      rfl
  | sibling hholder hlisting =>
      rw [((directoriesOf_perm hlisting).filter _).mem_iff,
        ← Vicinity.mem_directories_iff hfolded .sibling, Vicinity.directories, hholder]
  | alone hnone => rw [← Vicinity.mem_directories_iff hfolded .sibling, Vicinity.directories, hnone]

/-- The path of a child is longer than that of a directory that can be listed. -/
theorem Disk.Child.measure_lt {child : Path} (h : disk.Child directory child) :
    pathLimit - child.length < pathLimit - directory.length := by
  obtain ⟨name, hshows, rfl⟩ := h
  obtain ⟨place, rights, held, node, hplace, hat, hread, -⟩ := hshows
  have hlimit := length_lt_of_list (list_eq_ok_iff.2 ⟨place, rights, held, hplace, hat, hread, rfl⟩)
  have hlonger := Path.length_bytes_child directory name.proper.1
  omega

/-- A walk ends, whatever directories it has left to enter: no path is longer than `pathLimit`. -/
theorem exists_tours (disk : Disk) (todo : List Path) : ∃ found, disk.Tours todo found := by
  suffices hdepth : ∀ depth todo, (∀ directory ∈ todo, pathLimit - directory.length < depth) →
      ∃ found, disk.Tours todo found from hdepth (pathLimit + 1) todo fun _ _ => by omega
  intro depth
  induction depth with
  | zero =>
      intro todo htodo
      cases todo with
      | nil => exact ⟨[], .done⟩
      | cons directory rest => exact absurd (htodo directory List.mem_cons_self) (Nat.not_lt_zero _)
  | succ depth ih =>
      intro todo htodo
      induction todo with
      | nil => exact ⟨[], .done⟩
      | cons directory rest ihrest =>
          obtain ⟨more, hmore⟩ := ihrest fun other hother => htodo other (List.mem_cons_of_mem _ hother)
          have hinner : ∀ child ∈ directoriesOf directory (disk.entries directory),
              pathLimit - child.length < depth := by
            intro child hchild
            have hlt := (mem_directoriesIn_iff.1 hchild).measure_lt
            have hdirectory := htodo directory List.mem_cons_self
            omega
          obtain ⟨inner, htour⟩ := ih _ hinner
          exact ⟨_, .enter (.refl _) htour hmore⟩

theorem exists_searches (disk : Disk) (directory : Path) (vicinity : Vicinity) :
    ∃ found, disk.Searches directory vicinity found := by
  cases vicinity with
  | here => exact ⟨_, .here⟩
  | parent => exact ⟨_, .parent⟩
  | parents => exact ⟨_, .parents⟩
  | child => exact ⟨_, .child (.refl _)⟩
  | children =>
      obtain ⟨found, htour⟩ := exists_tours disk (directoriesOf directory (disk.entries directory))
      exact ⟨found, .children (.refl _) htour⟩
  | sibling =>
      cases hparent : directory.parent? with
      | none => exact ⟨_, .alone hparent⟩
      | some holder => exact ⟨_, .sibling hparent (.refl _)⟩

theorem mayMatch_iff {pattern : Glob} {path : Path} {answer : Bool} :
    disk.MayMatch pattern path answer ↔ answer = disk.holdsMatch pattern path := by
  constructor
  · intro h
    obtain ⟨listing, hlisting, rfl⟩ := h
    exact hlisting.any_eq
  · rintro rfl
    exact ⟨disk.entries path, .refl _, rfl⟩

theorem forall₂_mayMatch_iff {pattern : Glob} {found : List Path} {answers : List Bool} :
    List.Forall₂ (disk.MayMatch pattern) found answers ↔
      answers = found.map (disk.holdsMatch pattern) := by
  induction found generalizing answers with
  | nil => simp
  | cons path rest ih => simp [List.forall₂_cons_left_iff, mayMatch_iff, ih]

/-! ## The answer -/

/-- Questions are asked at a normal path as it is. -/
theorem absolutize_of_isNormal (disk : Disk) (h : directory.IsNormal) :
    disk.absolutize directory = directory := by
  rw [Disk.absolutize, Path.absolutize_of_rooted _ h.rooted, Path.fold_eq_self h.folded]

mutual

theorem Condition.mayAnswer_iff (hdirectory : directory.IsNormal) (condition : Condition)
    (answer : Bool) :
    condition.MayAnswer disk directory answer ↔ answer = condition.holds disk directory := by
  cases condition with
  | present vicinity pattern =>
      have hany : ∀ found, disk.Searches directory vicinity found →
          found.any (disk.holdsMatch pattern) =
            (vicinity.directories disk directory).any (disk.holdsMatch pattern) := by
        intro found hsearch
        rw [Bool.eq_iff_iff]
        simp only [List.any_eq_true, hsearch.mem_iff hdirectory.folded,
          Vicinity.mem_directories_iff hdirectory.folded]
      simp only [Condition.MayAnswer, forall₂_mayMatch_iff, Condition.holds,
        absolutize_of_isNormal disk hdirectory]
      constructor
      · intro h
        obtain ⟨found, answers, hsearch, rfl, rfl⟩ := h
        rw [List.any_map, ← hany found hsearch]
        rfl
      · rintro rfl
        obtain ⟨found, hsearch⟩ := exists_searches disk directory vicinity
        refine ⟨found, _, hsearch, rfl, ?_⟩
        rw [List.any_map, ← hany found hsearch]
        rfl
  | negated condition =>
      rw [Condition.MayAnswer, condition.mayAnswer_iff hdirectory, Condition.holds]
      cases answer <;> simp
  | every conditions =>
      rw [Condition.MayAnswer, Condition.holds]
      exact allMayAnswer_iff hdirectory conditions answer
termination_by structural condition

theorem allMayAnswer_iff (hdirectory : directory.IsNormal) (conditions : List Condition)
    (answer : Bool) :
    AllMayAnswer disk directory conditions answer ↔ answer = allHold disk directory conditions := by
  cases conditions with
  | nil => simp [AllMayAnswer, allHold]
  | cons condition rest =>
      simp [AllMayAnswer, allHold, condition.mayAnswer_iff hdirectory,
        allMayAnswer_iff hdirectory rest]
termination_by structural conditions

end

mutual

theorem Condition.holds_iff (hdirectory : directory.IsNormal) (condition : Condition) :
    condition.holds disk directory = true ↔ condition.Means disk directory := by
  cases condition with
  | present vicinity pattern =>
      simp only [Condition.holds, absolutize_of_isNormal disk hdirectory, List.any_eq_true,
        Vicinity.mem_directories_iff hdirectory.folded, Disk.holdsMatch, Condition.Means,
        ← mem_entries_iff_shows, Prod.exists]
  | negated condition =>
      rw [Condition.holds, Condition.Means, ← condition.holds_iff hdirectory, Bool.not_eq_true',
        Bool.not_eq_true]
  | every conditions =>
      rw [Condition.holds, Condition.Means]
      exact allHold_iff hdirectory conditions
termination_by structural condition

theorem allHold_iff (hdirectory : directory.IsNormal) (conditions : List Condition) :
    allHold disk directory conditions = true ↔ AllMean disk directory conditions := by
  cases conditions with
  | nil => simp [allHold, AllMean]
  | cons condition rest =>
      rw [allHold, AllMean, Bool.and_eq_true, condition.holds_iff hdirectory,
        allHold_iff hdirectory rest]
termination_by structural conditions

end

/-- A condition holds in a directory exactly if it does by its meaning. Whatever the order in which
the disk hands out the entries of directories, this is what the evaluation answers. -/
theorem holds_iff_means (disk : Disk) (hdirectory : directory.IsNormal) (condition : Condition) :
    (condition.holds disk directory = true ↔ condition.Means disk directory) ∧
      ∀ answer, condition.MayAnswer disk directory answer ↔
        answer = condition.holds disk directory :=
  ⟨condition.holds_iff hdirectory, condition.mayAnswer_iff hdirectory⟩

/-- A disk with a directory `/w` that holds a directory `a` in which nothing may be looked up, with a
directory `s` that holds an `x`; a directory `b` that may not be read, with an `x`; and a link `l`
to `b`. -/
def shutDisk : Disk :=
  .ofLeaves [("/w/a", .directory ⟨true, true, false⟩ []), ("/w/a/s/x", .ofContent ""),
    ("/w/b", .directory ⟨false, true, true⟩ []), ("/w/b/x", .ofContent ""),
    ("/w/l", .link (Path.ofText "b").bytes)]

/-- Holds where there is an entry with a name of one character, and no `x` beside or below. -/
def shutCondition : Condition :=
  .every [.present .here ⟨"?"⟩, .negated (.present .sibling ⟨"x"⟩),
    .negated (.present .children ⟨"x"⟩)]

/-- In `/w/a` the condition holds, as no `x` is shown, and in no order it is found not to. -/
theorem holds_iff_means_of_shut :
    shutCondition.Means shutDisk (Path.ofText "/w/a") ∧
      ¬ shutCondition.MayAnswer shutDisk (Path.ofText "/w/a") false := by
  have hnormal : (Path.ofText "/w/a").IsNormal := ⟨by decide, by decide⟩
  obtain ⟨hmeans, hanswer⟩ := holds_iff_means shutDisk hnormal shutCondition
  have hholds : shutCondition.holds shutDisk (Path.ofText "/w/a") = true := by
    simp only [shutCondition, Condition.holds, allHold, Vicinity.directories,
      Disk.directoriesBelow, Visitor.run_eq_runToDepth]
    cbv
  exact ⟨hmeans.1 hholds, fun hno => absurd ((hanswer false).1 hno) (by simp [hholds])⟩

end Sweep
