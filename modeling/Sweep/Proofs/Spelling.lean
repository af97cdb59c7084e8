import Mathlib
import Sweep.Proofs.Disk.Spelled
import Sweep.Proofs.Scan.Linked
import Sweep.Proofs.Scan.Story
import Sweep.Scan.Reaction
/-!
# Spellings of a root

A path can be spelled in many ways: with idle steps, with steps up, from the working directory or from
the root. The folded absolute path is what is left of all that. It can be told by walking the steps of
the spelling on a stack of names: a name is pushed, a step up pops the last name, and at the root there
is none to pop.

Conditions and scans take their path only by its folded absolute form. So a spelling can be exchanged
for another one of the same form, and all that a scan tells begins with that form.

## Main results

* `walks_iff` — walking a spelling is folding its components.
* `walks_absolutize` — the folded absolute path of a path is what its walk leaves.
* `snapshot_within`, `scan_within` — a scan collects and tells of nothing but what lies at its root or
  below it.
* `scan_of_absolutize` — spellings of one path are as good as each other.
-/

namespace Sweep

open Disk

namespace Path

/-! ## Walking a spelling -/

/-- What is left of a stack of names when steps are walked. -/
inductive Walks : List Bytes → List Bytes → List Bytes → Prop where
  | done (names : List Bytes) : Walks names [] names
  /-- An empty step or a dot stays. -/
  | stay {names steps last : List Bytes} {step : Bytes} (hidle : isIdle step = true)
      (rest : Walks names steps last) : Walks names (step :: steps) last
  /-- Two dots take the last name away. -/
  | up {names steps last : List Bytes} {name : Bytes} (rest : Walks names steps last) :
      Walks (names ++ [name]) (dotDot :: steps) last
  /-- At the root they stay. -/
  | top {steps last : List Bytes} (rest : Walks [] steps last) : Walks [] (dotDot :: steps) last
  /-- Any other step is a name. -/
  | enter {names steps last : List Bytes} {name : Bytes} (hname : isIdle name = false)
      (hup : name ≠ dotDot) (rest : Walks (names ++ [name]) steps last) :
      Walks names (name :: steps) last

/-- The names that are left of a stack when steps are walked. -/
def walkSteps (names steps : List Bytes) : List Bytes :=
  ((steps.filter (!isIdle ·)).map componentOfStep).foldl foldStep names

theorem isIdle_dotDot : isIdle dotDot = false := by decide

theorem walkSteps_idle {step : Bytes} (hidle : isIdle step = true) (names steps : List Bytes) :
    walkSteps names (step :: steps) = walkSteps names steps := by
  rw [walkSteps, List.filter_cons_of_neg (by simp [hidle]), walkSteps]

theorem walkSteps_dotDot (names steps : List Bytes) :
    walkSteps names (dotDot :: steps) = walkSteps names.dropLast steps := by
  rw [walkSteps, List.filter_cons_of_pos (by simp [isIdle_dotDot]), walkSteps, List.map_cons,
    List.foldl_cons]
  rfl

theorem walkSteps_name {name : Bytes} (hname : isIdle name = false) (hup : name ≠ dotDot)
    (names steps : List Bytes) :
    walkSteps names (name :: steps) = walkSteps (names ++ [name]) steps := by
  have hcomponent : componentOfStep name = .name name := if_neg hup
  rw [walkSteps, List.filter_cons_of_pos (by simp [hname]), walkSteps, List.map_cons,
    List.foldl_cons, hcomponent]
  rfl

/-- Walking steps is folding their components. -/
theorem walks_iff {names steps last : List Bytes} :
    Walks names steps last ↔ last = walkSteps names steps := by
  constructor
  · intro h
    induction h with
    | done names => rfl
    | stay hidle rest ih => rw [ih, walkSteps_idle hidle]
    | up rest ih => rw [ih, walkSteps_dotDot, List.dropLast_concat]
    | top rest ih => rw [ih, walkSteps_dotDot, List.dropLast_nil]
    | enter hname hup rest ih => rw [ih, walkSteps_name hname hup]
  · rintro rfl
    induction steps generalizing names with
    | nil => exact .done names
    | cons step rest ih =>
        by_cases hidle : isIdle step = true
        · rw [walkSteps_idle hidle]
          exact .stay hidle ih
        · by_cases hup : step = dotDot
          · subst hup
            rw [walkSteps_dotDot]
            rcases List.eq_nil_or_concat names with rfl | ⟨front, name, rfl⟩
            · exact .top ih
            · rw [List.concat_eq_append, List.dropLast_concat]
              exact .up ih
          · have hname : isIdle step = false := by simpa using hidle
            rw [walkSteps_name hname hup]
            exact .enter hname hup ih

theorem steps_fold (path : Path) : path.fold.steps = walkSteps [] path.steps := by
  simp only [fold, components, walkSteps, List.foldl_append, foldl_foldStep_head]

theorem walkSteps_append (names front back : List Bytes) :
    walkSteps names (front ++ back) = walkSteps (walkSteps names front) back := by
  simp [walkSteps]

theorem walkSteps_of_isFolded {path : Path} (hfolded : path.IsFolded) :
    walkSteps [] path.steps = path.steps := by
  rw [← steps_fold, fold_eq_self hfolded]

/-- A path that does not begin at the root is put after the working directory, but for idle steps. -/
theorem exists_absolute? (base : Path) {path : Path} (hne : path ≠ empty)
    (hrooted : path.rooted = false) :
    ∃ absolute, absolute? (some base) path = some absolute ∧
      absolute.steps.filter (!isIdle ·) = (base.steps ++ path.steps).filter (!isIdle ·) := by
  have habsolute : absolute? (some base) path = some
      ⟨true, if path.endsSlash && base.steps ++ path.steps.filter (!isIdle ·) ≠ [] then
        (base.steps ++ path.steps.filter (!isIdle ·)) ++ [[]]
        else base.steps ++ path.steps.filter (!isIdle ·)⟩ := by
    rw [absolute?, if_neg hne, hrooted]
    rfl
  refine ⟨_, habsolute, ?_⟩
  rw [filter_counting_close, List.filter_append, List.filter_append, List.filter_filter]
  simp only [Bool.and_self]

/-- A path that can be made absolute is walked from the working directory, or from the root if it
begins there. -/
theorem walks_absolutize {working : Option Path} {base path : Path} (hfolded : base.IsFolded)
    (hne : path ≠ empty) (hfrom : path.rooted = true ∨ working = some base) :
    Walks (if path.rooted then [] else base.steps) path.steps (absolutize working path).steps := by
  rw [walks_iff]
  cases hrooted : path.rooted with
  | true =>
      rw [absolutize_of_rooted _ hrooted, steps_fold]
      rfl
  | false =>
      obtain rfl := hfrom.resolve_left (by simp [hrooted])
      obtain ⟨absolute, habsolute, hnames⟩ := exists_absolute? base hne hrooted
      have hwalk : walkSteps [] absolute.steps = walkSteps [] (base.steps ++ path.steps) := by
        rw [walkSteps, hnames, walkSteps]
      rw [absolutize, habsolute, Option.getD_some, steps_fold, hwalk, walkSteps_append,
        walkSteps_of_isFolded hfolded]
      rfl

theorem rooted_absolutize {working : Option Path} {path : Path}
    (h : absolute? working path ≠ none) : (absolutize working path).rooted = true := by
  obtain ⟨absolute, habsolute⟩ := Option.ne_none_iff_exists'.1 h
  rw [absolutize, habsolute]
  show absolute.rooted = true
  exact rooted_of_absolute? habsolute

/-- What is folded and absolute stays as it is. -/
theorem absolutize_absolutize (working : Option Path) (path : Path) :
    absolutize working (absolutize working path) = absolutize working path := by
  cases habsolute : absolute? working path with
  | some absolute =>
      have hfolded : (absolutize working path).IsFolded := isFolded_fold _
      rw [absolutize_of_rooted working (rooted_absolutize (by simp [habsolute])), fold_eq_self hfolded]
  | none =>
      have hfold : absolutize working path = path.fold := by
        rw [absolutize, habsolute, Option.getD_none]
      have hagain : absolute? working path.fold = none := by
        refine absolute?_eq_none_iff.2 ((absolute?_eq_none_iff.1 habsolute).imp ?_ id)
        rintro rfl
        rfl
      rw [hfold, absolutize, hagain, Option.getD_none, fold_eq_self (isFolded_fold path)]

/-! ## What names lead to -/

theorem rooted_descend (path : Path) (names : Place) : (path.descend names).rooted = path.rooted := by
  induction names generalizing path with
  | nil => rfl
  | cons name rest ih => exact ih (path.child name.bytes)

theorem IsFolded.contains_descend {path : Path} (h : path.IsFolded) (names : Place) :
    path.Contains (path.descend names) :=
  ⟨(path.rooted_descend names).symm, by simp [h.steps_descend]⟩

end Path

/-! ## Conditions -/

theorem Disk.absolutize_absolutize (disk : Disk) (path : Path) :
    disk.absolutize (disk.absolutize path) = disk.absolutize path :=
  Path.absolutize_absolutize disk.workingPath? path

section Conditions

variable (disk : Disk) (path : Path)

mutual

/-- A condition holds in a directory however its path is spelled. -/
theorem Condition.holds_absolutize (condition : Condition) :
    condition.holds disk (disk.absolutize path) = condition.holds disk path := by
  cases condition with
  | present vicinity pattern => simp only [Condition.holds, disk.absolutize_absolutize]
  | negated condition =>
      simp only [Condition.holds, Condition.holds_absolutize condition]
  | every conditions => simp only [Condition.holds, allHold_absolutize conditions]
termination_by structural condition

theorem allHold_absolutize (conditions : List Condition) :
    allHold disk (disk.absolutize path) conditions = allHold disk path conditions := by
  cases conditions with
  | nil => rfl
  | cons condition rest =>
      simp only [allHold, Condition.holds_absolutize condition, allHold_absolutize rest]
termination_by structural conditions

end

theorem applies_absolutize (condition : Option Condition) :
    applies disk (disk.absolutize path) condition = applies disk path condition := by
  cases condition with
  | none => rfl
  | some condition => exact Condition.holds_absolutize disk path condition

end Conditions

/-! ## What a scan tells of -/

/-- Names lead from a path to another one. -/
def Path.LeadsTo (root path : Path) : Prop :=
  ∃ names : Place, path = root.descend names

theorem Path.LeadsTo.contains {root path : Path} (hfolded : root.IsFolded) (h : root.LeadsTo path) :
    root.Contains path := by
  obtain ⟨names, rfl⟩ := h
  exact hfolded.contains_descend names

/-- All that is collected and told of lies at or below a root. -/
structure Collection.Within (root : Path) (collection : Collection) : Prop where
  told : ∀ event ∈ collection.progress.trace, root.LeadsTo event.path
  seen : ∀ directory ∈ collection.directories, root.LeadsTo directory

namespace Collection.Within

variable {root : Path} {collection : Collection} (h : collection.Within root) (observer : Observer)

include h

theorem visit (names : Place) (kind : Kind) :
    ((snapshotVisitor observer).visit ⟨root.descend names, names, kind⟩ collection).1.Within root where
  told := by
    rw [progress_visit_snapshot]
    exact h.told
  seen := by
    intro directory hmem
    rcases mem_visit_snapshot.1 hmem with hbefore | ⟨-, rfl⟩
    · exact h.seen directory hbefore
    · exact ⟨names, rfl⟩

theorem fail (names : Place) (fault : Fault) :
    ((snapshotVisitor observer).fail (root.descend names) fault collection).Within root where
  told := by
    intro event hmem
    rcases List.mem_cons.1 hmem with rfl | hbefore
    · exact ⟨names, rfl⟩
    · exact h.told event hbefore
  seen := h.seen

end Collection.Within

/-- What a scan collects, and what it tells meanwhile, lies at or below its root. -/
theorem snapshot_within (observer : Observer) (root : Path) (progress : Progress)
    (htrace : ∀ event ∈ progress.trace, root.LeadsTo event.path) :
    (∀ event ∈ (snapshot observer root progress).1.trace, root.LeadsTo event.path) ∧
      ∀ directory ∈ (snapshot observer root progress).2, root.LeadsTo directory := by
  have hwithin : ((snapshotVisitor observer).run root true ⟨progress, [], []⟩).Within root :=
    Visitor.run_keeps_below root (Collection.Within root)
      (fun names kind _ _ h => h.visit observer names kind)
      (fun names fault _ h => h.fail observer names fault) true
      (fun _ kind _ h => h.visit observer [] kind) _ ⟨htrace, by simp⟩
  refine ⟨hwithin.told, fun directory hmem => ?_⟩
  rw [snapshot, List.mem_filter, List.mem_reverse] at hmem
  exact hwithin.seen directory hmem.1

theorem Hit.path_of_mem_events {hit : Hit} {event : Event} (h : event ∈ hit.events) :
    event.path = hit.path := by
  rcases hit.events_cases with hevents | hevents | ⟨fault, hevents⟩
  · rw [hevents, List.mem_singleton] at h
    rw [h, Event.path]
  · rw [hevents, List.mem_pair] at h
    rcases h with rfl | rfl <;> rfl
  · rw [hevents, List.mem_pair] at h
    rcases h with rfl | rfl <;> rfl

section Visit

variable {root : Path} {visit : Visit} (hroot : root.LeadsTo visit.directory)

include hroot

theorem Visit.leadsTo_of_mem_hits {hit : Hit} (h : hit ∈ visit.hits) : root.LeadsTo hit.path := by
  obtain ⟨front, hfront⟩ := hroot
  obtain ⟨names, -, hpath, -, -⟩ := visit.named hit h
  exact ⟨front ++ names, by rw [hpath, hfront, Path.descend_append]⟩

/-- What is told of a visit lies at or below its directory. -/
theorem Visit.leadsTo_of_mem_events {event : Event} (h : event ∈ visit.events) :
    root.LeadsTo event.path := by
  rcases List.mem_cons.1 h with rfl | hlater
  · exact hroot
  · obtain ⟨hit, hhit, hevent⟩ := List.mem_flatMap.1 hlater
    rw [Hit.path_of_mem_events hevent]
    exact visit.leadsTo_of_mem_hits hroot hhit

end Visit

/-- All that a scan tells of and finds lies at or below its root, whatever others do meanwhile. -/
theorem scan_within (observer : Observer) (mode : Mode) (disk : Disk) (root : Path)
    (rules : List Rule) :
    (∀ event ∈ (scan observer mode disk root rules).events,
      (disk.absolutize root).LeadsTo event.path) ∧
      ∀ path ∈ (scan observer mode disk root rules).found, (disk.absolutize root).LeadsTo path := by
  let started := Progress.tell observer (.started (disk.absolutize root) rules.length) ⟨disk, [], []⟩
  have hself : (disk.absolutize root).LeadsTo (disk.absolutize root) := ⟨[], rfl⟩
  have hstarted : ∀ event ∈ started.trace, (disk.absolutize root).LeadsTo event.path := by
    intro event hmem
    rw [List.mem_singleton.1 hmem]
    exact hself
  obtain ⟨htold, hseen⟩ := snapshot_within observer (disk.absolutize root) started hstarted
  obtain ⟨failures, hcollected⟩ := snapshot_course observer mode (disk.absolutize root) started
  obtain ⟨visits, hturns, hcourse⟩ := applyAll_visits observer mode
    (snapshot observer (disk.absolutize root) started).2 rules
    (snapshot observer (disk.absolutize root) started).1
  have hvisits : ∀ visit ∈ visits, (disk.absolutize root).LeadsTo visit.directory := by
    intro visit hvisit
    have hturn := List.mem_map_of_mem (f := Visit.turn) hvisit
    rw [hturns, List.mem_flatMap] at hturn
    obtain ⟨rule, -, hdirectory⟩ := hturn
    obtain ⟨directory, hmem, hsame⟩ := List.mem_map.1 hdirectory
    exact (Prod.mk.inj hsame).2 ▸ hseen directory hmem
  obtain ⟨htrace, hfound⟩ := hcourse.told
  rw [List.flatMap_assoc] at htrace hfound
  let last := applyAll observer mode (snapshot observer (disk.absolutize root) started).2 rules
    (snapshot observer (disk.absolutize root) started).1
  have hevents : (scan observer mode disk root rules).events =
      last.trace.reverse ++ [.finished (disk.absolutize root) last.found.length] := List.reverse_cons
  have hmatches : (scan observer mode disk root rules).found = last.found.reverse := rfl
  constructor
  · intro event hmem
    rw [hevents, htrace, List.mem_append, List.mem_append, List.mem_reverse,
      List.mem_singleton] at hmem
    rcases hmem with (hbefore | hvisited) | rfl
    · exact htold event hbefore
    · obtain ⟨visit, hvisit, hevent⟩ := List.mem_flatMap.1 hvisited
      rw [visit.flatMap_events] at hevent
      exact visit.leadsTo_of_mem_events (hvisits visit hvisit) hevent
    · exact hself
  · intro path hmem
    rw [hmatches, hfound, hcollected.told.2, flatMap_walkFailure_paths] at hmem
    obtain ⟨visit, hvisit, hpath⟩ := List.mem_flatMap.1 hmem
    rw [visit.flatMap_paths] at hpath
    obtain ⟨hit, hhit, rfl⟩ := List.mem_map.1 hpath
    exact visit.leadsTo_of_mem_hits (hvisits visit hvisit) hhit

/-- How a path is spelled does not matter. Its folded absolute path is its own, and is what is left of
a walk along the steps of the spelling, from the root or from the working directory. Conditions hold
at the path where they hold at that one, and scans of both come to the same; all that they tell of
and find begins with it. -/
theorem scan_of_absolutize (disk : Disk) (path : Path) :
    (∀ working, Path.absolutize working (Path.absolutize working path) =
      Path.absolutize working path) ∧
      (path ≠ .empty → (path.rooted = true ∨ disk.hasWorking = true) →
        (disk.absolutize path).rooted = true ∧ (disk.absolutize path).IsFolded ∧
        Path.Walks (if path.rooted then [] else (pathOf disk.working).steps) path.steps
          (disk.absolutize path).steps) ∧
      (∀ condition, applies disk path condition = applies disk (disk.absolutize path) condition) ∧
      ∀ observer mode rules,
        scan observer mode disk path rules = scan observer mode disk (disk.absolutize path) rules ∧
        (∀ event ∈ (scan observer mode disk path rules).events,
          (disk.absolutize path).Contains event.path) ∧
        ∀ found ∈ (scan observer mode disk path rules).found,
          (disk.absolutize path).Contains found := by
  have hfolded : (disk.absolutize path).IsFolded := Path.isFolded_fold _
  refine ⟨fun working => Path.absolutize_absolutize working path, ?_, ?_, ?_⟩
  · intro hne hfrom
    have hworking : path.rooted = true ∨ disk.workingPath? = some (pathOf disk.working) :=
      hfrom.imp id fun hhas => if_pos hhas
    have habsolute : Path.absolute? disk.workingPath? path ≠ none := by
      rw [Ne, Path.absolute?_eq_none_iff, not_or, not_and]
      refine ⟨hne, fun hrooted => ?_⟩
      rw [hworking.resolve_left (by simp [hrooted])]
      simp
    exact ⟨Path.rooted_absolutize habsolute, hfolded,
      Path.walks_absolutize (isFolded_pathOf disk.working) hne hworking⟩
  · intro condition
    exact (applies_absolutize disk path condition).symm
  · intro observer mode rules
    obtain ⟨hevents, hfound⟩ := scan_within observer mode disk path rules
    refine ⟨?_, ?_, ?_⟩
    · rw [scan, scan, disk.absolutize_absolutize]
    · exact fun event hmem => (hevents event hmem).contains hfolded
    · exact fun found hmem => (hfound found hmem).contains hfolded

/-- A disk with a directory `/w` that holds the working directory `d`. -/
def innerDisk : Disk :=
  { Disk.ofLeaves [("/w/d", .empty)] with working := .ofText "/w/d" }

/-- From the working directory, three steps up are as many as two. -/
theorem scan_of_absolutize_of_steps_up :
    Path.ofText "../../../w//./d/.." ≠ .empty ∧ innerDisk.hasWorking = true ∧
      innerDisk.absolutize (Path.ofText "../../../w//./d/..") = Path.ofText "/w" ∧
      Path.Walks (Path.ofText "/w/d").steps (Path.ofText "../../../w//./d/..").steps
        (Path.ofText "/w").steps ∧
      ∀ mode rules, scan .idle mode innerDisk (Path.ofText "../../../w//./d/..") rules =
        scan .idle mode innerDisk (Path.ofText "/w") rules := by
  have hne : Path.ofText "../../../w//./d/.." ≠ .empty := by decide +kernel
  have hworking : innerDisk.hasWorking = true := by cbv
  have hfolded : innerDisk.absolutize (Path.ofText "../../../w//./d/..") = Path.ofText "/w" := by
    cbv
  obtain ⟨-, hwalks, -, hscans⟩ :=
    scan_of_absolutize innerDisk (Path.ofText "../../../w//./d/..")
  obtain ⟨-, -, hwalk⟩ := hwalks hne (Or.inr hworking)
  refine ⟨hne, hworking, hfolded, ?_, fun mode rules => ?_⟩
  · rw [hfolded] at hwalk
    exact hwalk
  · rw [(hscans .idle mode rules).1, hfolded]

end Sweep
