import Mathlib.Data.List.Basic
import Sweep.Proofs.Scan.Course
/-!
# What a scan tells

Whatever others do to the disk meanwhile, the events of a scan have one shape. They tell a *story*:
what could not be walked while the directories were collected, and then, rule by rule and directory
by directory, a visit with its matches. A report counts what the story tells.

## Main results

* `Report.ofEvents_adds` — a report is what its events have added.
* `scan_course` — a scan takes the course of a story.
* `failed_mem_events_scan` — what may go wrong in a scan.
* `scan_tells_story` — a scan tells a story, and its report sums the story up.
-/

namespace Sweep

open Disk

/-! ## Stories -/

/-- What is told of a scan. -/
structure Story where
  /-- What could not be walked while the directories were collected. -/
  failures : List (Path × Fault)
  visits : List Visit

namespace Story

/-- The matches of all visits. -/
def hits (story : Story) : List Hit :=
  story.visits.flatMap (·.hits)

/-- Their paths. -/
def found (story : Story) : List Path :=
  story.hits.map (·.path)

/-- The course of a scan, at a folded root and with so many rules, until all is visited. -/
def opening (story : Story) (root : Path) (rules : Nat) : List Moment :=
  .remark (.started root rules) ::
    ((story.failures.map fun failure => .remark (walkFailure failure)) ++
      story.visits.flatMap Visit.moments)

/-- The course of a scan. -/
def moments (story : Story) (root : Path) (rules : Nat) : List Moment :=
  story.opening root rules ++ [.remark (.finished root story.found.length)]

/-- The events of a scan at a folded root and with so many rules. -/
def events (story : Story) (root : Path) (rules : Nat) : List Event :=
  .started root rules ::
    (story.failures.map walkFailure ++ story.visits.flatMap Visit.events ++
      [.finished root story.found.length])

theorem flatMap_opening_events (story : Story) (root : Path) (rules : Nat) :
    (story.opening root rules).flatMap Moment.events =
      .started root rules ::
        (story.failures.map walkFailure ++ story.visits.flatMap Visit.events) := by
  have hfailures : (story.failures.map fun failure =>
      Moment.remark (walkFailure failure)).flatMap Moment.events =
        story.failures.map walkFailure := by
    rw [List.flatMap_map, List.map_eq_flatMap]
    rfl
  have hvisits : (story.visits.flatMap Visit.moments).flatMap Moment.events =
      story.visits.flatMap Visit.events := by
    simp only [List.flatMap_assoc, Visit.flatMap_events]
  rw [opening, List.flatMap_cons, List.flatMap_append, hfailures, hvisits]
  rfl

theorem flatMap_opening_paths (story : Story) (root : Path) (rules : Nat) :
    (story.opening root rules).flatMap Moment.paths = story.found := by
  have hvisits : (story.visits.flatMap Visit.moments).flatMap Moment.paths = story.found := by
    simp only [found, hits, List.flatMap_assoc, Visit.flatMap_paths, List.map_flatMap]
  rw [opening, List.flatMap_cons, List.flatMap_append, flatMap_walkFailure_paths, hvisits]
  rfl

theorem flatMap_moments_events (story : Story) (root : Path) (rules : Nat) :
    (story.moments root rules).flatMap Moment.events = story.events root rules := by
  rw [moments, List.flatMap_append, flatMap_opening_events]
  rfl

theorem flatMap_moments_paths (story : Story) (root : Path) (rules : Nat) :
    (story.moments root rules).flatMap Moment.paths = story.found := by
  rw [moments, List.flatMap_append, flatMap_opening_paths]
  exact List.append_nil _

/-- What is noted of a story, if it is noted of failures and matches only. -/
theorem flatMap_events {β : Type} (note : Event → List β) (story : Story) (root : Path)
    (rules : Nat) (hstarted : note (.started root rules) = [])
    (hentered : ∀ directory, note (.entered directory) = [])
    (hfinished : ∀ count, note (.finished root count) = []) :
    (story.events root rules).flatMap note =
      (story.failures.flatMap fun failure => note (walkFailure failure)) ++
        story.hits.flatMap fun hit => hit.events.flatMap note := by
  have hvisit : ∀ visit : Visit, visit.events.flatMap note =
      visit.hits.flatMap fun hit => hit.events.flatMap note := by
    intro visit
    rw [Visit.events, List.flatMap_cons, hentered, List.nil_append, List.flatMap_assoc]
  have hvisits : (story.visits.flatMap Visit.events).flatMap note =
      story.hits.flatMap fun hit => hit.events.flatMap note := by
    simp only [hits, List.flatMap_assoc, hvisit]
  rw [events, List.flatMap_cons, List.flatMap_append, List.flatMap_append, hstarted, hvisits,
    List.flatMap_map, List.flatMap_singleton, hfinished, List.nil_append, List.append_nil]

/-- What is noted of a story, if it is noted of matches only. -/
theorem flatMap_events_of_hits {β : Type} (note : Event → List β) (story : Story) (root : Path)
    (rules : Nat) (hstarted : note (.started root rules) = [])
    (hentered : ∀ directory, note (.entered directory) = [])
    (hfinished : ∀ count, note (.finished root count) = [])
    (hwalk : ∀ failure, note (walkFailure failure) = []) :
    (story.events root rules).flatMap note =
      story.hits.flatMap fun hit => hit.events.flatMap note := by
  have hfailures : (story.failures.flatMap fun failure => note (walkFailure failure)) = [] :=
    List.flatMap_eq_nil_iff.2 fun failure _ => hwalk failure
  rw [story.flatMap_events note root rules hstarted hentered hfinished, hfailures, List.nil_append]

end Story

/-! ## Reports -/

namespace Report

/-- The directory that an event adds to those visited. -/
def enteredBy : Event → List Path
  | .entered directory => [directory]
  | _ => []

/-- The path that an event adds to those deleted. -/
def deletedBy : Event → List Path
  | .deleted path _ => [path]
  | _ => []

/-- The error in a part of a scan that an event adds. -/
def errorsBy (home : Option Path) (phase : Phase) : Event → List String
  | .failed own path trouble => if own = phase then [errorText home own path trouble] else []
  | _ => []

/-- What an event adds to a report. -/
theorem record_adds (home : Option Path) (report : Report) (event : Event) :
    (report.record home event).visited = report.visited + (enteredBy event).length ∧
      (report.record home event).deleted = report.deleted + (deletedBy event).length ∧
      (report.record home event).errors =
        report.errors ++ (errorsBy home .traversal event ++ errorsBy home .deletion event) := by
  cases event with
  | failed phase path trouble =>
      cases phase <;> simp [record, enteredBy, deletedBy, errorsBy]
  | _ => simp [record, enteredBy, deletedBy, errorsBy]

/-- What events add to a report. -/
theorem foldl_record (home : Option Path) (events : List Event) (report : Report) :
    (events.foldl (record home) report).visited =
        report.visited + (events.flatMap enteredBy).length ∧
      (events.foldl (record home) report).deleted =
        report.deleted + (events.flatMap deletedBy).length ∧
      (events.foldl (record home) report).errors =
        report.errors ++ events.flatMap fun event =>
          errorsBy home .traversal event ++ errorsBy home .deletion event := by
  induction events generalizing report with
  | nil => simp
  | cons event rest ih =>
      obtain ⟨hvisited, hdeleted, herrors⟩ := report.record_adds home event
      obtain ⟨hvisits, hdeletions, hmore⟩ := ih (report.record home event)
      simp only [List.foldl_cons, List.flatMap_cons, List.length_append]
      refine ⟨?_, ?_, ?_⟩
      · omega
      · omega
      · rw [hmore, herrors, List.append_assoc]

/-- A report is what its events have added. -/
theorem ofEvents_adds (home : Option Path) (dryRun : Bool) (events : List Event) :
    (ofEvents home dryRun events).paths = events.flatMap foundBy ∧
      (ofEvents home dryRun events).visited = (events.flatMap enteredBy).length ∧
      (ofEvents home dryRun events).deleted = (events.flatMap deletedBy).length ∧
      (ofEvents home dryRun events).errors = events.flatMap fun event =>
        errorsBy home .traversal event ++ errorsBy home .deletion event := by
  have hpaths := paths_foldl_record home events (.start dryRun)
  obtain ⟨hvisited, hdeleted, herrors⟩ := foldl_record home events (.start dryRun)
  simp only [start, List.nil_append, Nat.zero_add] at hpaths hvisited hdeleted herrors
  exact ⟨hpaths, hvisited, hdeleted, herrors⟩

theorem mem_errorsBy {home : Option Path} {event : Event} {error : String}
    (h : error ∈ errorsBy home .traversal event ++ errorsBy home .deletion event) :
    ∃ phase path trouble, event = .failed phase path trouble ∧
      error = errorText home phase path trouble := by
  cases event with
  | failed phase path trouble =>
      refine ⟨phase, path, trouble, rfl, ?_⟩
      cases phase <;> simpa [errorsBy] using h
  | _ => simp [errorsBy] at h

/-- The errors of a report are those that its events tell of. -/
theorem mem_errors_iff {home : Option Path} {dryRun : Bool} {events : List Event} {error : String} :
    error ∈ (ofEvents home dryRun events).errors ↔
      ∃ phase path trouble, .failed phase path trouble ∈ events ∧
        error = errorText home phase path trouble := by
  rw [(ofEvents_adds home dryRun events).2.2.2, List.mem_flatMap]
  constructor
  · rintro ⟨event, hevent, herror⟩
    obtain ⟨phase, path, trouble, rfl, htext⟩ := mem_errorsBy herror
    exact ⟨phase, path, trouble, hevent, htext⟩
  · rintro ⟨phase, path, trouble, hevent, rfl⟩
    refine ⟨_, hevent, ?_⟩
    cases phase <;> simp [errorsBy]

/-- Only the start of a scan tells where it starts. -/
theorem root_foldl_record (home : Option Path) {events : List Event}
    (h : ∀ root rules, Event.started root rules ∉ events) (report : Report) :
    (events.foldl (record home) report).root = report.root := by
  induction events generalizing report with
  | nil => rfl
  | cons event rest ih =>
      have hrest : ∀ root rules, Event.started root rules ∉ rest := fun root rules hmem =>
        h root rules (List.mem_cons_of_mem _ hmem)
      rw [List.foldl_cons, ih hrest]
      cases event with
      | started root rules => exact absurd List.mem_cons_self (h root rules)
      | _ => rfl

end Report

/-- A match is not both deleted and failed to be deleted. -/
theorem Hit.deleted_or_failed (home : Option Path) (hit : Hit) :
    (hit.events.flatMap Report.deletedBy).length +
      (hit.events.flatMap (Report.errorsBy home .deletion)).length ≤ 1 := by
  rcases hit.events_cases with h | h | ⟨fault, h⟩ <;>
    simp [h, Report.deletedBy, Report.errorsBy]

theorem Hit.flatMap_errorsBy_traversal (home : Option Path) (hit : Hit) :
    hit.events.flatMap (Report.errorsBy home .traversal) = [] := by
  rcases hit.events_cases with h | h | ⟨fault, h⟩ <;> simp [h, Report.errorsBy]

theorem Hit.flatMap_enteredBy (hit : Hit) : hit.events.flatMap Report.enteredBy = [] := by
  rcases hit.events_cases with h | h | ⟨fault, h⟩ <;> simp [h, Report.enteredBy]

theorem Hit.flatMap_foundBy (hit : Hit) : hit.events.flatMap Report.foundBy = [hit.path] := by
  rcases hit.events_cases with h | h | ⟨fault, h⟩ <;> simp [h, Report.foundBy]

theorem Hit.deleted_and_failed_le (home : Option Path) (hits : List Hit) :
    (hits.flatMap fun hit => hit.events.flatMap Report.deletedBy).length +
      (hits.flatMap fun hit => hit.events.flatMap (Report.errorsBy home .deletion)).length ≤
        hits.length := by
  induction hits with
  | nil => simp
  | cons hit rest ih =>
      have hone := hit.deleted_or_failed home
      simp only [List.flatMap_cons, List.length_append, List.length_cons]
      omega

namespace Story

/-- Together, no more matches are deleted and fail to be deleted than there are. -/
theorem deleted_and_failed_le (home : Option Path) (story : Story) (root : Path) (rules : Nat) :
    ((story.events root rules).flatMap Report.deletedBy).length +
      ((story.events root rules).flatMap (Report.errorsBy home .deletion)).length ≤
        story.found.length := by
  have hdeleted := story.flatMap_events_of_hits Report.deletedBy root rules rfl (fun _ => rfl)
    (fun _ => rfl) fun _ => rfl
  have hfailed := story.flatMap_events_of_hits (Report.errorsBy home .deletion) root rules rfl
    (fun _ => rfl) (fun _ => rfl) fun _ => rfl
  rw [hdeleted, hfailed, found, List.length_map]
  exact Hit.deleted_and_failed_le home story.hits

/-- The errors of a story are those of the walk and then those of the removals. -/
theorem flatMap_errorsBy (home : Option Path) (story : Story) (root : Path) (rules : Nat) :
    ((story.events root rules).flatMap fun event =>
      Report.errorsBy home .traversal event ++ Report.errorsBy home .deletion event) =
      (story.events root rules).flatMap (Report.errorsBy home .traversal) ++
        (story.events root rules).flatMap (Report.errorsBy home .deletion) := by
  have hwalk : ∀ failure, Report.errorsBy home .traversal (walkFailure failure) ++
      Report.errorsBy home .deletion (walkFailure failure) =
        Report.errorsBy home .traversal (walkFailure failure) := fun _ => List.append_nil _
  have hhits : (story.hits.flatMap fun hit =>
      hit.events.flatMap (Report.errorsBy home .traversal)) = [] :=
    List.flatMap_eq_nil_iff.2 fun hit _ => hit.flatMap_errorsBy_traversal home
  have hhit : ∀ hit : Hit, (hit.events.flatMap fun event =>
      Report.errorsBy home .traversal event ++ Report.errorsBy home .deletion event) =
        hit.events.flatMap (Report.errorsBy home .deletion) := by
    intro hit
    have hnone := List.flatMap_eq_nil_iff.1 (hit.flatMap_errorsBy_traversal home)
    apply List.flatMap_congr
    intro event hevent
    rw [hnone event hevent, List.nil_append]
  rw [story.flatMap_events _ root rules rfl (fun _ => rfl) fun _ => rfl,
    story.flatMap_events (Report.errorsBy home .traversal) root rules rfl (fun _ => rfl)
      fun _ => rfl,
    story.flatMap_events_of_hits (Report.errorsBy home .deletion) root rules rfl (fun _ => rfl)
      (fun _ => rfl) fun _ => rfl]
  simp only [hwalk, hhits, hhit, List.append_nil]

theorem flatMap_foundBy (story : Story) (root : Path) (rules : Nat) :
    (story.events root rules).flatMap Report.foundBy = story.found := by
  rw [story.flatMap_events_of_hits Report.foundBy root rules rfl (fun _ => rfl) (fun _ => rfl)
    fun _ => rfl]
  simp only [Hit.flatMap_foundBy, found, List.map_eq_flatMap]

/-- The directories that a story tells as entered are those of its visits. -/
theorem flatMap_enteredBy (story : Story) (root : Path) (rules : Nat) :
    (story.events root rules).flatMap Report.enteredBy = story.visits.map (·.directory) := by
  have hfailures : (story.failures.map walkFailure).flatMap Report.enteredBy = [] := by
    rw [List.flatMap_map]
    exact List.flatMap_eq_nil_iff.2 fun _ _ => rfl
  have hvisit : ∀ visit : Visit, visit.events.flatMap Report.enteredBy = [visit.directory] := by
    intro visit
    have hhits : (visit.hits.flatMap fun hit => hit.events.flatMap Report.enteredBy) = [] :=
      List.flatMap_eq_nil_iff.2 fun hit _ => hit.flatMap_enteredBy
    rw [Visit.events, List.flatMap_cons, List.flatMap_assoc, hhits]
    rfl
  rw [events, List.flatMap_cons, List.flatMap_append, List.flatMap_append, hfailures,
    List.flatMap_assoc]
  simp only [hvisit, List.map_eq_flatMap]
  simp [Report.enteredBy]

/-- What a story tells after its start. -/
def told (story : Story) (root : Path) : List Event :=
  story.failures.map walkFailure ++ story.visits.flatMap Visit.events ++
    [.finished root story.found.length]

theorem mem_told {story : Story} {root : Path} {event : Event} (h : event ∈ story.told root) :
    (∃ failure ∈ story.failures, event = walkFailure failure) ∨
      (∃ directory, event = .entered directory) ∨ (∃ hit ∈ story.hits, event ∈ hit.events) ∨
        event = .finished root story.found.length := by
  rw [told, List.mem_append, List.mem_append, List.mem_singleton] at h
  rcases h with (hfailure | hvisit) | hend
  · obtain ⟨failure, hmem, rfl⟩ := List.mem_map.1 hfailure
    exact Or.inl ⟨failure, hmem, rfl⟩
  · obtain ⟨visit, hmem, hevent⟩ := List.mem_flatMap.1 hvisit
    rcases List.mem_cons.1 hevent with rfl | hhit
    · exact Or.inr (Or.inl ⟨visit.directory, rfl⟩)
    · obtain ⟨hit, hhit, hevent⟩ := List.mem_flatMap.1 hhit
      exact Or.inr (Or.inr (Or.inl ⟨hit, List.mem_flatMap_of_mem hmem hhit, hevent⟩))
  · exact Or.inr (Or.inr (Or.inr hend))

/-- A story starts once. -/
theorem started_not_mem_told (story : Story) (root other : Path) (rules : Nat) :
    Event.started other rules ∉ story.told root := by
  intro h
  rcases mem_told h with ⟨failure, -, h⟩ | ⟨directory, h⟩ | ⟨hit, -, h⟩ | h
  · cases h
  · cases h
  · rcases hit.events_cases with hevents | hevents | ⟨fault, hevents⟩ <;> simp [hevents] at h
  · cases h

/-- An error is one of the walk, or that of a match. -/
theorem failed_mem_told {story : Story} {root path : Path} {phase : Phase} {trouble : Trouble}
    (h : .failed phase path trouble ∈ story.told root) :
    (phase = .traversal ∧ ∃ fault, trouble = .walking path fault) ∨
      (phase = .deletion ∧ path ∈ story.found) := by
  rcases mem_told h with ⟨failure, -, h⟩ | ⟨directory, h⟩ | ⟨hit, hhit, h⟩ | h
  · cases h
    exact Or.inl ⟨rfl, failure.2, rfl⟩
  · cases h
  · have hfound : hit.path ∈ story.found := List.mem_map_of_mem hhit
    rcases hit.events_cases with hevents | hevents | ⟨fault, hevents⟩
    · simp [hevents] at h
    · simp [hevents] at h
    · simp only [hevents, List.mem_cons, reduceCtorEq, Event.failed.injEq, List.not_mem_nil,
        or_false, false_or] at h
      exact Or.inr ⟨h.1, h.2.1 ▸ hfound⟩
  · cases h

end Story

/-! ## The story of a scan -/

/-- The directories that a scan collects, while others may act. -/
def Disk.gathered (disk : Disk) (observer : Observer) (root : Path) (rules : List Rule) :
    List Path :=
  (snapshot observer root
    (Progress.tell observer (.started root rules.length) ⟨disk, [], []⟩)).2

/-- A story is that of a scan. -/
structure Story.IsOf (story : Story) (observer : Observer) (mode : Mode) (disk : Disk) (root : Path)
    (rules : List Rule) : Prop where
  /-- What is told: the start, what could not be walked, the visits with their matches, the end. -/
  events : (scan observer mode disk root rules).events =
    .started (disk.absolutize root) rules.length ::
      (story.failures.map walkFailure ++ story.visits.flatMap Visit.events ++
        [.finished (disk.absolutize root) (scan observer mode disk root rules).found.length])
  /-- Each rule in order visits each of the collected directories in order. -/
  turns : story.visits.map Visit.turn =
    rules.flatMap fun rule => (disk.gathered observer (disk.absolutize root) rules).map (rule, ·)
  found : (scan observer mode disk root rules).found = story.found
  /-- In a dry scan nothing more is told of a match. -/
  dry : mode = .dry → ∀ hit ∈ story.hits, hit.events = [.found hit.path]
  /-- In a live scan its removal is tried. -/
  live : mode = .live → ∀ hit ∈ story.hits, hit.IsTried
  /-- What came of the matches is what came of them in the course of the scan. -/
  course : ∃ last : Progress,
    Course observer mode ⟨disk, [], []⟩ (story.moments (disk.absolutize root) rules.length) last ∧
      scan observer mode disk root rules = ⟨last.disk, last.trace.reverse, last.found.reverse⟩

theorem Story.IsOf.events_eq {story : Story} {observer : Observer} {mode : Mode} {disk : Disk}
    {root : Path} {rules : List Rule} (h : story.IsOf observer mode disk root rules) :
    (scan observer mode disk root rules).events =
      story.events (disk.absolutize root) rules.length := by
  rw [h.events, h.found]
  rfl

/-- A scan takes the course of a story. What holds of each visit where it sets out holds of each on
the way. -/
theorem scan_course (observer : Observer) (mode : Mode) (holds : Visit → Progress → Prop)
    (hvisit : ∀ rule directory before, ∃ visit : Visit, visit.turn = (rule, directory) ∧
      Course observer mode before visit.moments (applyIn observer mode rule before directory) ∧
      holds visit before)
    (disk : Disk) (root : Path) (rules : List Rule) :
    ∃ story : Story,
      story.visits.map Visit.turn =
        (rules.flatMap fun rule =>
          (disk.gathered observer (disk.absolutize root) rules).map (rule, ·)) ∧
      (∃ last : Progress,
        Course observer mode ⟨disk, [], []⟩ (story.moments (disk.absolutize root) rules.length)
          last ∧
        scan observer mode disk root rules =
          ⟨last.disk, last.trace.reverse, last.found.reverse⟩) ∧
      ∀ earlier visit later, story.visits = earlier ++ visit :: later → ∃ before,
        Course observer mode ⟨disk, [], []⟩
            ((⟨story.failures, earlier⟩ : Story).opening (disk.absolutize root) rules.length)
            before ∧
          holds visit before := by
  let started := Progress.tell observer (.started (disk.absolutize root) rules.length) ⟨disk, [], []⟩
  obtain ⟨failures, hcollected⟩ := snapshot_course observer mode (disk.absolutize root) started
  obtain ⟨visits, hturns, happlied, hholds⟩ := applyAll_course observer mode holds hvisit
    (disk.gathered observer (disk.absolutize root) rules) rules
    (snapshot observer (disk.absolutize root) started).1
  have hready := (Course.remark ⟨disk, [], []⟩ (.started (disk.absolutize root) rules.length)).append
    hcollected
  let story : Story := ⟨failures, visits⟩
  have hopening : Course observer mode ⟨disk, [], []⟩
      (story.opening (disk.absolutize root) rules.length) _ := hready.append happlied
  have hcount := congrArg List.length hopening.told.2
  rw [story.flatMap_opening_paths] at hcount
  simp only [List.length_reverse, List.reverse_nil, List.nil_append] at hcount
  refine ⟨story, hturns, ⟨_, hopening.append (.remark _ _), ?_⟩, ?_⟩
  · rw [← hcount]
    rfl
  · intro earlier visit later hsplit
    obtain ⟨before, hbefore, hvisit⟩ := hholds earlier visit later hsplit
    exact ⟨before, hready.append hbefore, hvisit⟩

theorem Story.mem_moments {story : Story} {root : Path} {rules : Nat} {hit : Hit}
    (h : hit ∈ story.hits) : Moment.hit hit ∈ story.moments root rules := by
  obtain ⟨visit, hvisit, hhit⟩ := List.mem_flatMap.1 h
  have hmoment : Moment.hit hit ∈ visit.moments :=
    List.mem_cons_of_mem _ (List.mem_map_of_mem hhit)
  have hvisits := List.mem_flatMap_of_mem hvisit hmoment
  simp [moments, opening, hvisits]

/-- A scan tells the story whose course it takes. -/
theorem Story.isOf_of_course {observer : Observer} {mode : Mode} {disk : Disk} {root : Path}
    {rules : List Rule} {story : Story} {last : Progress}
    (hturns : story.visits.map Visit.turn = rules.flatMap fun rule =>
      (disk.gathered observer (disk.absolutize root) rules).map (rule, ·))
    (hcourse : Course observer mode ⟨disk, [], []⟩
      (story.moments (disk.absolutize root) rules.length) last)
    (hscan : scan observer mode disk root rules =
      ⟨last.disk, last.trace.reverse, last.found.reverse⟩) :
    story.IsOf observer mode disk root rules := by
  obtain ⟨htrace, hfound⟩ := hcourse.told
  rw [story.flatMap_moments_events] at htrace
  rw [story.flatMap_moments_paths] at hfound
  refine ⟨?_, hturns, ?_, ?_, ?_, last, hcourse, hscan⟩
  · rw [hscan]
    simp only [htrace, hfound]
    rfl
  · rw [hscan]
    exact hfound
  · intro hdry hit hmem
    obtain ⟨disk, hfate⟩ := hcourse.fate (Story.mem_moments hmem)
    rw [hdry] at hfate
    exact hit.events_of_left hfate
  · intro hlive hit hmem
    obtain ⟨disk, hfate⟩ := hcourse.fate (Story.mem_moments hmem)
    rw [hlive] at hfate
    exact hit.isTried hfate

/-- A scan tells a story, whatever others do meanwhile. -/
theorem exists_story (observer : Observer) (mode : Mode) (disk : Disk) (root : Path)
    (rules : List Rule) : ∃ story : Story, story.IsOf observer mode disk root rules := by
  obtain ⟨story, hturns, ⟨last, hcourse, hscan⟩, -⟩ := scan_course observer mode
    (fun _ _ => True) (fun rule directory before => by
      obtain ⟨visit, hturn, hvisit⟩ := applyIn_course observer mode rule directory before
      exact ⟨visit, hturn, hvisit, trivial⟩) disk root rules
  exact ⟨story, Story.isOf_of_course hturns hcourse hscan⟩

section Told

variable (observer : Observer) (mode : Mode) (disk : Disk) (root : Path) (rules : List Rule)

/-- What a scan tells of begins with its folded root, and so does the report. -/
theorem root_ofEvents_scan (home : Option Path) (dryRun : Bool) :
    (Report.ofEvents home dryRun (scan observer mode disk root rules).events).root =
      disk.absolutize root := by
  obtain ⟨story, hstory⟩ := exists_story observer mode disk root rules
  rw [hstory.events_eq]
  exact Report.root_foldl_record home (story.started_not_mem_told (disk.absolutize root)) _

/-- An error of a scan is one of the walk, or that of a match. -/
theorem failed_mem_events_scan {phase : Phase} {path : Path} {trouble : Trouble}
    (h : .failed phase path trouble ∈ (scan observer mode disk root rules).events) :
    (phase = .traversal ∧ ∃ fault, trouble = .walking path fault) ∨
      (phase = .deletion ∧ path ∈ (scan observer mode disk root rules).found) := by
  obtain ⟨story, hstory⟩ := exists_story observer mode disk root rules
  rw [hstory.events_eq] at h
  rw [hstory.found]
  rcases List.mem_cons.1 h with hstarted | htold
  · cases hstarted
  · exact Story.failed_mem_told htold

/-- Whatever others do meanwhile, the report of a scan lists its matches. -/
theorem paths_ofEvents_observed (home : Option Path) (dryRun : Bool) :
    (Report.ofEvents home dryRun (scan observer mode disk root rules).events).paths =
      (scan observer mode disk root rules).found := by
  obtain ⟨story, hstory⟩ := exists_story observer mode disk root rules
  rw [(Report.ofEvents_adds home dryRun _).1, hstory.found, hstory.events_eq, story.flatMap_foundBy]

end Told

/-- The directories of visits that take their turns. -/
theorem length_of_turns {story : Story} {directories : List Path} {rules : List Rule}
    (h : story.visits.map Visit.turn = rules.flatMap fun rule => directories.map (rule, ·)) :
    (story.visits.map (·.directory)).length = rules.length * directories.length := by
  have hlength := congrArg List.length h
  simpa using hlength

/-- Whatever others do meanwhile, a scan tells a story, and its report sums up what is told. -/
theorem scan_tells_story (observer : Observer) (mode : Mode) (disk : Disk) (root : Path)
    (rules : List Rule) :
    (∃ story : Story, story.IsOf observer mode disk root rules) ∧
      ∀ home dryRun,
        let events := (scan observer mode disk root rules).events
        let report := Report.ofEvents home dryRun events
        report.paths = (scan observer mode disk root rules).found ∧
        report.visited =
          rules.length * (disk.gathered observer (disk.absolutize root) rules).length ∧
        report.deleted + (events.flatMap (Report.errorsBy home .deletion)).length ≤
          report.paths.length ∧
        report.errors = events.flatMap (Report.errorsBy home .traversal) ++
          events.flatMap (Report.errorsBy home .deletion) := by
  obtain ⟨story, hstory⟩ := exists_story observer mode disk root rules
  refine ⟨⟨story, hstory⟩, ?_⟩
  intro home dryRun events report
  have hevents : events = story.events (disk.absolutize root) rules.length := hstory.events_eq
  obtain ⟨hpaths, hvisited, hdeleted, herrors⟩ := Report.ofEvents_adds home dryRun events
  have hfound : report.paths = story.found := by
    rw [hpaths, hevents, story.flatMap_foundBy]
  refine ⟨?_, ?_, ?_, ?_⟩
  · rw [hfound, hstory.found]
  · rw [hvisited, hevents, story.flatMap_enteredBy, length_of_turns hstory.turns]
  · rw [hdeleted, hfound, hevents]
    exact story.deleted_and_failed_le home (disk.absolutize root) rules.length
  · rw [herrors, hevents, story.flatMap_errorsBy]

end Sweep
