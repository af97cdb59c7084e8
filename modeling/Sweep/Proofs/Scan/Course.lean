import Sweep.Proofs.Scan.Steps
/-!
# The course of a scan

What a scan does is a row of moments: it makes a remark, or it takes a match. A *course* follows a
scan moment by moment, whatever others do to the disk meanwhile. A match on a course was *hit*: the
course knows which disk its removal met with, and so what came of it and why nothing more is told of
it. A rule is applied in a directory in a *visit*, which is a remark and then the matches that the
target names there.

## Main results

* `Hit.isTried`, `Hit.events_cases` — what is told of a match.
* `Course.told` — a course is told moment by moment.
* `Visitor.run_keeps_below` — a walk comes to nothing but what names below its start lead to.
* `snapshot_course`, `takeTargets_course`, `applyIn_course`, `applyAll_course` — the parts of a scan
  take their courses.
-/

namespace Sweep

open Disk

/-! ## Matches and what is told of them -/

/-- What came of a match. -/
inductive Fate where
  /-- It was left alone. -/
  | left
  /-- It was to be removed, and that ended with a fault or with none. -/
  | tried (fault : Option Fault)

/-- What comes of a match on a disk. -/
def Mode.fate (mode : Mode) (disk : Disk) (path : Path) (isDirectory : Bool) : Fate :=
  match mode with
  | .dry => .left
  | .live => .tried (disk.removeMatch path isDirectory).2

/-- A match that was hit. -/
structure Hit where
  path : Path
  isDirectory : Bool
  fate : Fate

/-- What is told of a match after it is found. -/
def Hit.sequel (hit : Hit) : List Event :=
  match hit.fate with
  | .left => []
  | .tried fault => tidings hit.path hit.isDirectory fault

/-- What is told of a match. -/
def Hit.events (hit : Hit) : List Event :=
  .found hit.path :: hit.sequel

/-- What is told of a match that was to be removed: that it was deleted, nothing if it was gone by
then, or that it could not be deleted. -/
def Hit.IsTried (hit : Hit) : Prop :=
  hit.fate = .tried none ∧
      hit.events = [.found hit.path, .deleted hit.path hit.isDirectory] ∨
    hit.fate = .tried (some .notFound) ∧ hit.events = [.found hit.path] ∨
    ∃ fault, fault ≠ .notFound ∧ hit.fate = .tried (some fault) ∧
      hit.events = [.found hit.path, .failed .deletion hit.path (.plain fault)]

/-- Of a match that is left alone nothing more is told. -/
theorem Hit.events_of_left {hit : Hit} (h : hit.fate = .left) : hit.events = [.found hit.path] := by
  rw [events, sequel, h]

theorem Hit.isTried {hit : Hit} {fault : Option Fault} (h : hit.fate = .tried fault) :
    hit.IsTried := by
  have hevents : hit.events = .found hit.path :: tidings hit.path hit.isDirectory fault := by
    rw [events, sequel, h]
  cases fault with
  | none => exact Or.inl ⟨h, hevents⟩
  | some fault =>
      by_cases hgone : fault = .notFound
      · subst hgone
        exact Or.inr (Or.inl ⟨h, hevents⟩)
      · refine Or.inr (Or.inr ⟨fault, hgone, h, ?_⟩)
        rw [hevents]
        cases fault <;> first | rfl | exact absurd rfl hgone

/-- At most one event is told of a match after it is found, and that one is about its removal. -/
theorem Hit.events_cases (hit : Hit) :
    hit.events = [.found hit.path] ∨
      hit.events = [.found hit.path, .deleted hit.path hit.isDirectory] ∨
      ∃ fault, hit.events = [.found hit.path, .failed .deletion hit.path (.plain fault)] := by
  cases hfate : hit.fate with
  | left => exact Or.inl (hit.events_of_left hfate)
  | tried fault =>
      rcases hit.isTried hfate with ⟨-, h⟩ | ⟨-, h⟩ | ⟨fault, -, -, h⟩
      · exact Or.inr (Or.inl h)
      · exact Or.inl h
      · exact Or.inr (Or.inr ⟨fault, h⟩)

/-- The match that is hit at a path when a scan has come so far. -/
def Progress.hit (observer : Observer) (mode : Mode) (path : Path) (isDirectory : Bool)
    (progress : Progress) : Hit :=
  ⟨path, isDirectory, mode.fate (progress.tell observer (.found path)).disk path isDirectory⟩

/-- Taking a match tells of it, and adds its path to what is found. -/
theorem Progress.take_told (observer : Observer) (mode : Mode) (path : Path) (isDirectory : Bool)
    (progress : Progress) :
    (progress.take observer mode path isDirectory).1.trace.reverse =
        progress.trace.reverse ++ (progress.hit observer mode path isDirectory).events ∧
      (progress.take observer mode path isDirectory).1.found = path :: progress.found := by
  cases mode with
  | dry => simp [take, tell, hit, Mode.fate, Hit.events, Hit.sequel]
  | live =>
      simp only [take, removeMatch, hit, Mode.fate, Hit.events, Hit.sequel, Disk.removeMatch]
      generalize (if isDirectory = true then
        (progress.tell observer (.found path)).disk.removeDirectory .user path
        else (progress.tell observer (.found path)).disk.removeFile .user path) = removed
      obtain ⟨disk, fault⟩ := removed
      cases fault with
      | none => simp [tell, tidings]
      | some fault => cases fault <;> simp [tell, tidings]

/-! ## The course of a scan -/

/-- What happens at a moment of a scan. -/
inductive Moment where
  /-- Something is told that is not about a match. -/
  | remark (event : Event)
  /-- A match is taken. -/
  | hit (taken : Hit)

def Moment.events : Moment → List Event
  | remark event => [event]
  | hit taken => taken.events

def Moment.paths : Moment → List Path
  | remark _ => []
  | hit taken => [taken.path]

/-- How far a scan comes in a moment. -/
inductive Passes (observer : Observer) (mode : Mode) : Progress → Moment → Progress → Prop where
  | remark (progress : Progress) (event : Event) :
      Passes observer mode progress (.remark event) (progress.tell observer event)
  | hit (progress : Progress) (path : Path) (isDirectory : Bool) :
      Passes observer mode progress (.hit (progress.hit observer mode path isDirectory))
        (progress.take observer mode path isDirectory).1

/-- How far a scan comes in some moments, one after the other. -/
inductive Course (observer : Observer) (mode : Mode) :
    Progress → List Moment → Progress → Prop where
  | done (progress : Progress) : Course observer mode progress [] progress
  | next {before between after : Progress} {moment : Moment} {rest : List Moment}
      (hpass : Passes observer mode before moment between)
      (hrest : Course observer mode between rest after) :
      Course observer mode before (moment :: rest) after

section Course

variable {observer : Observer} {mode : Mode} {before between after : Progress}
  {moments more : List Moment}

theorem Passes.told {moment : Moment} (h : Passes observer mode before moment after) :
    after.trace.reverse = before.trace.reverse ++ moment.events ∧
      after.found.reverse = before.found.reverse ++ moment.paths := by
  cases h with
  | remark event => simp [Progress.tell, Moment.events, Moment.paths]
  | hit path isDirectory =>
      obtain ⟨htrace, hfound⟩ := before.take_told observer mode path isDirectory
      constructor
      · exact htrace
      · rw [hfound, List.reverse_cons]
        rfl

/-- A course is told moment by moment. -/
theorem Course.told (h : Course observer mode before moments after) :
    after.trace.reverse = before.trace.reverse ++ moments.flatMap Moment.events ∧
      after.found.reverse = before.found.reverse ++ moments.flatMap Moment.paths := by
  induction h with
  | done => simp
  | next hpass hrest ih =>
      obtain ⟨htrace, hfound⟩ := hpass.told
      constructor
      · rw [ih.1, htrace, List.flatMap_cons, List.append_assoc]
      · rw [ih.2, hfound, List.flatMap_cons, List.append_assoc]

/-- What came of a match on a course is what comes of it on some disk. -/
theorem Course.fate (h : Course observer mode before moments after) {hit : Hit}
    (hmem : Moment.hit hit ∈ moments) :
    ∃ disk, hit.fate = mode.fate disk hit.path hit.isDirectory := by
  induction h with
  | done => cases hmem
  | next hpass hrest ih =>
      cases hmem with
      | head =>
          cases hpass with
          | hit path isDirectory => exact ⟨_, rfl⟩
      | tail _ hlater => exact ih hlater

theorem Course.append (h : Course observer mode before moments between)
    (hmore : Course observer mode between more after) :
    Course observer mode before (moments ++ more) after := by
  induction h with
  | done => exact hmore
  | next hpass _ ih => exact .next hpass (ih hmore)

theorem Course.remark (progress : Progress) (event : Event) :
    Course observer mode progress [.remark event] (progress.tell observer event) :=
  .next (.remark progress event) (.done _)

end Course

/-! ## Where a walk comes -/

/-- The path below a directory that names lead to. -/
def Path.descend (directory : Path) (names : Place) : Path :=
  names.foldl (fun path name => path.child name.bytes) directory

theorem Path.descend_concat (directory : Path) (names : Place) (name : Name) :
    directory.descend (names ++ [name]) = (directory.descend names).child name.bytes := by
  simp [Path.descend]

namespace Visitor

variable {σ : Type} {visitor : Visitor σ} (directory : Path) (keeps : σ → Prop)
  (hvisit : ∀ (names : Place) (kind : Kind) (state : σ), names ≠ [] → keeps state →
    keeps (visitor.visit ⟨directory.descend names, names, kind⟩ state).1)
  (hfail : ∀ (names : Place) (fault : Fault) (state : σ), keeps state →
    keeps (visitor.fail (directory.descend names) fault state))

include hvisit hfail

/-- A walk comes to nothing but what names below its start lead to, whatever its visits do. -/
theorem visitListing_keeps_below (below : Place) (listing : Listing) (state : σ)
    (h : keeps state) :
    keeps (visitor.visitListing (directory.descend below) below listing state) := by
  generalize hpath : directory.descend below = path
  fun_induction visitor.visitListing path below listing state with
  | case1 => exact h
  | case2 path below state name rest entry fault hlist visited enter hvisited ih =>
      have hdescend := directory.descend_concat below name
      have hkept := hvisit (below ++ [name]) .directory state (by simp) h
      rw [hdescend, hpath, hvisited] at hkept
      refine ih ?_ hpath
      split
      · have hfailed := hfail (below ++ [name]) fault _ hkept
        rw [hdescend, hpath] at hfailed
        exact hfailed
      · exact hkept
  | case3 path below state name rest entry contents hlist visited enter hvisited ihinner ih =>
      have hdescend := directory.descend_concat below name
      have hkept := hvisit (below ++ [name]) .directory state (by simp) h
      rw [hdescend, hpath, hvisited] at hkept
      refine ih ?_ hpath
      split
      · rw [hpath] at hdescend
        exact ihinner hkept hdescend
      · exact hkept
  | case4 path below state name kind rest hkind ih =>
      have hdescend := directory.descend_concat below name
      have hkept := hvisit (below ++ [name]) kind state (by simp) h
      rw [hdescend, hpath] at hkept
      exact ih hkept hpath

theorem run_keeps_below (withStart : Bool)
    (hstart : withStart = true → ∀ (kind : Kind) (state : σ), keeps state →
      keeps (visitor.visit ⟨directory, [], kind⟩ state).1)
    (state : σ) (h : keeps state) : keeps (visitor.run directory withStart state) := by
  have hfirst : ∀ kind,
      keeps (if withStart then (visitor.visit ⟨directory, [], kind⟩ state).1 else state) := by
    intro kind
    split
    · rename_i hwith
      exact hstart hwith kind state h
    · exact h
  have hdirectory : ∀ kind,
      keeps (visitor.visitDirectory ⟨directory, [], kind⟩ withStart state) := by
    intro kind
    unfold visitDirectory
    simp only
    split
    · exact hfail [] _ _ (hfirst kind)
    · exact visitListing_keeps_below directory keeps hvisit hfail [] _ _ (hfirst kind)
  unfold run
  simp only
  split
  · exact hfail [] _ _ h
  · exact hdirectory .directory
  · exact hfirst .file
  · split
    · exact hfail [] _ _ h
    · exact hdirectory .link
    · exact hfirst .link

end Visitor

/-! ## Visits -/

/-- By its spelling, a path is one that a target can name in a directory. -/
def Glob.Names (target : Glob) (directory path : Path) : Prop :=
  ∃ names : Place, names ≠ [] ∧ path = directory.descend names ∧
    target.accepts (slashed names) = true ∧ (target.isRecursive = false → names.length = 1)

/-- A rule was applied in a directory. -/
structure Visit where
  rule : Rule
  directory : Path
  /-- The matches, in the order in which they were found. -/
  hits : List Hit
  named : ∀ hit ∈ hits, rule.target.Names directory hit.path

/-- The rule and the directory. -/
def Visit.turn (visit : Visit) : Rule × Path :=
  (visit.rule, visit.directory)

def Visit.moments (visit : Visit) : List Moment :=
  .remark (.entered visit.directory) :: visit.hits.map .hit

def Visit.events (visit : Visit) : List Event :=
  .entered visit.directory :: visit.hits.flatMap Hit.events

theorem Visit.flatMap_events (visit : Visit) :
    visit.moments.flatMap Moment.events = visit.events := by
  simp [moments, events, Moment.events, List.flatMap_map]

theorem Visit.flatMap_paths (visit : Visit) :
    visit.moments.flatMap Moment.paths = visit.hits.map (·.path) := by
  have hhits : (visit.hits.map Moment.hit).flatMap Moment.paths = visit.hits.map (·.path) := by
    rw [List.flatMap_map, List.map_eq_flatMap]
    rfl
  rw [moments, List.flatMap_cons, hhits]
  rfl

section Parts

variable (observer : Observer) (mode : Mode)

/-- What a target names is taken in the course of some hits. -/
def Strikes (target : Glob) (directory : Path) (before after : Progress) : Prop :=
  ∃ hits : List Hit, Course observer mode before (hits.map .hit) after ∧
    ∀ hit ∈ hits, target.Names directory hit.path

variable {observer mode} in
theorem Strikes.take {target : Glob} {directory path : Path} {before after : Progress}
    (h : Strikes observer mode target directory before after)
    (hnames : target.Names directory path) (isDirectory : Bool) :
    Strikes observer mode target directory before (after.take observer mode path isDirectory).1 := by
  obtain ⟨hits, hcourse, hnamed⟩ := h
  have hlast : Course observer mode after [.hit (after.hit observer mode path isDirectory)]
      (after.take observer mode path isDirectory).1 := .next (.hit after path isDirectory) (.done _)
  refine ⟨hits ++ [after.hit observer mode path isDirectory], ?_, ?_⟩
  · rw [List.map_append]
    exact hcourse.append hlast
  · intro hit hmem
    rcases List.mem_append.1 hmem with hearlier | hnew
    · exact hnamed hit hearlier
    · rw [List.mem_singleton.1 hnew]
      exact hnames

variable {observer mode} in
/-- A visit on a walk takes at most what the target names. -/
theorem Strikes.visit {target : Glob} {directory : Path} {before after : Progress}
    (h : Strikes observer mode target directory before after) (hrecursive : target.isRecursive = true)
    {names : Place} (hne : names ≠ []) (kind : Kind) :
    Strikes observer mode target directory before
      ((targetVisitor observer mode target).visit ⟨directory.descend names, names, kind⟩ after).1 := by
  simp only [targetVisitor]
  split
  · rename_i haccepts
    have hnames : target.Names directory (directory.descend names) :=
      ⟨names, hne, rfl, haccepts, by simp [hrecursive]⟩
    exact h.take hnames (kind = .directory)
  · exact h

/-- What a target names in a directory is taken hit by hit. -/
theorem takeTargets_course (target : Glob) (directory : Path) (progress : Progress) :
    Strikes observer mode target directory progress
      (takeTargets observer mode target directory progress) := by
  have hstart : Strikes observer mode target directory progress progress :=
    ⟨[], .done progress, by simp⟩
  unfold takeTargets
  split
  · rename_i hrecursive
    exact Visitor.run_keeps_below directory (Strikes observer mode target directory progress)
      (fun names kind later hne hkept => hkept.visit hrecursive hne kind) (fun _ _ _ h => h) false
      (by simp) progress hstart
  · unfold takeEntries
    refine List.foldlRecOn (motive := Strikes observer mode target directory progress)
      (progress.disk.entries directory) _ hstart fun later hkept entry _ => ?_
    split
    · rename_i haccepts
      have hnames : target.Names directory (directory.child entry.1.bytes) :=
        ⟨[entry.1], by simp, rfl, haccepts, by simp⟩
      exact hkept.take hnames (entry.2 = .directory)
    · exact hkept

/-- A rule is applied in a directory in the course of a visit. -/
theorem applyIn_course (rule : Rule) (directory : Path) (progress : Progress) :
    ∃ visit : Visit, visit.turn = (rule, directory) ∧
      Course observer mode progress visit.moments (applyIn observer mode rule progress directory) := by
  have hentered : Course observer mode progress [.remark (.entered directory)]
      (progress.tell observer (.entered directory)) := .remark progress _
  unfold applyIn
  simp only
  split
  · obtain ⟨hits, hcourse, hnamed⟩ := takeTargets_course observer mode rule.target directory
      (progress.tell observer (.entered directory))
    exact ⟨⟨rule, directory, hits, hnamed⟩, rfl, hentered.append hcourse⟩
  · exact ⟨⟨rule, directory, [], by simp⟩, rfl, hentered⟩

theorem applyAll_eq_foldl (directories : List Path) (rules : List Rule) (progress : Progress) :
    applyAll observer mode directories rules progress =
      (rules.flatMap fun rule => directories.map (rule, ·)).foldl
        (fun progress turn => applyIn observer mode turn.1 progress turn.2) progress := by
  simp only [applyAll, List.foldl_flatMap, List.foldl_map]

/-- Rules are applied in directories in the course of visits, one for each rule and directory. What
holds of each visit where it sets out holds of each on the way. -/
theorem applyAll_course (holds : Visit → Progress → Prop)
    (hvisit : ∀ rule directory before, ∃ visit : Visit, visit.turn = (rule, directory) ∧
      Course observer mode before visit.moments (applyIn observer mode rule before directory) ∧
      holds visit before)
    (directories : List Path) (rules : List Rule) (progress : Progress) :
    ∃ visits : List Visit,
      visits.map Visit.turn = (rules.flatMap fun rule => directories.map (rule, ·)) ∧
      Course observer mode progress (visits.flatMap Visit.moments)
        (applyAll observer mode directories rules progress) ∧
      ∀ earlier visit later, visits = earlier ++ visit :: later → ∃ before,
        Course observer mode progress (earlier.flatMap Visit.moments) before ∧
          holds visit before := by
  rw [applyAll_eq_foldl]
  generalize (rules.flatMap fun rule => directories.map (rule, ·)) = turns
  induction turns generalizing progress with
  | nil => exact ⟨[], rfl, .done progress, by simp⟩
  | cons turn rest ih =>
      obtain ⟨visit, hturn, hcourse, hholds⟩ := hvisit turn.1 turn.2 progress
      obtain ⟨visits, hturns, hrest, hall⟩ := ih (applyIn observer mode turn.1 progress turn.2)
      refine ⟨visit :: visits, ?_, ?_, ?_⟩
      · rw [List.map_cons, hturn, hturns]
      · rw [List.flatMap_cons]
        exact hcourse.append hrest
      · intro earlier next later hsplit
        cases earlier with
        | nil =>
            obtain rfl : visit = next := (List.cons.inj hsplit).1
            exact ⟨progress, .done progress, hholds⟩
        | cons first earlier =>
            obtain ⟨hfirst, hmore⟩ := List.cons.inj hsplit
            obtain ⟨before, hbefore, hnext⟩ := hall earlier next later hmore
            refine ⟨before, ?_, hnext⟩
            rw [← hfirst, List.flatMap_cons]
            exact hcourse.append hbefore

/-- The visits alone. -/
theorem applyAll_visits (directories : List Path) (rules : List Rule) (progress : Progress) :
    ∃ visits : List Visit,
      visits.map Visit.turn = (rules.flatMap fun rule => directories.map (rule, ·)) ∧
      Course observer mode progress (visits.flatMap Visit.moments)
        (applyAll observer mode directories rules progress) := by
  have hvisit : ∀ rule directory before, ∃ visit : Visit, visit.turn = (rule, directory) ∧
      Course observer mode before visit.moments (applyIn observer mode rule before directory) ∧
      True := by
    intro rule directory before
    obtain ⟨visit, hturn, hcourse⟩ := applyIn_course observer mode rule directory before
    exact ⟨visit, hturn, hcourse, trivial⟩
  obtain ⟨visits, hturns, hcourse, -⟩ :=
    applyAll_course observer mode (fun _ _ => True) hvisit directories rules progress
  exact ⟨visits, hturns, hcourse⟩

/-- What is told of a path that could not be walked. -/
def walkFailure (failure : Path × Fault) : Event :=
  .failed .traversal failure.1 (.walking failure.1 failure.2)

/-- That a path could not be walked is no match. -/
theorem flatMap_walkFailure_paths (failures : List (Path × Fault)) :
    (failures.map fun failure => Moment.remark (walkFailure failure)).flatMap Moment.paths = [] := by
  rw [List.flatMap_map]
  exact List.flatMap_eq_nil_iff.2 fun _ _ => rfl

/-- Directories are collected in the course of remarks on what could not be walked. -/
theorem snapshot_course (root : Path) (progress : Progress) :
    ∃ failures : List (Path × Fault),
      Course observer mode progress (failures.map fun failure => .remark (walkFailure failure))
        (snapshot observer root progress).1 := by
  refine Visitor.run_keeps (fun collection : Collection => ∃ failures : List (Path × Fault),
    Course observer mode progress (failures.map fun failure => .remark (walkFailure failure))
      collection.progress) ?_ ?_ root true ⟨progress, [], []⟩ ⟨[], .done progress⟩
  · intro entry collection hkept
    rw [progress_visit_snapshot]
    exact hkept
  · intro path fault collection hkept
    obtain ⟨failures, hcourse⟩ := hkept
    refine ⟨failures ++ [(path, fault)], ?_⟩
    rw [List.map_append]
    exact hcourse.append (.remark collection.progress _)

end Parts

end Sweep
