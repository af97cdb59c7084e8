import Mathlib
import Sweep.Proofs.Scan.Evaluated
import Sweep.Proofs.Scan.Linked
import Sweep.Proofs.Scan.Story
import Sweep.Scan.Reaction
/-!
# Directories that have become links

The directories of a scan are collected before its first rule is applied, and by the time when a rule
gets to one of them others may have put a link in its place. Nothing asks what the path is by then.
The directory is listed again, a listing follows links, and what it shows is taken wherever it lies.

So what a visit comes to is told by the disk as it is when the directory is entered. A target without
`**` takes what it names there, from one listing. For one with `**` the disk may change under the walk,
but not before the first match: up to there the walk only reads.

## Main results

* `Visitor.Picks.run_of_first` — a walk changes nothing before it comes to what its visitor picks.
* `takeTargets_meets`, `applyIn_meets` — what a target takes, from the disk as it is at first.
* `Disk.at?_of_removeFile_child` — what is removed by a path lies where the directory leads by then.
* `scan_meets` — what the visits of a scan take, be it through links or not.
-/

namespace Sweep

open Disk

/-! ## Walks up to the first match -/

namespace Visitor

variable {σ : Type} {visitor : Visitor σ}

/-- Entries that are not picked are passed by, and gone into. -/
structure Picks (visitor : Visitor σ) (picks : Entry → Bool) : Prop where
  passes : ∀ entry state, picks entry = false → visitor.visit entry state = (state, true)
  fail : ∀ path fault state, visitor.fail path fault state = state

namespace Picks

variable {picks : Entry → Bool} (h : visitor.Picks picks) {disk : Disk} {state : σ}
  (hdisk : visitor.disk state = disk)

include h hdisk

theorem visitListing_of_none (path : Path) (below : Place) (listing : Listing)
    (hnone : ∀ entry ∈ disk.preorder path below listing, picks entry = false) :
    visitor.visitListing path below listing state = state := by
  fun_induction disk.preorder path below listing with
  | case1 => exact visitor.visitListing_nil _ _ state
  | case2 path below name rest fault hlist ih =>
      rw [List.forall_mem_cons] at hnone
      rw [visitor.visitListing_unlisted (hdisk ▸ hlist), h.passes _ state hnone.1]
      simp only [if_true, h.fail]
      exact ih hnone.2
  | case3 path below name rest contents hlist ihinner ih =>
      rw [List.forall_mem_cons, List.forall_mem_append] at hnone
      rw [visitor.visitListing_listed (hdisk ▸ hlist), h.passes _ state hnone.1]
      simp only [if_true, ihinner hnone.2.1]
      exact ih hnone.2.2
  | case4 path below name kind rest hkind ih =>
      rw [List.forall_mem_cons] at hnone
      rw [visitor.visitListing_plain hkind, h.passes _ state hnone.1]
      exact ih hnone.2

/-- Where nothing is picked, a walk changes nothing. -/
theorem run_of_none {directory : Path}
    (hnone : ∀ entry ∈ disk.allBelow directory, picks entry = false) :
    visitor.run directory false state = state := by
  cases hlist : disk.list directory with
  | ok listing =>
      rw [Disk.allBelow, entries_of_list hlist] at hnone
      rw [visitor.run_of_list (hdisk ▸ hlist)]
      exact h.visitListing_of_none hdisk directory [] listing hnone
  | error fault =>
      rcases visitor.run_of_list_error (hdisk ▸ hlist) with hrun | ⟨cause, hrun⟩
      · exact hrun
      · rw [hrun, h.fail]

variable {directory : Path} (keeps : σ → Prop)
  (hvisit : ∀ (names : Place) (kind : Kind) (state : σ), names ≠ [] → keeps state →
    keeps (visitor.visit ⟨directory.descend names, names, kind⟩ state).1)

include hvisit

omit hdisk in
theorem visitListing_keeps (below : Place) (listing : Listing) {state : σ} (hkept : keeps state) :
    keeps (visitor.visitListing (directory.descend below) below listing state) := by
  refine visitListing_keeps_below directory keeps hvisit (fun names fault other hother => ?_) below
    listing state hkept
  rw [h.fail]
  exact hother

omit hdisk in
/-- What is below an entry and what comes after it keep what has come of the entry. -/
theorem visitListing_cons_keeps (below : Place) (name : Name) (kind : Kind) (rest : Listing)
    (state : σ) (hkept : keeps (visitor.visit
      ⟨(directory.descend below).child name.bytes, below ++ [name], kind⟩ state).1) :
    keeps (visitor.visitListing (directory.descend below) below ((name, kind) :: rest) state) := by
  by_cases hkind : kind = .directory
  · subst hkind
    cases hlist : (visitor.disk state).list ((directory.descend below).child name.bytes) with
    | error fault =>
        rw [visitor.visitListing_unlisted hlist]
        simp only [h.fail, ite_self]
        exact h.visitListing_keeps keeps hvisit below rest hkept
    | ok contents =>
        have hinner := h.visitListing_keeps keeps hvisit (below ++ [name]) contents hkept
        rw [directory.descend_concat] at hinner
        rw [visitor.visitListing_listed hlist]
        refine h.visitListing_keeps keeps hvisit below rest ?_
        split
        · exact hinner
        · exact hkept
  · rw [visitor.visitListing_plain hkind]
    exact h.visitListing_keeps keeps hvisit below rest hkept

theorem visitListing_of_first (below : Place) (listing : Listing) {first : Entry}
    (hfirst : (disk.preorder (directory.descend below) below listing).find? picks = some first)
    (hkept : keeps (visitor.visit first state).1) :
    keeps (visitor.visitListing (directory.descend below) below listing state) := by
  have hcons := h.visitListing_cons_keeps keeps hvisit
  generalize hpath : directory.descend below = path at hfirst ⊢
  fun_induction disk.preorder path below listing with
  | case1 => cases hfirst
  | case2 path below name rest fault hlist ih =>
      subst hpath
      cases hpick : picks ⟨_, below ++ [name], .directory⟩ with
      | true =>
          rw [List.find?_cons_of_pos hpick, Option.some.injEq] at hfirst
          exact hcons below name .directory rest state (hfirst ▸ hkept)
      | false =>
          rw [List.find?_cons_of_neg (by simp [hpick])] at hfirst
          rw [visitor.visitListing_unlisted (hdisk ▸ hlist), h.passes _ state hpick]
          simp only [if_true, h.fail]
          exact ih rfl hfirst
  | case3 path below name rest contents hlist ihinner ih =>
      subst hpath
      cases hpick : picks ⟨_, below ++ [name], .directory⟩ with
      | true =>
          rw [List.find?_cons_of_pos hpick, Option.some.injEq] at hfirst
          exact hcons below name .directory rest state (hfirst ▸ hkept)
      | false =>
          rw [List.find?_cons_of_neg (by simp [hpick]), List.find?_append] at hfirst
          rw [visitor.visitListing_listed (hdisk ▸ hlist), h.passes _ state hpick]
          simp only [if_true]
          -- the first entry is in the directory, or else nothing in there is picked
          cases hbelow : (disk.preorder ((directory.descend below).child name.bytes)
              (below ++ [name]) contents).find? picks with
          | none =>
              rw [hbelow, Option.none_or] at hfirst
              rw [h.visitListing_of_none hdisk _ _ _ (by simpa using hbelow)]
              exact ih rfl hfirst
          | some other =>
              rw [hbelow, Option.some_or, Option.some.injEq] at hfirst
              have hinner := ihinner (directory.descend_concat below name) (hfirst ▸ hbelow)
              exact h.visitListing_keeps keeps hvisit below rest hinner
  | case4 path below name kind rest hkind ih =>
      subst hpath
      cases hpick : picks ⟨_, below ++ [name], kind⟩ with
      | true =>
          rw [List.find?_cons_of_pos hpick, Option.some.injEq] at hfirst
          exact hcons below name kind rest state (hfirst ▸ hkept)
      | false =>
          rw [List.find?_cons_of_neg (by simp [hpick])] at hfirst
          rw [visitor.visitListing_plain hkind, h.passes _ state hpick]
          exact ih rfl hfirst

/-- The first entry that is picked is visited from where the walk sets out, and the rest of the walk
keeps what its visits keep. -/
theorem run_of_first {first : Entry} (hfirst : (disk.allBelow directory).find? picks = some first)
    (hkept : keeps (visitor.visit first state).1) :
    keeps (visitor.run directory false state) := by
  cases hlist : disk.list directory with
  | ok listing =>
      rw [Disk.allBelow, entries_of_list hlist] at hfirst
      rw [visitor.run_of_list (hdisk ▸ hlist)]
      exact h.visitListing_of_first hdisk keeps hvisit [] listing hfirst hkept
  | error fault =>
      rw [Disk.allBelow_of_unlisted hlist] at hfirst
      cases hfirst

end Picks

end Visitor

/-! ## What a target takes -/

/-- What a target takes in a directory, as told by the disk when it is first looked for there. -/
structure Meets (observer : Observer) (mode : Mode) (target : Glob) (directory : Path)
    (arrived : Progress) (hits : List Hit) : Prop where
  /-- Where the target names nothing, nothing is taken. -/
  none : arrived.disk.named target directory = [] → hits = []
  /-- What it names first is taken first, and as it is then. -/
  first : ∀ path rest, arrived.disk.named target directory = path :: rest →
    ∃ kind, arrived.disk.Named target directory path kind ∧
      hits.head? = some (arrived.hit observer mode path (kind = .directory))
  /-- Without `**`, what it names is taken, whatever becomes of the disk on the way. -/
  all : target.isRecursive = false → hits.map (·.path) = arrived.disk.named target directory

theorem Meets.hits_eq_nil_iff {observer : Observer} {mode : Mode} {target : Glob} {directory : Path}
    {arrived : Progress} {hits : List Hit}
    (h : Meets observer mode target directory arrived hits) :
    hits = [] ↔ arrived.disk.named target directory = [] := by
  refine ⟨fun hnone => ?_, h.none⟩
  cases hnamed : arrived.disk.named target directory with
  | nil => rfl
  | cons path rest =>
      obtain ⟨kind, -, hfirst⟩ := h.first path rest hnamed
      rw [hnone] at hfirst
      cases hfirst

/-- Some name leads to what lies below a path. -/
theorem Disk.Under.below_ne_nil {disk : Disk} {path : Path} {below : Place} {entry : Entry}
    (h : disk.Under path below entry) : entry.below ≠ [] := by
  induction h with
  | entry _ => simp
  | inner _ _ ih => exact ih

section Meets

variable (observer : Observer) (mode : Mode) (target : Glob) (directory : Path)

theorem targetVisitor_picks : (targetVisitor observer mode target).Picks fun entry =>
    target.accepts (slashed entry.below) where
  passes := fun _ progress haccepts => visit_target_of_not_accepts haccepts progress
  fail := fun _ _ _ => rfl

/-- The entries of a listing whose names are accepted are taken one after the other. -/
theorem takeEntries_course (listing : Listing)
    (progress : Progress) : ∃ hits : List Hit,
      Course observer mode progress (hits.map .hit) (listing.foldl (fun progress entry =>
        if target.accepts entry.1.text then
          (progress.take observer mode (directory.child entry.1.bytes) (entry.2 = .directory)).1
        else progress) progress) ∧
      (∀ hit ∈ hits, target.Names directory hit.path) ∧
      hits.map (·.path) = target.pick directory listing ∧
      hits.head? = (listing.find? fun entry => target.accepts entry.1.text).map fun entry =>
        progress.hit observer mode (directory.child entry.1.bytes) (entry.2 = .directory) := by
  induction listing generalizing progress with
  | nil => exact ⟨[], .done progress, by simp, rfl, rfl⟩
  | cons entry rest ih =>
      rw [List.foldl_cons, Glob.pick_cons]
      cases haccepts : target.accepts entry.1.text with
      | true =>
          obtain ⟨hits, hcourse, hnamed, hpaths, -⟩ := ih
            (progress.take observer mode (directory.child entry.1.bytes) (entry.2 = .directory)).1
          have hnames : target.Names directory (directory.child entry.1.bytes) :=
            ⟨[entry.1], by simp, rfl, haccepts, by simp⟩
          refine ⟨progress.hit observer mode (directory.child entry.1.bytes)
            (entry.2 = .directory) :: hits, .next (.hit _ _ _) hcourse, ?_, ?_, ?_⟩
          · exact List.forall_mem_cons.2 ⟨hnames, hnamed⟩
          · rw [List.map_cons, hpaths]
            simp [Glob.pick, haccepts, Progress.hit]
          · simp [haccepts]
      | false =>
          obtain ⟨hits, hcourse, hnamed, hpaths, hfirst⟩ := ih progress
          refine ⟨hits, hcourse, hnamed, ?_, ?_⟩
          · rw [hpaths]
            simp [Glob.pick, haccepts]
          · simp [hfirst, haccepts]

/-- A target with `**` takes nothing, or first what the walk comes upon first. -/
theorem takeBelow_meets (hrecursive : target.isRecursive = true) (arrived : Progress) :
    ∃ hits : List Hit,
      Course observer mode arrived (hits.map .hit)
        (takeBelow observer mode target directory arrived) ∧
      (∀ hit ∈ hits, target.Names directory hit.path) ∧
      Meets observer mode target directory arrived hits := by
  have hpicks := targetVisitor_picks observer mode target
  have hdisk : (targetVisitor observer mode target).disk arrived = arrived.disk := rfl
  have hnamed : (arrived.disk.named target directory).head? =
      ((arrived.disk.allBelow directory).find? fun entry =>
        target.accepts (slashed entry.below)).map (·.path) := by
    rw [Disk.named, if_pos hrecursive, List.head?_map, List.head?_filter]
  cases hfind : (arrived.disk.allBelow directory).find? fun entry =>
      target.accepts (slashed entry.below) with
  | none =>
      have hrun : takeBelow observer mode target directory arrived = arrived :=
        hpicks.run_of_none hdisk (by simpa using hfind)
      rw [hrun]
      refine ⟨[], .done arrived, by simp, fun _ => rfl, ?_, by simp [hrecursive]⟩
      intro path rest hpath
      rw [hfind, hpath] at hnamed
      cases hnamed
  | some entry =>
      have haccepts : target.accepts (slashed entry.below) = true := by
        simpa using List.find?_some hfind
      have hunder := Disk.mem_allBelow_iff.1 (List.mem_of_find?_eq_some hfind)
      have hstart : directory = directory.descend [] := rfl
      let taken := (arrived.take observer mode entry.path (entry.kind = .directory)).1
      have hfirst : Strikes observer mode target directory taken
          ((targetVisitor observer mode target).visit entry arrived).1 := by
        rw [visit_target_of_accepts haccepts]
        exact ⟨[], .done taken, by simp⟩
      have hstrikes : Strikes observer mode target directory taken
          (takeBelow observer mode target directory arrived) :=
        hpicks.run_of_first hdisk (Strikes observer mode target directory taken)
          (fun names kind later hne hkept => hkept.visit hrecursive hne kind) hfind hfirst
      obtain ⟨hits, hcourse, hnames⟩ := hstrikes
      refine ⟨arrived.hit observer mode entry.path (entry.kind = .directory) :: hits,
        .next (.hit _ _ _) hcourse, List.forall_mem_cons.2 ⟨?_, hnames⟩, ?_, ?_,
        by simp [hrecursive]⟩
      · exact ⟨entry.below, hunder.below_ne_nil, hunder.path_eq hstart, haccepts, by simp [hrecursive]⟩
      · intro hnone
        rw [hfind, hnone] at hnamed
        cases hnamed
      · intro path rest hpath
        rw [hfind, hpath] at hnamed
        obtain rfl : path = entry.path := by simpa using hnamed
        exact ⟨entry.kind, .below hrecursive hunder haccepts, rfl⟩

/-- What a target takes in a directory. -/
theorem takeTargets_meets (arrived : Progress) : ∃ hits : List Hit,
    Course observer mode arrived (hits.map .hit)
        (takeTargets observer mode target directory arrived) ∧
      (∀ hit ∈ hits, target.Names directory hit.path) ∧
      Meets observer mode target directory arrived hits := by
  cases hrecursive : target.isRecursive with
  | true =>
      rw [takeTargets, if_pos hrecursive]
      exact takeBelow_meets observer mode target directory hrecursive arrived
  | false =>
      obtain ⟨hits, hcourse, hnamed, hpaths, hfirst⟩ := takeEntries_course observer mode target
        directory (arrived.disk.entries directory) arrived
      have hall : hits.map (·.path) = arrived.disk.named target directory := by
        rw [hpaths, Disk.named, if_neg (by simp [hrecursive])]
      rw [takeTargets, if_neg (by simp [hrecursive])]
      refine ⟨hits, hcourse, hnamed, ?_, ?_, fun _ => hall⟩
      · intro hnone
        exact List.map_eq_nil_iff.1 (hall.trans hnone)
      · intro path rest hpath
        have hnamed : (target.pick directory (arrived.disk.entries directory)).head? = some path := by
          rw [← hpaths, hall, hpath]
          rfl
        rw [Glob.pick, List.head?_map, List.head?_filter, Option.map_eq_some_iff] at hnamed
        obtain ⟨entry, hfind, rfl⟩ := hnamed
        have haccepts : target.accepts entry.1.text = true := by
          simpa using List.find?_some hfind
        refine ⟨entry.2, .entry hrecursive (List.mem_of_find?_eq_some hfind) haccepts, ?_⟩
        rw [hfirst, hfind]
        rfl

/-- What a rule takes in a directory: nothing if it does not apply when the directory is entered, and
otherwise what its target takes there. -/
theorem applyIn_meets (rule : Rule) (before : Progress) : ∃ visit : Visit,
    visit.turn = (rule, directory) ∧
      Course observer mode before visit.moments (applyIn observer mode rule before directory) ∧
      let arrived := before.tell observer (.entered visit.directory)
      (applies arrived.disk visit.directory visit.rule.condition = false → visit.hits = []) ∧
        (applies arrived.disk visit.directory visit.rule.condition = true →
          Meets observer mode visit.rule.target visit.directory arrived visit.hits) := by
  have hentered : Course observer mode before [.remark (.entered directory)]
      (before.tell observer (.entered directory)) := .remark before _
  unfold applyIn
  cases happlies : applies (before.tell observer (.entered directory)).disk directory
      rule.condition with
  | true =>
      obtain ⟨hits, hcourse, hnamed, hmeets⟩ := takeTargets_meets observer mode rule.target directory
        (before.tell observer (.entered directory))
      simp only [happlies, if_true]
      exact ⟨⟨rule, directory, hits, hnamed⟩, rfl, hentered.append hcourse, by simp [happlies],
        fun _ => hmeets⟩
  | false =>
      simp only [happlies, Bool.false_eq_true, if_false]
      exact ⟨⟨rule, directory, [], by simp⟩, rfl, hentered, fun _ => rfl, by simp [happlies]⟩

end Meets

/-! ## Through links -/

/-- What is removed by its path in a directory was there where the directory leads, and is gone. -/
theorem Disk.at?_of_removeFile_child {disk after : Disk} {directory : Path} {name : Name}
    {place : Place} (hnormal : directory.IsNormal)
    (hplace : disk.resolve .user .reach directory = .ok place)
    (h : disk.removeFile .user (directory.child name.bytes) = (after, none)) :
    disk.at? (place ++ [name]) ≠ none ∧ after.at? (place ++ [name]) = none := by
  unfold Disk.removeFile at h
  split at h
  · cases h
  · rename_i holder key hentry
    obtain ⟨rfl, here, left, hstart, hleads⟩ :=
      entry_eq_ok (hnormal.folded.steps_child name.bytes) hentry
    obtain ⟨before, others, hbefore, hreach⟩ := resolve_eq_ok_iff.1 hplace
    obtain rfl := start_child hnormal.rooted hstart hbefore
    have hfound := walk_eq_found_iff.2 ⟨left, hleads.of_concat_dot.1⟩
    rw [walk_eq_found_iff.2 ⟨others, hreach⟩] at hfound
    obtain rfl : place = holder := by simpa using hfound
    split at h
    · cases h
    · cases h
    · rename_i node hnode
      have htells := takeOut_tells hnode h
      exact ⟨htells.present rfl, htells.gone (Or.inl rfl)⟩

/-- A visit takes what lies at a place, to which a link in the stead of its directory leads. -/
structure Visit.Reaches (visit : Visit) (arrived : Progress) (place : Place) : Prop where
  /-- The target names through the link what it names through any other path that leads there. -/
  named : ∀ other, arrived.disk.Stands other place →
    arrived.disk.named visit.rule.target visit.directory =
      (arrived.disk.namedBelow visit.rule.target other).map visit.directory.descend
  /-- A rule that applies takes nothing only if nothing is named there. -/
  taken : applies arrived.disk visit.directory visit.rule.condition = true →
    ∀ other, arrived.disk.Stands other place →
      (visit.hits = [] ↔ arrived.disk.named visit.rule.target other = [])
  /-- An entry that is removed while the link leads there was there, and is gone. -/
  removed : ∀ (name : Name) (now after : Disk),
    now.resolve .user .reach visit.directory = .ok place →
    now.removeMatch (visit.directory.child name.bytes) false = (after, none) →
      now.at? (place ++ [name]) ≠ none ∧ after.at? (place ++ [name]) = none

/-- Whatever others do meanwhile, what a visit of a scan takes is told by the disk as it is when the
directory is entered. A directory that is a link by then is not passed over: what the target names
at the place to which the link leads is found there, and in a live scan removed from there. -/
theorem scan_meets (observer : Observer) (mode : Mode) (disk : Disk) (root : Path)
    (rules : List Rule) :
    ∃ story : Story, story.IsOf observer mode disk root rules ∧
      ∀ earlier visit later, story.visits = earlier ++ visit :: later → ∃ arrived : Progress,
        Course observer mode ⟨disk, [], []⟩
          ((⟨story.failures, earlier⟩ : Story).opening (disk.absolutize root) rules.length ++
            [.remark (.entered visit.directory)]) arrived ∧
        (applies arrived.disk visit.directory visit.rule.condition = false → visit.hits = []) ∧
        (applies arrived.disk visit.directory visit.rule.condition = true →
          Meets observer mode visit.rule.target visit.directory arrived visit.hits) ∧
        ∀ place, arrived.disk.ownKind visit.directory = .ok .link →
          arrived.disk.Stands visit.directory place → visit.Reaches arrived place := by
  obtain ⟨story, hturns, ⟨last, hcourse, hscan⟩, hvisits⟩ := scan_course observer mode _
    (fun rule directory => applyIn_meets observer mode directory rule) disk root rules
  refine ⟨story, Story.isOf_of_course hturns hcourse hscan, ?_⟩
  intro earlier visit later hsplit
  obtain ⟨before, hbefore, hidle, hmeets⟩ := hvisits earlier visit later hsplit
  refine ⟨before.tell observer (.entered visit.directory), hbefore.append (.remark _ _), hidle,
    hmeets, fun place hlink hstands => ?_⟩
  have hnamed := fun other (hother : Disk.Stands _ other place) =>
    hstands.namedBelow_eq hother visit.rule.target
  constructor
  · intro other hother
    rw [← hnamed other hother, Disk.map_descend_namedBelow]
  · intro happlies other hother
    rw [(hmeets happlies).hits_eq_nil_iff, ← Disk.map_descend_namedBelow, hnamed other hother,
      ← Disk.map_descend_namedBelow, List.map_eq_nil_iff, List.map_eq_nil_iff]
  · intro name now after hplace hremoved
    exact Disk.at?_of_removeFile_child hstands.normal hplace hremoved

/-- A disk with a file `/w/d/x` and a file `/out/x`. -/
def swappableDisk : Disk :=
  .ofLeaves [("/out/x", .ofContent ""), ("/w/d/x", .ofContent "")]

/-- Moves `/w/d` away when it is entered, and puts a link to `/out` in its place. -/
def swapping : Observer :=
  Observer.ofReactions [⟨.entered, "/w/d", [.move (Path.ofText "/w/d") (Path.ofText "/w/e"),
    .make (Path.ofText "/w/d") (.link (Path.ofText "/out").bytes) none]⟩]

/-- A live scan of `/w` removes `/out/x`, through the link. -/
theorem scan_meets_of_swap :
    (∃ story : Story,
      story.IsOf swapping .live swappableDisk (Path.ofText "/w") [⟨.delete, ⟨"x"⟩, none⟩] ∧
      story.found = [Path.ofText "/w/d/x"]) ∧
      let after := (scan swapping .live swappableDisk (Path.ofText "/w")
        [⟨.delete, ⟨"x"⟩, none⟩]).disk
      after.ownKind (Path.ofText "/w/d") = .ok .link ∧
      swappableDisk.isFile (Path.ofText "/out/x") = true ∧
      after.holds (Path.ofText "/out/x") = false ∧ after.isFile (Path.ofText "/w/e/x") = true := by
  have hfound : (scan swapping .live swappableDisk (Path.ofText "/w")
      [⟨.delete, ⟨"x"⟩, none⟩]).found = [Path.ofText "/w/d/x"] := by
    simp only [scan_eq_scanToDepth]
    cbv
  obtain ⟨story, hstory, -⟩ :=
    scan_meets swapping .live swappableDisk (Path.ofText "/w") [⟨.delete, ⟨"x"⟩, none⟩]
  have htold : story.found = [Path.ofText "/w/d/x"] := by rw [← hstory.found, hfound]
  refine ⟨⟨story, hstory, htold⟩, ?_⟩
  simp only [scan_eq_scanToDepth]
  refine ⟨?_, ?_, ?_, ?_⟩ <;> cbv

end Sweep
