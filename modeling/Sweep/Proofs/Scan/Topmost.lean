import Sweep.Proofs.Disk.Spelled
import Sweep.Proofs.Scan.Findings
import Sweep.Proofs.Scan.Outermost
/-!
# Walks that remove what they come upon

A live walk removes matches from the tree that it walks. What it finds are the *topmost* entries that
its target accepts, those with nothing accepted on the way from the start of the walk: what is further
down goes with them, and nothing beside or after them is left out.

The law of the outermost paths says this by the order of a list. Below one directory the list is in
order, so that what contains a path stands before it; being outermost is then a matter of the names
on the way alone.

A walk does not depend on what was told and found before it, so the law is about what is added.

## Main results

* `mem_outermost_iff` — the outermost paths of a list in order.
* `takeBelow_takes_topmost` — the law of a live walk.
-/

namespace Sweep

open Disk

/-! ## Outermost paths of a list in order -/

/-- What contains another path comes before it. -/
theorem Path.Contains.eq_or_before {outer inner : Path} (h : outer.Contains inner) :
    outer = inner ∨ outer.Before inner := by
  obtain ⟨hrooted, more, hsteps⟩ := h
  cases more with
  | nil =>
      left
      rw [List.append_nil] at hsteps
      cases outer
      cases inner
      simp_all
  | cons step more =>
      right
      exact Path.before_of_longer hsteps.symm

/-- In a list in order the outermost paths are those that no other one contains. -/
theorem mem_outermost_iff {paths : List Path} (hordered : paths.Pairwise Path.Before) {path : Path} :
    path ∈ outermost paths ↔ path ∈ paths ∧ ∀ other ∈ paths, other.Contains path → other = path := by
  induction paths using List.reverseRecOn with
  | nil => simp [outermost, outermostAfter]
  | append_singleton paths last ih =>
      obtain ⟨hfront, -, hlast⟩ := List.pairwise_append.1 hordered
      have hbefore : ∀ other ∈ paths, other.Before last := by
        intro other hother
        exact hlast other hother last List.mem_cons_self
      have hcovers : ∀ other ∈ paths, ¬ last.Contains other := by
        intro other hother hcontains
        rcases hcontains.eq_or_before with rfl | hafter
        · exact last.not_before_self (hbefore last hother)
        · exact List.lt_asymm hafter (hbefore other hother)
      rw [outermost_concat, List.mem_append, ih hfront]
      constructor
      · intro h
        rcases h with ⟨hmem, houter⟩ | hnew
        · refine ⟨List.mem_append_left _ hmem, ?_⟩
          intro other hother hcontains
          rcases List.mem_append.1 hother with hearlier | hend
          · exact houter other hearlier hcontains
          · rw [List.mem_singleton.1 hend] at hcontains
            exact absurd hcontains (hcovers path hmem)
        · split at hnew
          · cases hnew
          · rename_i hfree
            obtain rfl := List.mem_singleton.1 hnew
            refine ⟨List.mem_append_right _ hnew, ?_⟩
            intro other hother hcontains
            rcases List.mem_append.1 hother with hearlier | hend
            · exact absurd ⟨other, hearlier, hcontains⟩ hfree
            · exact List.mem_singleton.1 hend
      · intro h
        obtain ⟨hmem, houter⟩ := h
        rcases List.mem_append.1 hmem with hearlier | hend
        · left
          exact ⟨hearlier, fun other hother => houter other (List.mem_append_left _ hother)⟩
        · right
          obtain rfl := List.mem_singleton.1 hend
          rw [if_neg]
          · exact hend
          · intro hcovered
            obtain ⟨other, hother, hcontains⟩ := hcovered
            have hsame := houter other (List.mem_append_left _ hother) hcontains
            exact path.not_before_self (hsame ▸ hbefore other hother)

/-! ## Topmost entries -/

/-- An entry below a directory that a target accepts, while it accepts nothing that lies on the way
from the directory to it. -/
structure Disk.Topmost (disk : Disk) (target : Glob) (directory : Path) (entry : Entry) : Prop where
  under : disk.Under directory [] entry
  accepted : target.accepts (slashed entry.below) = true
  first : ∀ names, names ≠ [] → names <+: entry.below → names ≠ entry.below →
    target.accepts (slashed names) = false

/-- What lies on the way to something below a directory lies below the directory too. -/
theorem Disk.Under.exists_above {disk : Disk} {path : Path} {below : Place} {entry : Entry}
    (hfolded : path.IsFolded) (h : disk.Under path below entry) {names : Place} (hne : names ≠ [])
    (hbegins : below ++ names <+: entry.below) :
    ∃ above, disk.Under path below above ∧ above.below = below ++ names := by
  induction h generalizing names with
  | @entry path below name kind hlisted =>
      have hname : names <+: [name] := (List.prefix_append_right_inj below).1 hbegins
      obtain ⟨first, rest, rfl⟩ := List.exists_cons_of_ne_nil hne
      obtain ⟨rfl, hrest⟩ := List.cons_prefix_cons.1 hname
      obtain rfl := List.prefix_nil.1 hrest
      exact ⟨_, .entry hlisted, rfl⟩
  | @inner path below name entry hlisted next ih =>
      have hchild := hfolded.child name
      obtain ⟨first, rest, rfl⟩ := List.exists_cons_of_ne_nil hne
      have hfirst : first = name := by
        obtain ⟨more, -, hmore, -⟩ := next.spelled hchild
        rw [hmore, List.append_assoc] at hbegins
        exact (List.cons_prefix_cons.1 ((List.prefix_append_right_inj below).1 hbegins)).1
      subst hfirst
      cases rest with
      | nil => exact ⟨_, .entry hlisted, rfl⟩
      | cons second rest =>
          have hinner : (below ++ [first]) ++ second :: rest <+: entry.below := by
            simpa using hbegins
          obtain ⟨above, hunder, hbelow⟩ := ih hchild (by simp) hinner
          exact ⟨above, .inner hlisted hunder, by simpa using hbelow⟩

section Below

variable {disk : Disk} {target : Glob} {directory path : Path} {entry other : Entry}
  (hfolded : directory.IsFolded)

include hfolded

/-- Of two entries below a directory one contains the other if its names begin those of the other. -/
theorem Disk.Under.contains_iff (h : disk.Under directory [] entry)
    (hother : disk.Under directory [] other) :
    entry.path.Contains other.path ↔ entry.below <+: other.below := by
  obtain ⟨names, -, hnames, hsteps⟩ := h.spelled hfolded
  obtain ⟨others, -, hothers, hmore⟩ := hother.spelled hfolded
  rw [List.nil_append] at hnames hothers
  have hrooted : entry.path.rooted = other.path.rooted := h.rooted.trans hother.rooted.symm
  rw [Path.Contains, hsteps, hmore, List.prefix_append_right_inj, map_bytes_prefix_iff, hnames,
    hothers]
  exact and_iff_right hrooted

/-- An entry below a directory has the path that its names spell. -/
theorem Disk.Under.path_eq_iff (h : disk.Under directory [] entry)
    (hother : disk.Under directory [] other) :
    entry.path = other.path ↔ entry.below = other.below := by
  constructor
  · intro heq
    have hforth := (h.contains_iff hfolded hother).1 (heq ▸ .refl entry.path)
    have hback := (hother.contains_iff hfolded h).1 (heq ▸ .refl entry.path)
    exact hforth.eq_of_length_le hback.length_le
  · intro heq
    have hforth := (h.contains_iff hfolded hother).2 (heq ▸ List.prefix_refl entry.below)
    have hback := (hother.contains_iff hfolded h).2 (heq ▸ List.prefix_refl entry.below)
    exact hforth.antisymm hback

end Below

/-- The paths below a directory whose names a target accepts, in order. -/
def Disk.acceptedBelow (disk : Disk) (target : Glob) (directory : Path) : List Path :=
  ((disk.allBelow directory).filter fun entry => target.accepts (slashed entry.below)).map (·.path)

theorem Disk.mem_acceptedBelow_iff {disk : Disk} {target : Glob} {directory path : Path} :
    path ∈ disk.acceptedBelow target directory ↔
      ∃ entry, disk.Under directory [] entry ∧ target.accepts (slashed entry.below) = true ∧
        entry.path = path := by
  simp only [Disk.acceptedBelow, List.mem_map, List.mem_filter, Disk.mem_allBelow_iff, and_assoc]

theorem Disk.pairwise_acceptedBelow {directory : Path} (hfolded : directory.IsFolded) (disk : Disk)
    (target : Glob) : (disk.acceptedBelow target directory).Pairwise Path.Before := by
  rw [Disk.acceptedBelow, List.pairwise_map]
  exact (Disk.pairwise_allBelow hfolded disk).filter _

/-- The outermost of what a target accepts below a directory are the topmost entries. -/
theorem Disk.mem_outermost_acceptedBelow_iff {disk : Disk} {target : Glob} {directory path : Path}
    (hfolded : directory.IsFolded) :
    path ∈ outermost (disk.acceptedBelow target directory) ↔
      ∃ entry, disk.Topmost target directory entry ∧ entry.path = path := by
  rw [mem_outermost_iff (Disk.pairwise_acceptedBelow hfolded disk target)]
  simp only [Disk.mem_acceptedBelow_iff]
  constructor
  · intro h
    obtain ⟨⟨entry, hunder, haccepts, rfl⟩, houter⟩ := h
    refine ⟨entry, ⟨hunder, haccepts, ?_⟩, rfl⟩
    intro names hne hbegins hshorter
    obtain ⟨above, habove, rfl⟩ := hunder.exists_above hfolded hne hbegins
    rw [← Bool.not_eq_true]
    intro hpasses
    have hcontains := (habove.contains_iff hfolded hunder).2 hbegins
    have hsame := houter above.path ⟨above, habove, hpasses, rfl⟩ hcontains
    exact hshorter ((habove.path_eq_iff hfolded hunder).1 hsame)
  · intro h
    obtain ⟨entry, htop, rfl⟩ := h
    refine ⟨⟨entry, htop.under, htop.accepted, rfl⟩, ?_⟩
    intro other hother hcontains
    obtain ⟨above, habove, hpasses, rfl⟩ := hother
    have hbegins := (habove.contains_iff hfolded htop.under).1 hcontains
    apply (habove.path_eq_iff hfolded htop.under).2
    apply Classical.byContradiction
    intro hshorter
    obtain ⟨names, hne, hnames, -⟩ := habove.spelled hfolded
    rw [List.nil_append] at hnames
    have hrefused := htop.first above.below (hnames ▸ hne) hbegins hshorter
    rw [hpasses] at hrefused
    cases hrefused

/-! ## One walk -/

/-- What a progress adds to another one that it goes on from. -/
def Progress.onto (later before : Progress) : Progress :=
  ⟨later.disk, later.trace ++ before.trace, later.found ++ before.found⟩

/-- Taking a match does not depend on what was told and found before. -/
theorem Progress.take_onto (mode : Mode) (path : Path) (isDirectory : Bool)
    (later before : Progress) :
    (later.onto before).take .idle mode path isDirectory =
      ((later.take .idle mode path isDirectory).1.onto before,
        (later.take .idle mode path isDirectory).2) := by
  cases mode with
  | dry => rfl
  | live =>
      have hdisk : (later.onto before).disk = later.disk := rfl
      simp only [take, removeMatch, tell, Observer.idle, hdisk]
      generalize (if isDirectory = true then later.disk.removeDirectory .user path
        else later.disk.removeFile .user path) = removed
      obtain ⟨disk, fault⟩ := removed
      cases fault with
      | none => rfl
      | some fault => cases fault <;> rfl

/-- A walk does not depend on what was told and found before. -/
theorem takeBelow_onto (mode : Mode) (target : Glob) (directory : Path) (before : Progress) :
    takeBelow .idle mode target directory before =
      (takeBelow .idle mode target directory ⟨before.disk, [], []⟩).onto before := by
  refine Visitor.run_alike (fun later whole : Progress => whole = later.onto before) ?_ ?_ ?_
    directory false (⟨before.disk, [], []⟩ : Progress) before rfl
  · intro later whole halike
    rw [halike]
    rfl
  · intro entry later whole halike
    subst halike
    simp only [targetVisitor]
    split
    · rw [Progress.take_onto]
      exact ⟨rfl, rfl⟩
    · exact ⟨rfl, rfl⟩
  · intro path fault later whole halike
    exact halike

/-- A live walk below a straight path finds the outermost of what its target accepts, as long as no
removal fails. -/
theorem takeBelow_outermost {disk : Disk} {place : Place} (hstraight : disk.Straight (pathOf place))
    (target : Glob) :
    Extent disk (pathOf place) (takeBelow .idle .live target (pathOf place) ⟨disk, [], []⟩) ∧
      ((takeBelow .idle .live target (pathOf place) ⟨disk, [], []⟩).Sound →
        (takeBelow .idle .live target (pathOf place) ⟨disk, [], []⟩).found.reverse =
          outermost (disk.acceptedBelow target (pathOf place))) := by
  have hstart : Extent disk (pathOf place) ⟨disk, [], []⟩ ∧
      ((⟨disk, [], []⟩ : Progress).Sound → [] = outermost ([] ++ (([] : List Entry).filter
        fun entry => target.accepts (slashed entry.below)).map (·.path))) :=
    ⟨Extent.start disk _, fun _ => rfl⟩
  exact ((takes_outermost disk (pathOf place)).follows target []).run
    ⟨place, rfl, hstraight, .refl _⟩ hstart

/-- Where nothing can be listed a walk finds nothing. -/
theorem takeBelow_of_unlisted {disk : Disk} {directory : Path} {fault : Fault}
    (hlist : disk.list directory = .error fault) (mode : Mode) (target : Glob) :
    takeBelow .idle mode target directory ⟨disk, [], []⟩ = ⟨disk, [], []⟩ := by
  have hstart : ((targetVisitor .idle mode target).disk ⟨disk, [], []⟩).list directory =
      .error fault := hlist
  rcases Visitor.run_of_list_error _ hstart with hrun | ⟨cause, hrun⟩
  · exact hrun
  · exact hrun

/-- A list of paths is that of the topmost entries, in order and each once, and from one disk to the
other just these and what is below them have gone. -/
structure Disk.LosesTopmost (disk : Disk) (target : Glob) (directory : Path) (paths : List Path)
    (after : Disk) : Prop where
  exactly : ∀ path, path ∈ paths ↔ ∃ entry, disk.Topmost target directory entry ∧ entry.path = path
  ordered : paths.Pairwise Path.Before
  nodup : paths.Nodup
  gone : ∀ place, after.root.surfaceAt place =
    if ∃ path ∈ paths, path.Contains (pathOf place) then none else disk.root.surfaceAt place

/-- Where nothing can be listed there is nothing to lose. -/
theorem Disk.losesTopmost_of_unlisted {disk : Disk} {directory : Path} {fault : Fault}
    (hlist : disk.list directory = .error fault) (target : Glob) :
    disk.LosesTopmost target directory [] disk := by
  have hnone : ∀ entry, ¬ disk.Under directory [] entry := by
    intro entry hunder
    obtain ⟨listing, hlisting⟩ := hunder.listed
    rw [hlist] at hlisting
    cases hlisting
  constructor
  · intro path
    constructor
    · intro hmem
      cases hmem
    · intro h
      obtain ⟨entry, htop, -⟩ := h
      exact absurd htop.under (hnone entry)
  · exact .nil
  · exact .nil
  · intro place
    simp

/-- What a live walk below a straight path makes the disk lose, as long as no removal fails. -/
theorem losesTopmost_takeBelow {disk : Disk} {place : Place} (hstraight : disk.Straight (pathOf place))
    (target : Glob) (hsound : (takeBelow .idle .live target (pathOf place) ⟨disk, [], []⟩).Sound) :
    disk.LosesTopmost target (pathOf place)
      (takeBelow .idle .live target (pathOf place) ⟨disk, [], []⟩).found.reverse
      (takeBelow .idle .live target (pathOf place) ⟨disk, [], []⟩).disk := by
  obtain ⟨hextent, hfound⟩ := takeBelow_outermost hstraight target
  have hfolded := isFolded_pathOf place
  have hordered := (Disk.pairwise_acceptedBelow hfolded disk target).sublist (outermost_sublist _)
  rw [hfound hsound]
  constructor
  · intro path
    exact Disk.mem_outermost_acceptedBelow_iff hfolded
  · exact hordered
  · exact Path.nodup_of_ordered hordered
  · intro other
    rw [hextent.surfaceAt hsound, ← hfound hsound]
    simp only [List.mem_reverse]

/-- A live walk from a directory to which no link leads, in which no removal fails, finds exactly the
topmost entries that its target accepts, in order and each once. Gone in the end are these and what
is below them, and everything else is as it was. This does not depend on what was told and found
before the walk. -/
theorem takeBelow_takes_topmost (target : Glob) (path : Path) (before : Progress)
    (hstraight : before.disk.Straight (before.disk.absolutize path)) :
    ∃ (told : List Event) (reported : List Path) (after : Disk),
      takeBelow .idle .live target (before.disk.absolutize path) before =
        ⟨after, told ++ before.trace, reported.reverse ++ before.found⟩ ∧
      ((∀ other trouble, .failed .deletion other trouble ∉ told) →
        before.disk.LosesTopmost target (before.disk.absolutize path) reported after) := by
  rw [takeBelow_onto]
  refine ⟨_, _, _, by rw [Progress.onto, List.reverse_reverse], fun hsound => ?_⟩
  cases hlist : before.disk.list (before.disk.absolutize path) with
  | error fault =>
      rw [takeBelow_of_unlisted hlist]
      exact Disk.losesTopmost_of_unlisted hlist target
  | ok listing =>
      obtain ⟨place, rights, entries, hplace, -⟩ := list_eq_ok_iff.1 hlist
      have hpath := pathOf_of_resolve_absolutize hstraight hplace
      rw [hpath] at hstraight hsound ⊢
      exact losesTopmost_takeBelow hstraight target hsound

/-- A disk with a directory `/w` that holds two directories: `a` with a file `a` in it, and after it
`b` with a file `a` in it. -/
def topmostDisk : Disk :=
  .ofLeaves [("/w/a/a", .ofContent ""), ("/w/b/a", .ofContent "")]

/-- What is left of it without the directory `a` and the file in `b`. -/
def topmostRest : Disk :=
  .ofLeaves [("/w/b", .empty)]

/-- A walk that removes each `a` removes the directory, not the file in it, and goes on with what
comes after it. -/
theorem takeBelow_takes_topmost_of_nested :
    topmostDisk.Straight (topmostDisk.absolutize (Path.ofText "/w")) ∧
      topmostDisk.LosesTopmost ⟨"**/a"⟩ (Path.ofText "/w")
        [Path.ofText "/w/a", Path.ofText "/w/b/a"] topmostRest := by
  have hroot : topmostDisk.absolutize (Path.ofText "/w") = Path.ofText "/w" := by cbv
  have hplace : Path.ofText "/w" = pathOf (.ofText "/w") := by cbv
  have hstraight : topmostDisk.Straight (topmostDisk.absolutize (Path.ofText "/w")) := by
    rw [hroot, hplace]
    exact straight_of_directory rfl
  have hrun : takeBelow .idle .live ⟨"**/a"⟩ (Path.ofText "/w") ⟨topmostDisk, [], []⟩ =
      ⟨topmostRest, [.deleted (Path.ofText "/w/b/a") false, .found (Path.ofText "/w/b/a"),
        .deleted (Path.ofText "/w/a") true, .found (Path.ofText "/w/a")],
        [Path.ofText "/w/b/a", Path.ofText "/w/a"]⟩ := by
    rw [takeBelow, Visitor.run_eq_runToDepth]
    cbv
  obtain ⟨told, reported, after, htakes, hloses⟩ :=
    takeBelow_takes_topmost ⟨"**/a"⟩ (Path.ofText "/w") ⟨topmostDisk, [], []⟩ hstraight
  simp only [hroot] at htakes hloses
  obtain ⟨rfl, htold, hreported⟩ := Progress.mk.inj (hrun.symm.trans htakes)
  rw [List.append_nil] at htold hreported
  rw [← List.reverse_inj, List.reverse_reverse] at hreported
  have hsound : ∀ other trouble, .failed .deletion other trouble ∉ told := by
    intro other trouble
    simp [← htold]
  obtain rfl : [Path.ofText "/w/a", Path.ofText "/w/b/a"] = reported := hreported
  exact ⟨hstraight, hloses hsound⟩

end Sweep
