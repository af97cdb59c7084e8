import Mathlib.Data.List.Induction
import Sweep.Proofs.Scan.Evaluated
import Sweep.Proofs.Scan.Extent
import Sweep.Proofs.Scan.Harvest
/-!
# Live scans without conditions

Without conditions a live scan comes upon what the dry scan finds, in the same order, save what has
been removed by then: a path is passed over if it, or something that contains it, was come upon
before. So the live scan finds the outermost paths of the dry list, those that nothing earlier in the
list contains, provided that no removal fails. What is gone in the end is what the paths of the dry
list contain, in whatever order the rules stand.

The root must be straight: through a link one entry may be come upon by two paths, of which neither
contains the other.

## Main results

* `takes_outermost` — what each match keeps.
* `Extent.surfaceAt` — what is gone, and what is left as it was.
* `scan_live_outermost` — the law of a whole scan.
-/

namespace Sweep

open Disk

/-! ## Outermost paths -/

/-- The paths of a list that are not contained in one of these, nor in an earlier one of the
list. -/
def outermostAfter (earlier : List Path) : List Path → List Path
  | [] => []
  | path :: rest =>
    if ∃ other ∈ earlier, other.Contains path then outermostAfter (path :: earlier) rest
    else path :: outermostAfter (path :: earlier) rest

/-- The paths of a list that are not contained in an earlier one. -/
def outermost (paths : List Path) : List Path :=
  outermostAfter [] paths

theorem outermostAfter_concat (earlier paths : List Path) (path : Path) :
    outermostAfter earlier (paths ++ [path]) = outermostAfter earlier paths ++
      if ∃ other ∈ earlier ++ paths, other.Contains path then [] else [path] := by
  induction paths generalizing earlier with
  | nil => simp [outermostAfter]
  | cons first rest ih =>
      have hsame : (∃ other ∈ first :: earlier ++ rest, other.Contains path) ↔
          ∃ other ∈ earlier ++ first :: rest, other.Contains path := by
        simp only [List.cons_append, List.mem_cons, List.mem_append]
        grind
      rw [List.cons_append, outermostAfter, outermostAfter, ih]
      simp only [hsame]
      split
      · rfl
      · rw [List.cons_append]

theorem outermost_concat (paths : List Path) (path : Path) :
    outermost (paths ++ [path]) =
      outermost paths ++ if ∃ other ∈ paths, other.Contains path then [] else [path] :=
  outermostAfter_concat [] paths path

theorem outermost_sublist (paths : List Path) : (outermost paths).Sublist paths := by
  induction paths using List.reverseRecOn with
  | nil => exact .slnil
  | append_singleton paths last ih =>
      rw [outermost_concat]
      refine ih.append ?_
      split
      · exact List.nil_sublist _
      · exact List.Sublist.refl _

/-- Every path of a list is contained in an outermost one. -/
theorem exists_outermost {paths : List Path} {path : Path} (h : path ∈ paths) :
    ∃ outer ∈ outermost paths, outer.Contains path := by
  induction paths using List.reverseRecOn generalizing path with
  | nil => cases h
  | append_singleton paths last ih =>
      have hearlier : ∀ other ∈ paths, ∃ outer ∈ outermost (paths ++ [last]),
          outer.Contains other := by
        intro other hother
        obtain ⟨outer, houter, hcontains⟩ := ih hother
        rw [outermost_concat]
        exact ⟨outer, List.mem_append_left _ houter, hcontains⟩
      rcases List.mem_append.1 h with hbefore | hlast
      · exact hearlier path hbefore
      · obtain rfl := List.mem_singleton.1 hlast
        by_cases hcovered : ∃ other ∈ paths, other.Contains path
        · obtain ⟨other, hother, hcontains⟩ := hcovered
          obtain ⟨outer, houter, houtermost⟩ := hearlier other hother
          exact ⟨outer, houter, houtermost.trans hcontains⟩
        · rw [outermost_concat, if_neg hcovered]
          exact ⟨path, by simp, .refl path⟩

theorem exists_outermost_contains_iff {paths : List Path} {path : Path} :
    (∃ outer ∈ outermost paths, outer.Contains path) ↔ ∃ other ∈ paths, other.Contains path := by
  constructor
  · intro h
    obtain ⟨outer, houter, hcontains⟩ := h
    exact ⟨outer, (outermost_sublist paths).subset houter, hcontains⟩
  · intro h
    obtain ⟨other, hother, hcontains⟩ := h
    obtain ⟨outer, houter, houtermost⟩ := exists_outermost hother
    exact ⟨outer, houter, houtermost.trans hcontains⟩

/-! ## One match -/

/-- Of what was there, a live scan in which no removal failed has left what its matches do not
contain, as it was. -/
theorem Extent.surfaceAt {disk : Disk} {root : Path} {progress : Progress}
    (h : Extent disk root progress) (hsound : progress.Sound) (place : Place) :
    progress.disk.root.surfaceAt place =
      if ∃ path ∈ progress.found, path.Contains (pathOf place) then none
      else disk.root.surfaceAt place := by
  split
  · rename_i hcovered
    obtain ⟨path, hpath, hcontains⟩ := hcovered
    obtain ⟨q, rfl, hnone⟩ := h.gone path hpath fun trouble => hsound path trouble
    have hover := contains_pathOf_iff.1 hcontains
    apply Node.surfaceAt_eq_none.2
    apply Classical.byContradiction
    intro hstill
    exact at?_ne_none_of_prefix hover hstill hnone
  · rename_i hfree
    exact (h.pruned.root place).resolve_right fun hgone => hfree hgone.2

/-- What is gone within the extent of a live scan has been found, or something that contains it. -/
theorem Extent.found_of_gone {disk : Disk} {root : Path} {progress : Progress}
    (h : Extent disk root progress) {place : Place} (hthere : disk.at? place ≠ none)
    (hgone : progress.disk.at? place = none) :
    ∃ path ∈ progress.found, path.Contains (pathOf place) := by
  rcases h.pruned.root place with hsame | ⟨-, hwithin⟩
  · rw [Node.surfaceAt_eq_none.2 hgone] at hsame
    exact absurd (Node.surfaceAt_eq_none.1 hsame.symm) hthere
  · exact hwithin

/-- What was listed and is not shown any more has been found, or something that contains it. -/
theorem Extent.found_of_hides {disk : Disk} {root : Path} {progress : Progress} {place : Place}
    {name : Name} {kind : Kind} (h : Extent disk root progress)
    (hstraight : disk.Straight (pathOf place)) (hlisted : (name, kind) ∈ disk.entries (pathOf place))
    (hhides : progress.disk.Hides (pathOf place) name) :
    ∃ path ∈ progress.found, path.Contains ((pathOf place).child name.bytes) := by
  have hgone : progress.disk.at? (place ++ [name]) = none := by
    refine Classical.byContradiction fun hthere => ?_
    exact hhides kind (mem_entries_of_at? h.pruned hstraight hlisted hthere)
  rw [pathOf_child]
  exact h.found_of_gone (at?_ne_none_of_listed hstraight hlisted) hgone

/-- While no removal fails, a live scan finds the outermost of what it passes. -/
theorem takes_outermost (disk : Disk) (root : Path) :
    Takes disk .live
      (fun path => ∃ place, path = pathOf place ∧ disk.Straight (pathOf place) ∧
        root.Contains (pathOf place))
      (fun path progress => progress.Sound → ∀ other ∈ progress.found, ¬ other.Contains path)
      fun found progress => Extent disk root progress ∧
        (progress.Sound → progress.found.reverse = outermost found) where
  normal := by
    rintro path ⟨place, rfl, -⟩
    exact ⟨isFolded_pathOf place, rfl⟩
  inner := by
    rintro path name ⟨place, rfl, hstraight, hroot⟩ hlisted
    obtain ⟨node, hnode, hkind⟩ := mem_entries_pathOf hstraight hlisted
    refine ⟨place ++ [name], pathOf_child place name,
      straight_of_concat hstraight fun target htarget => ?_,
      hroot.trans (contains_pathOf_iff.2 (List.prefix_append place [name]))⟩
    rw [hnode, Option.some.injEq] at htarget
    simp [htarget, Node.kind] at hkind
  pruned := fun hkeeps => hkeeps.1.pruned.pruned
  take := by
    rintro found path name kind progress ⟨place, rfl, hstraight, hroot⟩ - hthere ⟨hextent, hfound⟩
    have hinside : disk.Inside root ((pathOf place).child name.bytes) :=
      ⟨place, name, pathOf_child place name, hstraight, hroot⟩
    refine ⟨hextent.take hinside (kind = .directory), fun hsound => ?_⟩
    obtain ⟨hbefore, -⟩ := Progress.sound_take_live hsound
    have hnew : ¬ ∃ other ∈ found, other.Contains ((pathOf place).child name.bytes) := by
      rintro ⟨other, hother, hcontains⟩
      obtain ⟨outer, houter, houtermost⟩ := exists_outermost hother
      rw [← hfound hbefore, List.mem_reverse] at houter
      exact hthere hbefore outer houter (houtermost.trans hcontains)
    rw [Progress.take_live, outermost_concat, if_neg hnew, ← hfound hbefore, List.reverse_cons]
  skip := by
    rintro found path name kind progress ⟨place, rfl, hstraight, -⟩ hlisted hhides ⟨hextent, hfound⟩
    refine ⟨hextent, fun hsound => ?_⟩
    have hcovered : ∃ other ∈ found, other.Contains ((pathOf place).child name.bytes) := by
      obtain ⟨path, hpath, hcontains⟩ := hextent.found_of_hides hstraight hlisted hhides
      rw [← List.mem_reverse, hfound hsound] at hpath
      exact ⟨path, (outermost_sublist found).subset hpath, hcontains⟩
    rw [outermost_concat, if_pos hcovered, List.append_nil]
    exact hfound hsound
  listed := by
    rintro found path name kind progress ⟨place, rfl, hstraight, -⟩ hlisted ⟨hextent, -⟩ hsound
      other hother hcontains
    obtain ⟨q, rfl, hnone⟩ := hextent.gone other hother fun trouble => hsound other trouble
    rw [pathOf_child, contains_pathOf_iff] at hcontains
    have hthere := at?_ne_none_of_listed (hextent.pruned.straight hstraight) hlisted
    exact at?_ne_none_of_prefix hcontains hthere hnone
  stays := by
    intro path name kind other progress _ _ hthere hunder hsound earlier hfound hcontains
    obtain ⟨hbefore, hgone⟩ := Progress.sound_take_live hsound
    rw [Progress.take_live] at hfound
    rcases List.mem_cons.1 hfound with rfl | hearlier
    · rw [(hunder hcontains).2] at hgone
      cases hgone
    · exact hthere hbefore earlier hearlier hcontains

/-! ## The whole scan -/

section Whole

variable {disk : Disk} {root : Path} {rules : List Rule}
  (hstraight : disk.Straight (disk.absolutize root))
  (hfree : ∀ rule ∈ rules, rule.condition = none)
  (hsound : ∀ path trouble,
    .failed .deletion path trouble ∉ (scan .idle .live disk root rules).events)

include hstraight hfree hsound

theorem extent_of_sound : ∃ progress : Progress,
    Extent disk (disk.absolutize root) progress ∧ progress.Sound ∧
      progress.found.reverse = outermost (scan .idle .dry disk root rules).found ∧
      scan .idle .live disk root rules =
        ⟨progress.disk, progress.trace.reverse, progress.found.reverse⟩ := by
  obtain ⟨progress, ⟨hextent, hfound⟩, hscan⟩ := scan_follows
    (takes_outermost disk (disk.absolutize root))
    (fun found progress event hremark ⟨hextent, hfound⟩ => by
      refine ⟨hextent.tell hremark, fun hsound => hfound fun path trouble hfailed => ?_⟩
      exact hsound path trouble (List.mem_cons_of_mem _ hfailed))
    root rules
    (fun rule hrule directory found progress _ _ => by simp [hfree rule hrule, applies])
    (fun directory hdirectory => hdirectory.straight hstraight)
    ⟨Extent.start disk _, fun _ => rfl⟩
  have hclean : progress.Sound := by
    intro path trouble hfailed
    refine hsound path trouble ?_
    rw [hscan]
    exact List.mem_reverse.2 hfailed
  exact ⟨progress, hextent, hclean, hfound hclean, hscan⟩

/-- What the paths of the dry scan contain is gone in the end, and the rest is as it was. -/
theorem surfaceAt_of_sound (place : Place) :
    (scan .idle .live disk root rules).disk.root.surfaceAt place =
      if ∃ path ∈ (scan .idle .dry disk root rules).found, path.Contains (pathOf place) then none
      else disk.root.surfaceAt place := by
  obtain ⟨progress, hextent, hclean, hfound, hscan⟩ := extent_of_sound hstraight hfree hsound
  have hcovered : (∃ path ∈ progress.found, path.Contains (pathOf place)) ↔
      ∃ path ∈ (scan .idle .dry disk root rules).found, path.Contains (pathOf place) := by
    have houtermost := @exists_outermost_contains_iff (scan .idle .dry disk root rules).found
      (pathOf place)
    rw [← hfound] at houtermost
    simpa only [List.mem_reverse] using houtermost
  rw [hscan, hextent.surfaceAt hclean]
  simp only [hcovered]

theorem at?_eq_none_iff_of_sound {place : Place} (hthere : disk.at? place ≠ none) :
    (scan .idle .live disk root rules).disk.at? place = none ↔
      ∃ path ∈ (scan .idle .dry disk root rules).found, path.Contains (pathOf place) := by
  have hsurface := surfaceAt_of_sound hstraight hfree hsound place
  show (scan .idle .live disk root rules).disk.root.at? place = none ↔ _
  rw [← Node.surfaceAt_eq_none, hsurface]
  split
  · rename_i hcovered
    exact iff_of_true rfl hcovered
  · rename_i hfound
    exact iff_of_false (fun hnone => hthere (Node.surfaceAt_eq_none.1 hnone)) hfound

end Whole

/-- Without conditions a live scan in which no removal fails finds the outermost paths of the dry
scan. Gone in the end is what the paths of the dry scan contain, in whatever order the rules
stand. -/
theorem scan_live_outermost (disk : Disk) (root : Path) (rules : List Rule)
    (hstraight : disk.Straight (disk.absolutize root))
    (hfree : ∀ rule ∈ rules, rule.condition = none)
    (hsound : ∀ path trouble,
      .failed .deletion path trouble ∉ (scan .idle .live disk root rules).events) :
    (scan .idle .live disk root rules).found = outermost (scan .idle .dry disk root rules).found ∧
    (∀ place, disk.at? place ≠ none →
      ((scan .idle .live disk root rules).disk.at? place = none ↔
        ∃ path ∈ (scan .idle .dry disk root rules).found, path.Contains (pathOf place))) ∧
    ∀ reordered, reordered.Perm rules →
      (∀ path trouble,
        .failed .deletion path trouble ∉ (scan .idle .live disk root reordered).events) →
      ∀ place, (scan .idle .live disk root reordered).disk.root.surfaceAt place =
        (scan .idle .live disk root rules).disk.root.surfaceAt place := by
  refine ⟨?_, fun place => at?_eq_none_iff_of_sound hstraight hfree hsound, ?_⟩
  · obtain ⟨progress, -, -, hfound, hscan⟩ := extent_of_sound hstraight hfree hsound
    rw [hscan]
    exact hfound
  · intro reordered hperm hclean place
    have hfree' : ∀ rule ∈ reordered, rule.condition = none :=
      fun rule hrule => hfree rule (hperm.subset hrule)
    have hsame : ∀ path, path ∈ (scan .idle .dry disk root reordered).found ↔
        path ∈ (scan .idle .dry disk root rules).found := by
      intro path
      simp only [mem_found_scan_dry_iff, hperm.mem_iff]
    rw [surfaceAt_of_sound hstraight hfree' hclean, surfaceAt_of_sound hstraight hfree hsound]
    simp only [hsame]

/-- A disk with a file `/k`, and a directory `/w` that holds a link to the root, and a directory `p`
with a file `b`. -/
def outermostDisk : Disk :=
  .ofLeaves [("/k", .ofContent ""), ("/w/l", .link (Path.ofText "/").bytes),
    ("/w/p/b", .ofContent "")]

/-- Rules that remove each `b`, and then everything. -/
def outermostRules : List Rule :=
  [⟨.delete, ⟨"b"⟩, none⟩, ⟨.delete, ⟨"**"⟩, none⟩]

/-- The file that the first rule removes is found once, though the dry scan finds it three times;
and a link is removed without what it leads to. -/
theorem scan_live_outermost_of_inner :
    (scan .idle .live outermostDisk (Path.ofText "/w") outermostRules).found =
        outermost (scan .idle .dry outermostDisk (Path.ofText "/w") outermostRules).found ∧
      (scan .idle .dry outermostDisk (Path.ofText "/w") outermostRules).found =
        [Path.ofText "/w/p/b", Path.ofText "/w/l", Path.ofText "/w/p", Path.ofText "/w/p/b",
          Path.ofText "/w/p/b"] ∧
      (scan .idle .live outermostDisk (Path.ofText "/w") outermostRules).disk.at?
        (.ofText "/w/p/b") = none ∧
      (scan .idle .live outermostDisk (Path.ofText "/w") outermostRules).disk.at?
        (.ofText "/k") ≠ none := by
  have hroot : outermostDisk.absolutize (Path.ofText "/w") = pathOf (.ofText "/w") := by cbv
  have hstraight : outermostDisk.Straight (outermostDisk.absolutize (Path.ofText "/w")) := by
    rw [hroot]
    exact straight_of_directory rfl
  have hevents : (scan .idle .live outermostDisk (Path.ofText "/w") outermostRules).events =
      [.started (Path.ofText "/w") 2, .entered (Path.ofText "/w"), .entered (Path.ofText "/w/p"),
        .found (Path.ofText "/w/p/b"), .deleted (Path.ofText "/w/p/b") false,
        .entered (Path.ofText "/w"), .found (Path.ofText "/w/l"),
        .deleted (Path.ofText "/w/l") false, .found (Path.ofText "/w/p"),
        .deleted (Path.ofText "/w/p") true, .entered (Path.ofText "/w/p"),
        .finished (Path.ofText "/w") 3] := by
    simp only [scan_eq_scanToDepth]
    cbv
  have hdry : (scan .idle .dry outermostDisk (Path.ofText "/w") outermostRules).found =
      [Path.ofText "/w/p/b", Path.ofText "/w/l", Path.ofText "/w/p", Path.ofText "/w/p/b",
        Path.ofText "/w/p/b"] := by
    simp only [scan_eq_scanToDepth]
    cbv
  obtain ⟨hfound, hgone, -⟩ := scan_live_outermost outermostDisk (Path.ofText "/w") outermostRules
    hstraight (by decide) (by simp [hevents])
  refine ⟨hfound, hdry, (hgone _ ?_).2 ?_, fun hnone => ?_⟩
  · exact fun h => by cases h
  · rw [hdry]
    exact ⟨Path.ofText "/w/p/b", by simp, by decide⟩
  · obtain ⟨path, hpath, hcontains⟩ := (hgone _ (fun h => by cases h)).1 hnone
    rw [hdry] at hpath
    revert path
    decide

end Sweep
