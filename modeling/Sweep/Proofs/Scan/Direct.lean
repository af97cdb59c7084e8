import Mathlib
import Sweep.Proofs.Glob.Segments
import Sweep.Proofs.Scan.Harvest
/-!
# Targets of one segment

A target without `**` is looked for among the entries of a directory, and what is further down is not
walked at all. That takes the same as a walk through everything, as long as the target has no slash:
the path of anything further down has one, and no text with a slash is accepted.

A visitor is *shallow* if what is further down is nothing to it. Its walk, however deep it goes, comes
to a fold over the listing of the directory at which it starts. This holds whatever the visits do to
the disk on the way, since the listing is read before the first of them.

## Main results

* `Visitor.Shallow.run_eq_foldl` — the walk of a shallow visitor is a fold over one listing.
* `takeTargets_eq_takeBelow` — a target of one segment takes what a walk takes.
-/

namespace Sweep

open Disk

namespace Visitor

variable {σ : Type}

/-- What is further down than the entries of one directory is nothing to a visitor. -/
structure Shallow (visitor : Visitor σ) : Prop where
  visit : ∀ entry state, 1 < entry.below.length → (visitor.visit entry state).1 = state
  fail : ∀ path fault state, visitor.fail path fault state = state

namespace Shallow

variable {visitor : Visitor σ} (h : visitor.Shallow)

include h

/-- Further down nothing changes. -/
theorem visitListing_of_below {below : Place} (hbelow : below ≠ []) (path : Path)
    (listing : Listing) (state : σ) : visitor.visitListing path below listing state = state := by
  have hvisit : ∀ (below : Place) (path : Path) (name : Name) (kind : Kind) (state : σ),
      below ≠ [] → (visitor.visit ⟨path, below ++ [name], kind⟩ state).1 = state := by
    intro below path name kind state hbelow
    have hpositive := List.length_pos_iff.2 hbelow
    exact h.visit _ _ (by simp [hpositive])
  fun_induction visitor.visitListing path below listing state with
  | case1 => rfl
  | case2 path below state name rest entry fault hlist visited enter hvisited ih =>
      have hsame := hvisit below entry.path name .directory state hbelow
      rw [hvisited] at hsame
      simp only [dite_eq_ite, h.fail, ite_self] at ih ⊢
      exact (ih hbelow).trans hsame
  | case3 path below state name rest entry contents hlist visited enter hvisited ihinner ih =>
      have hsame := hvisit below entry.path name .directory state hbelow
      rw [hvisited] at hsame
      have hinner := ihinner (by simp)
      simp only [dite_eq_ite, hinner, ite_self] at ih ⊢
      exact (ih hbelow).trans hsame
  | case4 path below state name kind rest hkind ih =>
      exact (ih hbelow).trans (hvisit below _ name kind state hbelow)

/-- An entry is visited, and then those after it: what is below it is nothing. -/
theorem visitListing_cons (path : Path) (below : Place) (name : Name) (kind : Kind) (rest : Listing)
    (state : σ) : visitor.visitListing path below ((name, kind) :: rest) state =
      visitor.visitListing path below rest
        (visitor.visit ⟨path.child name.bytes, below ++ [name], kind⟩ state).1 := by
  by_cases hkind : kind = .directory
  · subst hkind
    cases hlist : (visitor.disk state).list (path.child name.bytes) with
    | error fault =>
        rw [visitor.visitListing_unlisted hlist]
        simp only [h.fail, ite_self]
    | ok contents =>
        have hbelow : below ++ [name] ≠ [] := by simp
        rw [visitor.visitListing_listed hlist]
        simp only [h.visitListing_of_below hbelow, ite_self]
  · exact visitor.visitListing_plain hkind

theorem visitListing_eq_foldl (path : Path) (below : Place) (listing : Listing) (state : σ) :
    visitor.visitListing path below listing state = listing.foldl (fun state entry =>
      (visitor.visit ⟨path.child entry.1.bytes, below ++ [entry.1], entry.2⟩ state).1) state := by
  induction listing generalizing state with
  | nil => exact visitor.visitListing_nil path below state
  | cons entry rest ih => rw [h.visitListing_cons, ih, List.foldl_cons]

/-- The walk of a shallow visitor visits the entries of the directory at which it starts. -/
theorem run_eq_foldl (path : Path) (state : σ) :
    visitor.run path false state = ((visitor.disk state).entries path).foldl (fun state entry =>
      (visitor.visit ⟨path.child entry.1.bytes, [entry.1], entry.2⟩ state).1) state := by
  cases hlist : (visitor.disk state).list path with
  | ok listing =>
      rw [visitor.run_of_list hlist, entries_of_list hlist]
      exact h.visitListing_eq_foldl path [] listing state
  | error fault =>
      have hnone : (visitor.disk state).entries path = [] := by
        simp [Disk.entries, hlist, Except.toOption]
      rw [hnone, List.foldl_nil]
      rcases visitor.run_of_list_error hlist with hrun | ⟨cause, hrun⟩
      · exact hrun
      · rw [hrun, h.fail]

end Shallow

end Visitor

/-! ## Targets without a slash -/

/-- The path of what is further down than an entry has a slash. -/
theorem slash_mem_slashed {names : Place} (h : 1 < names.length) : '/' ∈ (slashed names).toList := by
  obtain _ | ⟨first, _ | ⟨second, rest⟩⟩ := names
  · cases h
  · simp at h
  · rw [slashed, List.map_cons, joinTexts_cons "/" first.text (by simp)]
    simp

theorem targetVisitor_shallow {target : Glob} (hplain : target.isRecursive = false)
    (hslash : '/' ∉ target.source.toList) (observer : Observer) (mode : Mode) :
    (targetVisitor observer mode target).Shallow where
  visit := by
    intro entry progress hdeep
    cases haccepts : target.accepts (slashed entry.below) with
    | true =>
        have hnone := Glob.slash_not_mem_of_accepts hplain hslash haccepts
        exact absurd (slash_mem_slashed hdeep) hnone
    | false => rw [visit_target_of_not_accepts haccepts]
  fail := fun _ _ _ => rfl

theorem takeBelow_eq_takeEntries {target : Glob} (hplain : target.isRecursive = false)
    (hslash : '/' ∉ target.source.toList) (observer : Observer) (mode : Mode) (directory : Path)
    (progress : Progress) :
    takeBelow observer mode target directory progress =
      takeEntries observer mode target directory progress := by
  rw [takeBelow, (targetVisitor_shallow hplain hslash observer mode).run_eq_foldl, takeEntries]
  congr 1
  funext progress entry
  -- the path of an entry, from the directory that holds it, is its name
  have hname : slashed [entry.1] = entry.1.text := rfl
  cases haccepts : target.accepts entry.1.text with
  | true => rw [visit_target_of_accepts (hname ▸ haccepts), if_pos rfl]
  | false => rw [visit_target_of_not_accepts (hname ▸ haccepts), if_neg Bool.false_ne_true]

/-- A dry scan notes the entries whose names a target accepts. -/
theorem takeEntries_dry (target : Glob) (directory : Path) (progress : Progress) :
    takeEntries .idle .dry target directory progress =
      ⟨progress.disk,
        ((target.pick directory (progress.disk.entries directory)).map .found).reverse ++
          progress.trace,
        (target.pick directory (progress.disk.entries directory)).reverse ++ progress.found⟩ := by
  rw [takeEntries]
  generalize progress.disk.entries directory = listing
  induction listing generalizing progress with
  | nil => rfl
  | cons entry rest ih =>
      rw [List.foldl_cons, ih, Glob.pick_cons]
      cases haccepts : target.accepts entry.1.text with
      | true => simp [Progress.take_dry, Glob.pick, haccepts]
      | false => simp [Glob.pick, haccepts]

/-- A target without `**` and without a slash takes among the entries of a directory what it takes on
a walk through all that is below, whatever others and the removals do meanwhile. If nothing does
anything, that is the entries whose names it accepts, in their order. -/
theorem takeTargets_eq_takeBelow {target : Glob} (hplain : target.isRecursive = false)
    (hslash : '/' ∉ target.source.toList) (directory : Path) (progress : Progress) :
    (∀ observer mode, takeTargets observer mode target directory progress =
      takeBelow observer mode target directory progress) ∧
      takeBelow .idle .dry target directory progress =
        ⟨progress.disk,
          ((target.pick directory (progress.disk.entries directory)).map .found).reverse ++
            progress.trace,
          (target.pick directory (progress.disk.entries directory)).reverse ++ progress.found⟩ := by
  constructor
  · intro observer mode
    rw [takeBelow_eq_takeEntries hplain hslash, takeTargets, if_neg (by simp [hplain])]
  · rw [takeBelow_eq_takeEntries hplain hslash, takeEntries_dry]

/-- What is in the inner directory is walked, and not taken. -/
theorem takeTargets_eq_takeBelow_of_one :
    Glob.isRecursive ⟨"?"⟩ = false ∧ '/' ∉ (Glob.mk "?").source.toList ∧
      (takeTargets .idle .dry ⟨"?"⟩ (Path.ofText "/w") ⟨nestedDisk, [], []⟩).found.reverse =
        (takeBelow .idle .dry ⟨"?"⟩ (Path.ofText "/w") ⟨nestedDisk, [], []⟩).found.reverse ∧
      (takeBelow .idle .dry ⟨"?"⟩ (Path.ofText "/w") ⟨nestedDisk, [], []⟩).found.reverse =
        [Path.ofText "/w/a", Path.ofText "/w/p"] := by
  have hplain : Glob.isRecursive ⟨"?"⟩ = false := by decide
  have hslash : '/' ∉ (Glob.mk "?").source.toList := by decide
  obtain ⟨hsame, hdry⟩ :=
    takeTargets_eq_takeBelow hplain hslash (Path.ofText "/w") ⟨nestedDisk, [], []⟩
  refine ⟨hplain, hslash, by rw [hsame], ?_⟩
  rw [hdry]
  cbv

end Sweep
