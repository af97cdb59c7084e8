import Sweep.Disk.Reading
/-!
# Walks

A walk visits what is below a path, each directory before its contents and the entries of a
directory in the order of their names. What a directory holds is read right before the directory is
visited, so the visit itself may change the disk: the walk goes on with what it has read, and reads
directories further down as they are then.

An entry is what the listing that named it said it was. A symbolic link is therefore not entered;
but the path at which a walk starts is followed through a link, and a directory that has become a
link since it was listed is read through that link as well.

A visitor keeps a state of its own kind, in which the disk is found, and decides after each
directory whether its contents are visited too.

## Main results

* `visitListing` ends for every visitor, whatever it does to the disk: a directory can be listed
  only if its path is shorter than `pathLimit`, and each level down makes the path longer.
* `run_keeps` — what every visit keeps, a walk keeps.
-/

namespace Sweep

open Disk

/-- An entry that a walk visits. -/
structure Entry where
  /-- Where it is. -/
  path : Path
  /-- The names that lead to it from the start of the walk. -/
  below : Place
  /-- What the listing said it is. -/
  kind : Kind
deriving DecidableEq

/-- What is done on a walk. -/
structure Visitor (σ : Type) where
  disk : σ → Disk
  /-- Visits an entry, and says whether to go on into it. -/
  visit : Entry → σ → σ × Bool
  /-- Hears of a directory that cannot be listed, or of a start that cannot be looked up. -/
  fail : Path → Fault → σ → σ

namespace Visitor

variable {σ : Type}

theorem measure_child_lt {disk : Disk} {path : Path} {name : Name} {listing : Listing}
    (h : disk.list (path.child name.bytes) = .ok listing) :
    pathLimit - (path.child name.bytes).length < pathLimit - path.length := by
  have hlimit := length_lt_of_list h
  have hlonger := Path.length_bytes_child path name.proper.1
  omega

/-- Visits the entries of a listing of the directory at `path`, and what is below them. -/
def visitListing (visitor : Visitor σ) (path : Path) (below : Place) (listing : Listing)
    (state : σ) : σ :=
  match listing with
  | [] => state
  | (name, .directory) :: rest =>
    let entry : Entry := ⟨path.child name.bytes, below ++ [name], .directory⟩
    match _h : (visitor.disk state).list (path.child name.bytes) with
    | .error fault =>
      let (state, enter) := visitor.visit entry state
      visitor.visitListing path below rest
        (if enter then visitor.fail entry.path fault state else state)
    | .ok contents =>
      let (state, enter) := visitor.visit entry state
      visitor.visitListing path below rest
        (if enter then visitor.visitListing (path.child name.bytes) (below ++ [name]) contents state
        else state)
  | (name, kind) :: rest =>
    visitor.visitListing path below rest
      (visitor.visit ⟨path.child name.bytes, below ++ [name], kind⟩ state).1
termination_by (pathLimit - path.length, listing.length)
decreasing_by
  · exact Prod.Lex.right _ (Nat.lt_succ_self _)
  · exact Prod.Lex.left _ _ (measure_child_lt _h)
  · exact Prod.Lex.right _ (Nat.lt_succ_self _)
  · exact Prod.Lex.right _ (Nat.lt_succ_self _)

/-- Visits the start of a walk and all below it, when the start is or leads to a directory. -/
def visitDirectory (visitor : Visitor σ) (start : Entry) (withStart : Bool) (state : σ) : σ :=
  let listing := (visitor.disk state).list start.path
  let state := if withStart then (visitor.visit start state).1 else state
  match listing with
  | .error fault => visitor.fail start.path fault state
  | .ok listing => visitor.visitListing start.path [] listing state

/-- Walks from a path; the path itself is visited only if `withStart` says so. -/
def run (visitor : Visitor σ) (path : Path) (withStart : Bool) (state : σ) : σ :=
  let disk := visitor.disk state
  match disk.ownKind path with
  | .error fault => visitor.fail path fault state
  | .ok .directory => visitor.visitDirectory ⟨path, [], .directory⟩ withStart state
  | .ok .file => if withStart then (visitor.visit ⟨path, [], .file⟩ state).1 else state
  | .ok .link =>
    match disk.kind path with
    | .error fault => visitor.fail path fault state
    | .ok .directory => visitor.visitDirectory ⟨path, [], .link⟩ withStart state
    | .ok _ => if withStart then (visitor.visit ⟨path, [], .link⟩ state).1 else state

/-! ## What a walk keeps -/

section Keeps

variable {visitor : Visitor σ} (keeps : σ → Prop)
  (hvisit : ∀ entry state, keeps state → keeps (visitor.visit entry state).1)
  (hfail : ∀ path fault state, keeps state → keeps (visitor.fail path fault state))

include hvisit hfail

/-- What every visit keeps, the visits of a listing keep. -/
theorem visitListing_keeps (path : Path) (below : Place) (listing : Listing) (state : σ)
    (h : keeps state) : keeps (visitor.visitListing path below listing state) := by
  fun_induction visitor.visitListing path below listing state with
  | case1 => exact h
  | case2 path below state name rest entry fault hlist visited enter hvisited ih =>
    refine ih ?_
    have hkept := hvisit entry state h
    rw [hvisited] at hkept
    split
    · exact hfail _ _ _ hkept
    · exact hkept
  | case3 path below state name rest entry contents hlist visited enter hvisited ih₁ ih₂ =>
    refine ih₂ ?_
    have hkept := hvisit entry state h
    rw [hvisited] at hkept
    split
    · exact ih₁ hkept
    · exact hkept
  | case4 path below state name kind rest hkind ih => exact ih (hvisit _ _ h)

/-- What every visit keeps, the visits of a directory keep. -/
theorem visitDirectory_keeps (start : Entry) (withStart : Bool) (state : σ) (h : keeps state) :
    keeps (visitor.visitDirectory start withStart state) := by
  have hstart : keeps (if withStart then (visitor.visit start state).1 else state) := by
    split
    · exact hvisit _ _ h
    · exact h
  unfold visitDirectory
  simp only
  split
  · exact hfail _ _ _ hstart
  · exact visitListing_keeps keeps hvisit hfail _ _ _ _ hstart

/-- What every visit keeps, a walk keeps. -/
theorem run_keeps (path : Path) (withStart : Bool) (state : σ) (h : keeps state) :
    keeps (visitor.run path withStart state) := by
  unfold run
  simp only
  split
  · exact hfail _ _ _ h
  · exact visitDirectory_keeps keeps hvisit hfail _ _ _ h
  · split
    · exact hvisit _ _ h
    · exact h
  · split
    · exact hfail _ _ _ h
    · exact visitDirectory_keeps keeps hvisit hfail _ _ _ h
    · split
      · exact hvisit _ _ h
      · exact h

end Keeps

end Visitor

end Sweep
