import Sweep.Proofs.Follow
/-!
# Walks through a disk that stays as it is

A visitor that leaves the disk alone and goes into everything visits what lies below the start of its
walk in the order of `preorder`, and hears of each directory that cannot be listed right after it has
visited it. So such a walk is a fold.

## Main results

* `Visitor.Still.run_eq_foldl` — the walk from a directory that can be listed, as a fold.
* `Visitor.collected_foldl_pass` — what such a fold collects.
-/

namespace Sweep.Visitor

open Disk

variable {σ : Type} {visitor : Visitor σ} {disk : Disk} {still : σ → Prop}

/-- Visits an entry, and hears of it if it is a directory that cannot be listed. -/
def pass (visitor : Visitor σ) (disk : Disk) (state : σ) (entry : Entry) : σ :=
  let visited := (visitor.visit entry state).1
  if entry.kind = .directory then
    match disk.list entry.path with
    | .error fault => visitor.fail entry.path fault visited
    | .ok _ => visited
  else visited

theorem pass_plain (visitor : Visitor σ) (disk : Disk) (state : σ) {entry : Entry}
    (hkind : entry.kind ≠ .directory) :
    visitor.pass disk state entry = (visitor.visit entry state).1 :=
  if_neg hkind

theorem pass_unlisted (visitor : Visitor σ) {disk : Disk} (state : σ) {entry : Entry} {fault : Fault}
    (hkind : entry.kind = .directory) (hlist : disk.list entry.path = .error fault) :
    visitor.pass disk state entry =
      visitor.fail entry.path fault (visitor.visit entry state).1 := by
  simp only [pass, hkind, if_true, hlist]

theorem pass_listed (visitor : Visitor σ) {disk : Disk} (state : σ) {entry : Entry}
    {listing : Listing} (hlist : disk.list entry.path = .ok listing) :
    visitor.pass disk state entry = (visitor.visit entry state).1 := by
  simp only [pass, hlist, ite_self]

/-- A visitor that collects the path of each directory it passes collects the directories among some
entries in their order. -/
theorem collected_foldl_pass (collected : σ → List Path)
    (hpass : ∀ entry state, collected (visitor.pass disk state entry) =
      collected state ++ if entry.kind = .directory then [entry.path] else [])
    (entries : List Entry) (state : σ) :
    collected (entries.foldl (visitor.pass disk) state) =
      collected state ++ (entries.filter fun entry => entry.kind = .directory).map (·.path) := by
  induction entries generalizing state with
  | nil => simp
  | cons entry rest ih =>
      rw [List.foldl_cons, ih, hpass]
      by_cases hkind : entry.kind = .directory <;> simp [hkind]

namespace Still

variable (h : visitor.Still disk still)

include h

theorem pass (entry : Entry) {state : σ} (hstate : still state) :
    still (visitor.pass disk state entry) := by
  have hvisited := h.visit entry state hstate
  unfold Visitor.pass
  simp only
  split
  · split
    · exact h.fail _ _ _ hvisited
    · exact hvisited
  · exact hvisited

theorem foldl_pass (entries : List Entry) {state : σ} (hstate : still state) :
    still (entries.foldl (visitor.pass disk) state) := by
  induction entries generalizing state with
  | nil => exact hstate
  | cons entry rest ih => exact ih (h.pass entry hstate)

/-- The visits of a listing are a fold over its entries and all that is below them. -/
theorem visitListing_eq_foldl (path : Path) (below : Place) (listing : Listing) {state : σ}
    (hstate : still state) : visitor.visitListing path below listing state =
      (disk.preorder path below listing).foldl (visitor.pass disk) state := by
  fun_induction disk.preorder path below listing generalizing state with
  | case1 => rw [visitListing, List.foldl_nil]
  | case2 path below name rest fault hlist ih =>
      have hpassed := h.pass ⟨path.child name.bytes, below ++ [name], .directory⟩ hstate
      have hread : (visitor.disk state).list (path.child name.bytes) = .error fault := by
        rw [h.disk state hstate, hlist]
      rw [visitListing_unlisted visitor hread, List.foldl_cons, ← ih hpassed,
        visitor.pass_unlisted state rfl hlist]
      simp only [h.enters, if_true]
  | case3 path below name rest contents hlist ihinner ih =>
      have hpassed := h.pass ⟨path.child name.bytes, below ++ [name], .directory⟩ hstate
      have hread : (visitor.disk state).list (path.child name.bytes) = .ok contents := by
        rw [h.disk state hstate, hlist]
      have hinner := h.foldl_pass (disk.preorder (path.child name.bytes) (below ++ [name]) contents)
        hpassed
      rw [visitListing_listed visitor hread, List.foldl_cons, List.foldl_append, ← ih hinner,
        ← ihinner hpassed, visitor.pass_listed state hlist]
      simp only [h.enters, if_true]
  | case4 path below name kind rest hkind ih =>
      have hpassed := h.pass ⟨path.child name.bytes, below ++ [name], kind⟩ hstate
      rw [visitListing_plain visitor hkind, List.foldl_cons, ← ih hpassed,
        visitor.pass_plain disk state hkind]

/-- The walk from a directory that can be listed is a fold over all that is below it. -/
theorem run_eq_foldl {path : Path} {listing : Listing} (hlist : disk.list path = .ok listing)
    {state : σ} (hstate : still state) :
    visitor.run path false state = (disk.allBelow path).foldl (visitor.pass disk) state := by
  have hread : (visitor.disk state).list path = .ok listing := by
    rw [h.disk state hstate, hlist]
  rw [run_of_list visitor hread, h.visitListing_eq_foldl path [] listing hstate, Disk.allBelow,
    entries_of_list hlist]

end Still

end Sweep.Visitor
