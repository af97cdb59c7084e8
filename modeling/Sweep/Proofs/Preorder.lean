import Sweep.Proofs.Disk.Listed
import Sweep.Proofs.Walk
/-!
# What lies below a directory, in order

`preorder` puts what lies below a directory into one list, in the order in which a walk through a
disk that stays as it is visits it: each directory before what it holds, and the entries of a
directory as its listing shows them.

## Main results

* `mem_allBelow_iff` — the list holds what lies below a directory.
-/

namespace Sweep

open Disk

/-! ## Everything below a directory -/

/-- The entries of a listing and all that is below them, each directory before what it holds. -/
def Disk.preorder (disk : Disk) (path : Path) (below : Place) (listing : Listing) : List Entry :=
  match listing with
  | [] => []
  | (name, .directory) :: rest =>
    match _h : disk.list (path.child name.bytes) with
    | .error _ =>
      ⟨path.child name.bytes, below ++ [name], .directory⟩ :: disk.preorder path below rest
    | .ok contents =>
      ⟨path.child name.bytes, below ++ [name], .directory⟩ ::
        (disk.preorder (path.child name.bytes) (below ++ [name]) contents ++
          disk.preorder path below rest)
  | (name, kind) :: rest =>
    ⟨path.child name.bytes, below ++ [name], kind⟩ :: disk.preorder path below rest
termination_by (pathLimit - path.length, listing.length)
decreasing_by
  · exact Prod.Lex.right _ (Nat.lt_succ_self _)
  · exact Prod.Lex.left _ _ (Visitor.measure_child_lt _h)
  · exact Prod.Lex.right _ (Nat.lt_succ_self _)
  · exact Prod.Lex.right _ (Nat.lt_succ_self _)

/-- All that is below a directory, each directory before what it holds. -/
def Disk.allBelow (disk : Disk) (path : Path) : List Entry :=
  disk.preorder path [] (disk.entries path)

theorem Disk.preorder_directory (disk : Disk) (path : Path) (below : Place) (name : Name)
    (rest : Listing) :
    disk.preorder path below ((name, .directory) :: rest) =
      ⟨path.child name.bytes, below ++ [name], .directory⟩ ::
        (disk.preorder (path.child name.bytes) (below ++ [name])
          (disk.entries (path.child name.bytes)) ++ disk.preorder path below rest) := by
  rw [Disk.preorder]
  split
  · rename_i fault hlist
    simp [Disk.entries, hlist, Except.toOption, Disk.preorder]
  · rename_i contents hlist
    rw [entries_of_list hlist]

theorem Disk.preorder_plain (disk : Disk) (path : Path) (below : Place) (name : Name) {kind : Kind}
    (rest : Listing) (hkind : kind ≠ .directory) :
    disk.preorder path below ((name, kind) :: rest) =
      ⟨path.child name.bytes, below ++ [name], kind⟩ :: disk.preorder path below rest := by
  rw [Disk.preorder]
  exact hkind

/-- What lies at or below an entry of a listing. -/
def Disk.Within (disk : Disk) (path : Path) (below : Place) (name : Name) (kind : Kind)
    (entry : Entry) : Prop :=
  entry = ⟨path.child name.bytes, below ++ [name], kind⟩ ∨
    kind = .directory ∧ disk.Under (path.child name.bytes) (below ++ [name]) entry

theorem Disk.under_iff {disk : Disk} {path : Path} {below : Place} {entry : Entry} :
    disk.Under path below entry ↔
      ∃ name kind, (name, kind) ∈ disk.entries path ∧ disk.Within path below name kind entry := by
  constructor
  · intro h
    cases h with
    | entry hlisted => exact ⟨_, _, hlisted, Or.inl rfl⟩
    | inner hlisted next => exact ⟨_, _, hlisted, Or.inr ⟨rfl, next⟩⟩
  · rintro ⟨name, kind, hlisted, rfl | ⟨rfl, next⟩⟩
    · exact .entry hlisted
    · exact .inner hlisted next

theorem Disk.mem_preorder_iff {disk : Disk} {path : Path} {below : Place} {listing : Listing}
    {entry : Entry} :
    entry ∈ disk.preorder path below listing ↔
      ∃ name kind, (name, kind) ∈ listing ∧ disk.Within path below name kind entry := by
  fun_induction disk.preorder path below listing with
  | case1 => simp
  | case2 path below name rest fault hlist ih =>
      have hnone : ¬ disk.Under (path.child name.bytes) (below ++ [name]) entry := by
        intro hunder
        obtain ⟨listing, hlisting⟩ := hunder.listed
        rw [hlist] at hlisting
        cases hlisting
      simp only [List.mem_cons, ih, Prod.mk.injEq]
      constructor
      · rintro (rfl | ⟨other, kind, hmem, hwithin⟩)
        · exact ⟨name, .directory, Or.inl ⟨rfl, rfl⟩, Or.inl rfl⟩
        · exact ⟨other, kind, Or.inr hmem, hwithin⟩
      · rintro ⟨other, kind, ⟨rfl, rfl⟩ | hmem, hwithin⟩
        · exact Or.inl (hwithin.resolve_right fun hunder => hnone hunder.2)
        · exact Or.inr ⟨other, kind, hmem, hwithin⟩
  | case3 path below name rest contents hlist ihinner ih =>
      have hunder : disk.Under (path.child name.bytes) (below ++ [name]) entry ↔
          entry ∈ disk.preorder (path.child name.bytes) (below ++ [name]) contents := by
        rw [Disk.under_iff, entries_of_list hlist, ihinner]
      simp only [List.mem_cons, List.mem_append, ih, Prod.mk.injEq, ← hunder]
      constructor
      · rintro (rfl | hinner | ⟨other, kind, hmem, hwithin⟩)
        · exact ⟨name, .directory, Or.inl ⟨rfl, rfl⟩, Or.inl rfl⟩
        · exact ⟨name, .directory, Or.inl ⟨rfl, rfl⟩, Or.inr ⟨rfl, hinner⟩⟩
        · exact ⟨other, kind, Or.inr hmem, hwithin⟩
      · rintro ⟨other, kind, ⟨rfl, rfl⟩ | hmem, hwithin⟩
        · exact hwithin.imp id fun hinner => Or.inl hinner.2
        · exact Or.inr (Or.inr ⟨other, kind, hmem, hwithin⟩)
  | case4 path below name own rest hown ih =>
      simp only [List.mem_cons, ih, Prod.mk.injEq]
      constructor
      · rintro (rfl | ⟨other, kind, hmem, hwithin⟩)
        · exact ⟨name, own, Or.inl ⟨rfl, rfl⟩, Or.inl rfl⟩
        · exact ⟨other, kind, Or.inr hmem, hwithin⟩
      · rintro ⟨other, kind, ⟨rfl, rfl⟩ | hmem, hwithin⟩
        · exact Or.inl (hwithin.resolve_right fun hinner => hown hinner.1)
        · exact Or.inr ⟨other, kind, hmem, hwithin⟩

theorem Disk.allBelow_of_unlisted {disk : Disk} {path : Path} {fault : Fault}
    (hlist : disk.list path = .error fault) : disk.allBelow path = [] := by
  have hentries : disk.entries path = [] := by simp [Disk.entries, hlist, Except.toOption]
  rw [Disk.allBelow, hentries, Disk.preorder]

/-- The list holds what lies below a directory. -/
theorem Disk.mem_allBelow_iff {disk : Disk} {path : Path} {entry : Entry} :
    entry ∈ disk.allBelow path ↔ disk.Under path [] entry := by
  rw [Disk.allBelow, Disk.mem_preorder_iff, Disk.under_iff]

end Sweep
