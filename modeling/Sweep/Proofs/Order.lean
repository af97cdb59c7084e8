import Sweep.Proofs.Preorder
/-!
# The order of paths

Paths are compared step by step, and steps by their bytes. So a directory comes before what it holds,
and what two directories hold stands as the directories do. What lies below a directory is listed in
this order, each path once.

## Main results

* `Disk.Under.spelled` — what lies below a path is spelled by the names that lead there.
* `Disk.pairwise_allBelow` — what lies below a directory is listed in order.
-/

namespace Sweep

open Disk

namespace Path

/-- Whether a path comes before another one, step by step and by the bytes of the steps. -/
def Before (a b : Path) : Prop :=
  a.steps < b.steps

theorem not_before_self (path : Path) : ¬ path.Before path :=
  List.lt_irrefl path.steps

theorem nodup_of_ordered {paths : List Path} (h : paths.Pairwise Before) : paths.Nodup := by
  apply h.imp
  intro first other hbefore heq
  rw [heq] at hbefore
  exact not_before_self other hbefore

/-- What is spelled with the steps of a path and more comes after it. -/
theorem before_of_longer {a b : Path} {step : Bytes} {more : List Bytes}
    (h : b.steps = a.steps ++ step :: more) : a.Before b := by
  have hmore : ([] : List Bytes) < step :: more := List.nil_lt_cons step more
  have happend : a.steps ++ [] < a.steps ++ step :: more := List.append_left_lt hmore
  rw [List.append_nil] at happend
  rw [Before, h]
  exact happend

/-- Where two paths part, the smaller step decides. -/
theorem before_of_step {a b : Path} {front left right : List Bytes} {step other : Bytes}
    (ha : a.steps = front ++ step :: left) (hb : b.steps = front ++ other :: right)
    (h : step < other) : a.Before b := by
  have hcons : step :: left < other :: right := List.cons_lt_cons_iff.2 (Or.inl h)
  rw [Before, ha, hb]
  exact List.append_left_lt hcons

/-- The steps of an entry in order are those of the directory and its name. -/
theorem IsFolded.before_child {path : Path} (h : path.IsFolded) {name key : Name}
    (hname : name.before key = true) : (path.child name.bytes).Before (path.child key.bytes) := by
  have hbytes : name.bytes < key.bytes := by simpa [Name.before] using hname
  exact before_of_step (h.steps_child name.bytes) (h.steps_child key.bytes) hbytes

end Path

/-! ## What lies below a directory -/

/-- What lies below a path is spelled by the names that lead there. -/
theorem Disk.Under.spelled {disk : Disk} {path : Path} {below : Place} {entry : Entry}
    (hfolded : path.IsFolded) (h : disk.Under path below entry) :
    ∃ names : Place, names ≠ [] ∧ entry.below = below ++ names ∧
      entry.path.steps = path.steps ++ names.map (·.bytes) := by
  induction h with
  | @entry path below name kind hlisted =>
      exact ⟨[name], by simp, rfl, hfolded.steps_child name.bytes⟩
  | @inner path below name entry hlisted next ih =>
      obtain ⟨names, -, hbelow, hsteps⟩ := ih (hfolded.child name)
      refine ⟨name :: names, by simp, ?_, ?_⟩
      · rw [hbelow, List.append_assoc, List.singleton_append]
      · rw [hsteps, hfolded.steps_child, List.append_assoc]
        rfl

/-- The path of what lies at or below an entry of a directory goes on with the name of that entry. -/
theorem Disk.Within.steps {disk : Disk} {path : Path} {below : Place} {name : Name} {kind : Kind}
    {entry : Entry} (hfolded : path.IsFolded) (h : disk.Within path below name kind entry) :
    ∃ more, entry.path.steps = path.steps ++ name.bytes :: more := by
  rcases h with rfl | ⟨-, hunder⟩
  · exact ⟨[], hfolded.steps_child name.bytes⟩
  · obtain ⟨names, -, -, hsteps⟩ := hunder.spelled (hfolded.child name)
    refine ⟨names.map (·.bytes), ?_⟩
    rw [hsteps, hfolded.steps_child, List.append_assoc, List.singleton_append]

/-- What lies at or below an entry of a directory comes before what lies at or below later ones. -/
theorem Disk.Within.before {disk : Disk} {path : Path} {below : Place} {name : Name} {kind : Kind}
    {rest : Listing} {entry other : Entry} (hfolded : path.IsFolded)
    (hrest : ∀ later ∈ rest, name.before later.1 = true)
    (h : disk.Within path below name kind entry) (hother : other ∈ disk.preorder path below rest) :
    entry.path.Before other.path := by
  obtain ⟨key, own, hmem, hwithin⟩ := Disk.mem_preorder_iff.1 hother
  have hbefore := hrest (key, own) hmem
  obtain ⟨more, hsteps⟩ := h.steps hfolded
  obtain ⟨others, hothers⟩ := hwithin.steps hfolded
  have hbytes : name.bytes < key.bytes := by simpa [Name.before] using hbefore
  exact Path.before_of_step hsteps hothers hbytes

/-- The entries of a directory with all that is below them are listed in order. -/
theorem Disk.pairwise_preorder {disk : Disk} {path : Path} {below : Place} {listing : Listing}
    (hfolded : path.IsFolded) (hlisting : listing.Pairwise fun a b => a.1.before b.1 = true) :
    (disk.preorder path below listing).Pairwise fun a b => a.path.Before b.path := by
  fun_induction disk.preorder path below listing with
  | case1 => exact .nil
  | case2 path below name rest fault hlist ih =>
      obtain ⟨hfirst, hrest⟩ := List.pairwise_cons.1 hlisting
      apply List.pairwise_cons.2
      constructor
      · intro other hother
        exact Disk.Within.before hfolded hfirst (Or.inl rfl) hother
      · exact ih hfolded hrest
  | case3 path below name rest contents hlist ihinner ih =>
      obtain ⟨hfirst, hrest⟩ := List.pairwise_cons.1 hlisting
      have hcontents := entries_of_list hlist
      have hchild := hfolded.child name
      have hinner := ihinner hchild (hcontents ▸ pairwise_entries disk (path.child name.bytes))
      -- all that is below the directory comes after it, and before what follows it in the listing
      have hunder : ∀ entry ∈ disk.preorder (path.child name.bytes) (below ++ [name]) contents,
          disk.Under (path.child name.bytes) (below ++ [name]) entry := by
        intro entry hentry
        rw [← hcontents] at hentry
        exact Disk.under_iff.2 (Disk.mem_preorder_iff.1 hentry)
      rw [List.pairwise_cons, List.pairwise_append]
      refine ⟨?_, hinner, ih hfolded hrest, ?_⟩
      · intro entry hentry
        rcases List.mem_append.1 hentry with hbelow | hlater
        · obtain ⟨names, hne, -, hsteps⟩ := (hunder entry hbelow).spelled hchild
          obtain ⟨first, names, rfl⟩ := List.exists_cons_of_ne_nil hne
          exact Path.before_of_longer hsteps
        · exact Disk.Within.before hfolded hfirst (Or.inl rfl) hlater
      · intro entry hentry other hother
        exact Disk.Within.before hfolded hfirst (Or.inr ⟨rfl, hunder entry hentry⟩) hother
  | case4 path below name kind rest hkind ih =>
      obtain ⟨hfirst, hrest⟩ := List.pairwise_cons.1 hlisting
      apply List.pairwise_cons.2
      constructor
      · intro other hother
        exact Disk.Within.before hfolded hfirst (Or.inl rfl) hother
      · exact ih hfolded hrest

/-- What lies below a directory is listed in order. -/
theorem Disk.pairwise_allBelow {path : Path} (hfolded : path.IsFolded) (disk : Disk) :
    (disk.allBelow path).Pairwise fun a b => a.path.Before b.path :=
  Disk.pairwise_preorder hfolded (pairwise_entries disk path)

end Sweep
