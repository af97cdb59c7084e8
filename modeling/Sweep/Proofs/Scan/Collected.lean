import Sweep.Proofs.Order
import Sweep.Proofs.Scan.Split
import Sweep.Proofs.Still
/-!
# The directories that a scan collects

Collecting directories leaves the disk alone, so it is a fold over all that is below the root. What
could not be listed is set apart on the way and left out at the end.

## Main results

* `Disk.collected_eq` — the directories at and below the root that can be listed.
* `Disk.pairwise_reached`, `Disk.pairwise_collected` — they stand in order, each once.
-/

namespace Sweep

open Disk

theorem snapshotVisitor_still (disk : Disk) :
    (snapshotVisitor .idle).Still disk fun collection => collection.progress.disk = disk where
  disk := fun _ h => h
  visit := fun _ _ h => by simpa using h
  fail := fun _ _ _ h => h
  enters := fun _ _ => rfl

/-- The directories among some entries are collected in their order. -/
theorem directories_foldl_pass (disk : Disk) (entries : List Entry) (collection : Collection) :
    (entries.foldl ((snapshotVisitor .idle).pass disk) collection).directories.reverse =
      collection.directories.reverse ++
        (entries.filter fun entry => entry.kind = .directory).map (·.path) := by
  refine Visitor.collected_foldl_pass (·.directories.reverse) (fun entry state => ?_) entries
    collection
  have hpass : ((snapshotVisitor .idle).pass disk state entry).directories =
      ((snapshotVisitor .idle).visit entry state).1.directories := by
    unfold Visitor.pass
    simp only
    split
    · split <;> rfl
    · rfl
  rw [hpass, directories_visit_snapshot]

/-- The directories among some entries that cannot be listed are set apart. -/
theorem mem_unlisted_foldl_pass {disk : Disk} {entries : List Entry} {collection : Collection}
    {directory : Path} :
    directory ∈ (entries.foldl ((snapshotVisitor .idle).pass disk) collection).unlisted ↔
      directory ∈ collection.unlisted ∨
        ∃ entry ∈ entries, entry.kind = .directory ∧ entry.path = directory ∧
          disk.lists directory = false := by
  induction entries generalizing collection with
  | nil => simp
  | cons entry rest ih =>
      have hpass : directory ∈ ((snapshotVisitor .idle).pass disk collection entry).unlisted ↔
          directory ∈ collection.unlisted ∨ entry.kind = .directory ∧ entry.path = directory ∧
            disk.lists directory = false := by
        unfold Visitor.pass
        simp only
        split
        · rename_i hkind
          split
          · rename_i fault hlist
            have hnot : disk.lists entry.path = false := by simp [Disk.lists, hlist, Except.toOption]
            simp only [snapshotVisitor, hkind, if_true, List.mem_cons]
            constructor
            · intro h
              rcases h with rfl | h
              · exact Or.inr ⟨trivial, rfl, hnot⟩
              · exact Or.inl h
            · intro h
              rcases h with h | ⟨-, rfl, -⟩
              · exact Or.inr h
              · exact Or.inl rfl
          · rename_i listing hlist
            have hlists : disk.lists entry.path = true := Disk.lists_iff.2 ⟨listing, hlist⟩
            rw [unlisted_visit_snapshot]
            constructor
            · exact Or.inl
            · intro h
              rcases h with h | ⟨-, rfl, hnot⟩
              · exact h
              · rw [hlists] at hnot
                cases hnot
        · rename_i hkind
          simp [hkind]
      rw [List.foldl_cons, ih, hpass]
      simp only [List.exists_mem_cons_iff, or_assoc]

/-- The directories at and below a root, each before those below it. -/
def Disk.reached (disk : Disk) (root : Path) : List Path :=
  (if disk.ownKind root = .ok .directory then [root] else []) ++
    ((disk.allBelow root).filter fun entry => entry.kind = .directory).map (·.path)

/-- A scan collects the directories at and below its root that can be listed. -/
theorem Disk.collected_eq (disk : Disk) (root : Path) :
    disk.collected root = (disk.reached root).filter disk.lists := by
  rw [Disk.collected, snapshot, run_snapshot, Disk.reached]
  generalize hstart : (if disk.ownKind root = .ok .directory then
    (⟨⟨disk, [], []⟩, [root], []⟩ : Collection) else ⟨⟨disk, [], []⟩, [], []⟩) = start
  have hdisk : start.progress.disk = disk := by
    rw [← hstart]
    split <;> rfl
  have hroot : start.directories.reverse =
      if disk.ownKind root = .ok .directory then [root] else [] := by
    rw [← hstart]
    split <;> rfl
  have hnone : start.unlisted = [] := by
    rw [← hstart]
    split <;> rfl
  cases hlist : disk.list root with
  | error fault =>
      have hlists : disk.lists root = false := by simp [Disk.lists, hlist, Except.toOption]
      rw [Disk.allBelow_of_unlisted hlist]
      by_cases hkind : disk.ownKind root = .ok .directory
      · have hrun : (snapshotVisitor .idle).run root false start =
            (snapshotVisitor .idle).fail root fault start := by
          unfold Visitor.run Visitor.visitDirectory
          have hsame : (snapshotVisitor .idle).disk start = disk := hdisk
          simp [hsame, hkind, hlist]
        rw [hrun]
        simp [snapshotVisitor, hroot, hkind, hlists]
      · have hbare : start = ⟨⟨disk, [], []⟩, [], []⟩ := by rw [← hstart, if_neg hkind]
        have hsame : (snapshotVisitor .idle).disk start = disk := hdisk
        rw [← hsame] at hlist
        have hdirectories : ((snapshotVisitor .idle).run root false start).directories = [] := by
          rcases Visitor.run_of_list_error _ hlist with hrun | ⟨cause, hrun⟩
          · rw [hrun, hbare]
          · rw [hrun, hbare]
            rfl
        simp [hdirectories, hkind]
  | ok listing =>
      have hlists : disk.lists root = true := Disk.lists_iff.2 ⟨listing, hlist⟩
      rw [(snapshotVisitor_still disk).run_eq_foldl hlist hdisk, directories_foldl_pass, hroot]
      apply List.filter_congr
      intro directory hdirectory
      have hset : directory ∈ ((disk.allBelow root).foldl ((snapshotVisitor .idle).pass disk)
            start).unlisted ↔ ∃ entry ∈ disk.allBelow root, entry.kind = .directory ∧
              entry.path = directory ∧ disk.lists directory = false := by
        rw [mem_unlisted_foldl_pass, hnone]
        simp
      cases hnot : disk.lists directory with
      | true => simp [hset, hnot]
      | false =>
          -- only the root is known to be listed without having been met on the walk
          have hmet : ∃ entry ∈ disk.allBelow root,
              entry.kind = .directory ∧ entry.path = directory := by
            rcases List.mem_append.1 hdirectory with hmem | hmem
            · split at hmem
              · rw [List.mem_singleton.1 hmem, hlists] at hnot
                cases hnot
              · cases hmem
            · obtain ⟨entry, hentry, hpath⟩ := List.mem_map.1 hmem
              rw [List.mem_filter, decide_eq_true_eq] at hentry
              exact ⟨entry, hentry.1, hentry.2, hpath⟩
          simpa [hset, hnot] using hmet

theorem Disk.mem_reached_iff {disk : Disk} {root directory : Path} :
    directory ∈ disk.reached root ↔ disk.Scanned root directory := by
  rw [Disk.reached, List.mem_append, List.mem_map]
  constructor
  · intro h
    rcases h with hroot | ⟨entry, hentry, rfl⟩
    · split at hroot
      · rename_i hkind
        obtain rfl := List.mem_singleton.1 hroot
        exact .root hkind
      · cases hroot
    · obtain ⟨path, below, kind⟩ := entry
      rw [List.mem_filter, decide_eq_true_eq, Disk.mem_allBelow_iff] at hentry
      obtain ⟨hunder, rfl⟩ := hentry
      exact .below hunder
  · intro h
    cases h with
    | root hkind =>
        rw [if_pos hkind]
        exact Or.inl (List.mem_singleton_self root)
    | @below _ below hunder =>
        refine Or.inr ⟨⟨directory, below, .directory⟩, ?_, rfl⟩
        rw [List.mem_filter, Disk.mem_allBelow_iff]
        exact ⟨hunder, decide_eq_true rfl⟩

/-- The directories at and below a root stand in order. -/
theorem Disk.pairwise_reached {root : Path} (hfolded : root.IsFolded) (disk : Disk) :
    (disk.reached root).Pairwise Path.Before := by
  rw [Disk.reached, List.pairwise_append]
  refine ⟨?_, ?_, ?_⟩
  · split <;> simp
  · rw [List.pairwise_map]
    exact (Disk.pairwise_allBelow hfolded disk).filter _
  · intro first hfirst other hother
    split at hfirst
    · obtain rfl := List.mem_singleton.1 hfirst
      obtain ⟨entry, hentry, rfl⟩ := List.mem_map.1 hother
      have hunder := Disk.mem_allBelow_iff.1 (List.mem_filter.1 hentry).1
      obtain ⟨names, hne, -, hsteps⟩ := hunder.spelled hfolded
      obtain ⟨name, names, rfl⟩ := List.exists_cons_of_ne_nil hne
      exact Path.before_of_longer hsteps
    · cases hfirst

/-- The directories that a scan collects stand in order. -/
theorem Disk.pairwise_collected {root : Path} (hfolded : root.IsFolded) (disk : Disk) :
    (disk.collected root).Pairwise Path.Before := by
  rw [Disk.collected_eq]
  exact (Disk.pairwise_reached hfolded disk).filter _

end Sweep
