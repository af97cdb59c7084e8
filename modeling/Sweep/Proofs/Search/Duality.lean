import Sweep.Proofs.Disk.Spelled
import Sweep.Proofs.Order
import Sweep.Proofs.Search.Meaning
import Sweep.Proofs.Still
import Sweep.Proofs.Text
/-!
# Looking up and looking down

What is above a directory is a matter of the spelling of its path, what is below it and beside it a
matter of listings. The two agree on a disk whose directories may all be read and searched, for paths
that are genuine: those of directories, across no link. There the holder of a directory shows it, so
each step up is undone by one step down.

## Main results

* `genuine_iff` — the genuine paths are those that spell the places of directories.
* `child_iff_holderOf`, `transGen_child_iff_contains` — what is shown below is what is spelled above.
* `Vicinity.directories_dual` — the vicinities upwards and downwards.
-/

namespace Sweep

open Disk

/-- All directories may be read and searched. -/
def Disk.Open (disk : Disk) : Prop :=
  ∀ place rights held, disk.at? place = some (.directory rights held) →
    rights.read = true ∧ rights.search = true

/-- A folded path from the root that crosses no link and is that of a directory. A path that is too
long is that of nothing. -/
structure Disk.Genuine (disk : Disk) (path : Path) : Prop where
  normal : path.IsNormal
  straight : disk.Straight path
  directory : disk.ownKind path = .ok .directory

/-- Lists without a path in common, and all their paths. -/
structure IsDisjointUnion (whole : List Path) (parts : List (List Path)) : Prop where
  mem_iff : ∀ path, path ∈ whole ↔ ∃ part ∈ parts, path ∈ part
  disjoint : parts.Pairwise List.Disjoint

/-! ## Places on an open disk -/

/-- A path to a place can be followed unless it is too long. -/
theorem Disk.start_pathOf_of_length {place : Place} (disk : Disk)
    (hlength : (pathOf place).length < pathLimit) : disk.start (pathOf place) = .ok [] := by
  have hzero : 0 ∉ (pathOf place).bytes := by
    intro hmem
    have hjoin : 0 ∈ Text.join [slash] (place.map (·.bytes)) := by
      simpa [pathOf, Path.bytes, slash] using hmem
    rcases Text.mem_join hjoin with hslash | ⟨step, hstep, hbyte⟩
    · simp [slash] at hslash
    · obtain ⟨name, -, rfl⟩ := List.mem_map.1 hstep
      exact name.proper.2.2.2.2.1 hbyte
  have hempty : (pathOf place).bytes ≠ [] := by simp [pathOf, Path.bytes]
  have hshort : ¬ pathLimit ≤ (pathOf place).length := by omega
  simp only [Disk.start, hzero, hempty, hshort, if_false]
  rfl

section Open

variable {disk : Disk} (hopen : disk.Open)

include hopen

/-- Names lead to the directory at their place. -/
theorem Disk.Open.leads {links : Nat} {here names : Place} {rights : Rights}
    {held : List (Name × Node)} (purpose : Purpose)
    (hat : disk.at? (here ++ names) = some (.directory rights held)) :
    Leads disk.root .user purpose links here (names.map (·.bytes)) links (here ++ names) := by
  induction names generalizing here with
  | nil =>
      rw [List.append_nil]
      exact .done
  | cons name rest ih =>
      rw [List.append_cons] at hat ⊢
      obtain ⟨own, entries, hnode⟩ := Node.directory_of_at?_append hat
      obtain ⟨access, siblings, hdir⟩ := Node.directory_of_at?_append hnode
      refine .enter hdir (by simp [Actor.may, (hopen _ _ _ hdir).2]) ?_ hnode (by simp) (ih hat)
      rintro ⟨-, hrest, hempty⟩
      obtain ⟨next, hnext⟩ := List.exists_mem_of_ne_nil _ hrest
      obtain ⟨key, -, rfl⟩ := List.mem_map.1 hnext
      exact key.proper.1 (hempty _ hnext)

theorem Disk.Open.resolve_pathOf {place : Place} {rights : Rights} {held : List (Name × Node)}
    (purpose : Purpose) (hlength : (pathOf place).length < pathLimit)
    (hat : disk.at? place = some (.directory rights held)) :
    disk.resolve .user purpose (pathOf place) = .ok place :=
  resolve_eq_ok_iff.2 ⟨[], linkLimit, disk.start_pathOf_of_length hlength, hopen.leads purpose hat⟩

/-- The genuine paths are those that spell the places of directories and are not too long. -/
theorem genuine_iff {path : Path} :
    disk.Genuine path ↔ path.length < pathLimit ∧ ∃ place rights held, path = pathOf place ∧
      disk.at? place = some (.directory rights held) := by
  constructor
  · intro h
    cases hnode : disk.node .user .look path with
    | error fault => simpa [Disk.ownKind, hnode, Except.map] using h.directory
    | ok node =>
        obtain ⟨place, hplace, hat⟩ := node_eq_ok_iff.1 hnode
        have hpath := pathOf_of_resolve h.normal.folded h.normal.rooted h.straight hplace
        refine ⟨length_lt_of_node hnode, place, ?_⟩
        have hkind : node.kind = .directory := by
          simpa [Disk.ownKind, hnode, Except.map] using h.directory
        cases node with
        | directory rights held => exact ⟨rights, held, hpath, hat⟩
        | file => cases hkind
        | link => cases hkind
  · rintro ⟨hlength, place, rights, held, rfl, hat⟩
    have hplace := hopen.resolve_pathOf .look hlength hat
    refine ⟨⟨isFolded_pathOf place, rfl⟩, straight_of_directory hat, ?_⟩
    rw [Disk.ownKind, node_eq_ok_iff.2 ⟨place, hplace, hat⟩]
    rfl

/-! ## Steps up and steps down -/

/-- The holder of a genuine path is genuine, and shows what is at the path. -/
theorem Disk.Genuine.of_holderOf {holder path : Path} (h : disk.Genuine path)
    (hholder : holder.HolderOf path) : disk.Genuine holder ∧ disk.Child holder path := by
  obtain ⟨hlength, place, rights, held, rfl, hat⟩ := (genuine_iff hopen).1 h
  rcases List.eq_nil_or_concat place with rfl | ⟨front, name, rfl⟩
  · obtain ⟨step, hstep⟩ := hholder
    simp [pathOf] at hstep
  · obtain rfl : pathOf front = holder := by
      refine Path.HolderOf.unique ⟨name.bytes, ?_⟩ hholder
      simp [pathOf]
    rw [List.concat_eq_append] at hlength hat ⊢
    obtain ⟨own, entries, hdir⟩ := Node.directory_of_at?_append hat
    have hshorter : (pathOf front).length < pathLimit := by
      have hlonger := Path.length_bytes_child (pathOf front) name.proper.1
      rw [pathOf_child] at hlonger
      omega
    refine ⟨(genuine_iff hopen).2 ⟨hshorter, front, own, entries, rfl, hdir⟩, name, ?_,
      (pathOf_child front name).symm⟩
    exact ⟨front, own, entries, _, hopen.resolve_pathOf .reach hshorter hdir, hdir,
      (hopen _ _ _ hdir).1, hat, rfl⟩

end Open

variable {disk : Disk} {directory path : Path}

theorem Disk.Child.holderOf (hfolded : directory.IsFolded) (h : disk.Child directory path) :
    directory.HolderOf path := by
  obtain ⟨name, -, rfl⟩ := h
  exact ⟨name.bytes, congrArg (Path.mk directory.rooted) (hfolded.steps_child name.bytes)⟩

theorem Disk.Child.isFolded (hfolded : directory.IsFolded) (h : disk.Child directory path) :
    path.IsFolded := by
  obtain ⟨name, -, rfl⟩ := h
  exact hfolded.child name

/-- Steps from child to child lead to paths that the first one contains. -/
theorem contains_of_transGen_child (hfolded : directory.IsFolded)
    (h : Relation.TransGen disk.Child directory path) :
    path.IsFolded ∧ directory.Contains path ∧ directory ≠ path := by
  induction h with
  | single hchild =>
      have hholder := hchild.holderOf hfolded
      exact ⟨hchild.isFolded hfolded, .of_holderOf hholder, hholder.ne⟩
  | tail _ hchild ih =>
      obtain ⟨hbetween, hcontains, -⟩ := ih
      have hholder := hchild.holderOf hbetween
      have hbelow := Path.Contains.of_holderOf hholder
      refine ⟨hchild.isFolded hbetween, hcontains.trans hbelow, ?_⟩
      rintro rfl
      exact hholder.ne (hbelow.antisymm hcontains)

/-- A genuine path is a child of the one that it is spelled below. -/
theorem child_iff_holderOf (hopen : disk.Open) (hfolded : directory.IsFolded)
    (hpath : disk.Genuine path) : disk.Child directory path ↔ directory.HolderOf path :=
  ⟨fun h => h.holderOf hfolded, fun h => (hpath.of_holderOf hopen h).2⟩

/-- Steps from child to child lead to the genuine paths that the first one contains. -/
theorem transGen_child_iff_contains (hopen : disk.Open) (hfolded : directory.IsFolded)
    (hpath : disk.Genuine path) :
    Relation.TransGen disk.Child directory path ↔ directory.Contains path ∧ directory ≠ path := by
  constructor
  · exact fun h => (contains_of_transGen_child hfolded h).2
  · -- from the path upwards, until the directory is its holder
    rintro ⟨hcontains, hne⟩
    induction hsteps : path.steps.length generalizing path with
    | zero =>
        have hnone : path.steps = [] := List.eq_nil_of_length_eq_zero hsteps
        have hback : path.Contains directory := ⟨hcontains.1.symm, by simp [hnone]⟩
        exact absurd (hcontains.antisymm hback) hne
    | succ count ih =>
        rcases path.steps_eq_nil_or_exists_holderOf with hnone | ⟨holder, hholder⟩
        · simp [hnone] at hsteps
        · obtain ⟨hgenuine, hchild⟩ := hpath.of_holderOf hopen hholder
          have habove := (hholder.contains_iff.1 hcontains).resolve_left hne
          by_cases hsame : directory = holder
          · exact .single (hsame ▸ hchild)
          · refine .tail (ih hgenuine habove hsame ?_) hchild
            obtain ⟨step, rfl⟩ := hholder
            simpa using hsteps

/-! ## Each directory once -/

theorem directoryCollector_still (disk : Disk) :
    (directoryCollector disk).Still disk fun _ => True :=
  ⟨fun _ _ => rfl, fun _ _ _ => trivial, fun _ _ _ _ => trivial, fun _ _ => rfl⟩

/-- The search below a directory finds the directories among all that is below it, in order. -/
theorem Disk.directoriesBelow_eq (disk : Disk) (path : Path) :
    disk.directoriesBelow path =
      ((disk.allBelow path).filter fun entry => entry.kind = .directory).map (·.path) := by
  cases hlist : disk.list path with
  | error fault =>
      have hrun : (directoryCollector disk).run path false [] = [] := by
        rcases Visitor.run_of_list_error (directoryCollector disk) hlist with hsame | ⟨cause, hfail⟩
        · exact hsame
        · exact hfail
      rw [Disk.directoriesBelow, hrun, Disk.allBelow_of_unlisted hlist]
      rfl
  | ok listing =>
      rw [Disk.directoriesBelow, (directoryCollector_still disk).run_eq_foldl hlist trivial]
      refine Visitor.collected_foldl_pass List.reverse (fun entry paths => ?_) _ []
      simp only [Visitor.pass, directoryCollector]
      split
      · split <;> simp
      · simp

theorem Disk.nodup_directoriesBelow (hfolded : path.IsFolded) (disk : Disk) :
    (disk.directoriesBelow path).Nodup := by
  rw [Disk.directoriesBelow_eq, List.Nodup, List.pairwise_map]
  refine ((Disk.pairwise_allBelow hfolded disk).filter _).imp fun hbefore hsame => ?_
  rw [hsame] at hbefore
  exact Path.not_before_self _ hbefore

theorem Disk.nodup_directoriesIn (hfolded : path.IsFolded) (disk : Disk) :
    (disk.directoriesIn path).Nodup := by
  rw [Disk.directoriesIn, List.Nodup, List.pairwise_map]
  refine ((pairwise_ne_entries disk path).filter _).imp fun hne hsame => hne ?_
  exact (hfolded.child_injective hfolded hsame).2

/-- What is below a directory are its children and, apart from those, what is below each of them. -/
theorem Disk.isDisjointUnion_directoriesBelow (hfolded : directory.IsFolded) (disk : Disk) :
    IsDisjointUnion (disk.directoriesBelow directory)
      ((disk.directoriesIn directory).flatMap fun child => [[child], disk.directoriesBelow child])
    where
  mem_iff path := by
    rw [mem_directoriesBelow_iff_transGen, transGen_child_iff_of_enumerates (.refl _)]
    simp only [← mem_directoriesBelow_iff_transGen, List.mem_flatMap]
    constructor
    · rintro ⟨child, hchild, rfl | hbelow⟩
      · exact ⟨[path], ⟨path, hchild, by simp⟩, by simp⟩
      · exact ⟨disk.directoriesBelow child, ⟨child, hchild, by simp⟩, hbelow⟩
    · rintro ⟨part, ⟨child, hchild, hpart⟩, hpath⟩
      refine ⟨child, hchild, ?_⟩
      rcases List.mem_pair.1 hpart with rfl | rfl
      · exact Or.inl (List.mem_singleton.1 hpath)
      · exact Or.inr hpath
  disjoint := by
    have hbelow : ∀ child ∈ disk.directoriesIn directory, ∀ path ∈ disk.directoriesBelow child,
        child.Contains path ∧ child ≠ path := by
      intro child hchild path hpath
      have hshown := mem_directoriesIn_iff.1 hchild
      exact (contains_of_transGen_child (hshown.isFolded hfolded)
        (mem_directoriesBelow_iff_transGen.1 hpath)).2
    have hat : ∀ child ∈ disk.directoriesIn directory,
        ∀ part ∈ [[child], disk.directoriesBelow child], ∀ path ∈ part, child.Contains path := by
      intro child hchild part hpart path hpath
      rcases List.mem_pair.1 hpart with rfl | rfl
      · exact List.mem_singleton.1 hpath ▸ Path.Contains.refl child
      · exact (hbelow child hchild path hpath).1
    rw [List.pairwise_flatMap]
    constructor
    · intro child hchild
      rw [List.pairwise_pair, List.singleton_disjoint]
      exact fun hself => (hbelow child hchild child hself).2 rfl
    · refine (disk.nodup_directoriesIn hfolded).imp_of_mem fun {child other} hchild hother hne => ?_
      intro part hpart more hmore path hpath hshared
      have hholder := (mem_directoriesIn_iff.1 hchild).holderOf hfolded
      have hsame := (mem_directoriesIn_iff.1 hother).holderOf hfolded
      exact hne (hholder.eq_of_contains hsame (hat child hchild part hpart path hpath)
        (hat other hother more hmore path hshared))

/-! ## The vicinities upwards and downwards -/

theorem Vicinity.parent_directories_eq_iff {holder : Path} (hfolded : directory.IsFolded)
    (disk : Disk) : parent.directories disk directory = [holder] ↔ holder.HolderOf directory := by
  rw [← hfolded.parent?_eq_some_iff, Vicinity.directories]
  cases directory.parent? <;> simp

/-- Beside a genuine path are the others that have the same parent. -/
theorem Vicinity.mem_sibling_directories_iff (hopen : disk.Open) (hdirectory : disk.Genuine directory)
    (hpath : disk.Genuine path) :
    path ∈ sibling.directories disk directory ↔ path ≠ directory ∧
      ∃ holder, disk.Genuine holder ∧ parent.directories disk directory = [holder] ∧
        parent.directories disk path = [holder] := by
  rw [Vicinity.mem_directories_iff hdirectory.normal.folded]
  simp only [Vicinity.Around, parent_directories_eq_iff hdirectory.normal.folded,
    parent_directories_eq_iff hpath.normal.folded]
  refine and_congr_right fun _ => exists_congr fun holder => ?_
  constructor
  · intro h
    obtain ⟨hholder, hchild⟩ := h
    have hgenuine := (hdirectory.of_holderOf hopen hholder).1
    exact ⟨hgenuine, hholder, hchild.holderOf hgenuine.normal.folded⟩
  · intro h
    obtain ⟨-, hholder, hsame⟩ := h
    exact ⟨hholder, (hpath.of_holderOf hopen hsame).2⟩

/-- At genuine paths on an open disk, being a child is the converse of being the parent, and being
further down that of being further up. Beside each other are those that have the same parent. What is
below a directory is found once, and is made up of its children and what is below each of them. -/
theorem Vicinity.directories_dual (hopen : disk.Open) (hdirectory : disk.Genuine directory)
    (hpath : disk.Genuine path) :
    (path ∈ child.directories disk directory ↔ parent.directories disk path = [directory]) ∧
    (path ∈ children.directories disk directory ↔ directory ∈ parents.directories disk path) ∧
    (path ∈ sibling.directories disk directory ↔ directory ∈ sibling.directories disk path) ∧
    (path ∈ sibling.directories disk directory ↔ path ≠ directory ∧
      ∃ holder, disk.Genuine holder ∧ parent.directories disk directory = [holder] ∧
        parent.directories disk path = [holder]) ∧
    (children.directories disk directory).Nodup ∧
    IsDisjointUnion (children.directories disk directory)
      ((child.directories disk directory).flatMap fun found =>
        [[found], children.directories disk found]) := by
  have hfolded := hdirectory.normal.folded
  have hspelled := hpath.normal.folded
  refine ⟨?_, ?_, ?_, mem_sibling_directories_iff hopen hdirectory hpath,
    disk.nodup_directoriesBelow hfolded, disk.isDisjointUnion_directoriesBelow hfolded⟩
  · rw [mem_directories_iff hfolded, parent_directories_eq_iff hspelled]
    exact child_iff_holderOf hopen hfolded hpath
  · rw [mem_directories_iff hfolded, mem_directories_iff hspelled]
    exact transGen_child_iff_contains hopen hfolded hpath
  · rw [mem_sibling_directories_iff hopen hdirectory hpath,
      mem_sibling_directories_iff hopen hpath hdirectory, ne_comm]
    exact and_congr_right fun _ => exists_congr fun holder => and_congr_right fun _ => and_comm

/-- A disk with a directory `/p` that holds a directory `q`. -/
def nestDisk : Disk :=
  .ofLeaves [("/p/q", .empty)]

theorem open_nestDisk : nestDisk.Open := by
  intro place rights held hat
  suffices hrights : rights = .ofDirectory by
    rw [hrights]
    decide
  have hdisk : nestDisk.root = .directory .ofDirectory
      [(.ofText "p", .directory .ofDirectory [(.ofText "q", .directory .ofDirectory [])])] := rfl
  rcases place with _ | ⟨first, _ | ⟨second, _ | ⟨third, rest⟩⟩⟩ <;>
    simp only [hdisk, Disk.at?, Node.at?_nil, Node.at?_cons, Node.entry?, List.lookup] at hat <;>
    grind

/-- The root is above `/p/q` by the spelling, so `/p/q` is found below it. -/
theorem mem_children_of_nest :
    Path.ofText "/p/q" ∈ Vicinity.children.directories nestDisk (Path.ofText "/") := by
  have hroot : nestDisk.Genuine (Path.ofText "/") :=
    (genuine_iff open_nestDisk).2 ⟨by decide, [], _, _, by decide, rfl⟩
  have hinner : nestDisk.Genuine (Path.ofText "/p/q") :=
    (genuine_iff open_nestDisk).2
      ⟨by decide, .ofText "/p/q", .ofDirectory, [], by decide, by rfl⟩
  have habove : Path.ofText "/" ∈ Vicinity.parents.directories nestDisk (Path.ofText "/p/q") :=
    (Path.IsFolded.mem_above_iff (by decide)).2 (by decide)
  exact (Vicinity.directories_dual open_nestDisk hroot hinner).2.1.2 habove

end Sweep
