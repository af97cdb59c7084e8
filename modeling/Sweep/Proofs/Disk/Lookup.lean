import Sweep.Path.Folded
import Sweep.Proofs.Disk.Leads
/-!
# Looking things up on a pruned disk

What the user learns about a disk through paths only becomes less when the disk is pruned: a path
that still leads somewhere leads where it led, and a listing shows nothing that it did not show.

Along a straight path, look-ups are about the place that the path spells.

## Main results

* `mem_listing` — a listing shows each name with the kind of the node that counts for it.
* `PrunedWithin.resolve`, `PrunedWithin.mem_entries` — look-ups on a pruned disk.
* `mem_entries_pathOf` — what is listed at a straight path is there.
-/

namespace Sweep.Disk

open Node

/-! ## Listings -/

theorem Name.ne_of_before {a b : Name} (h : a.before b = true) : a ≠ b := by
  rintro rfl
  simp only [Name.before, decide_eq_true_eq] at h
  exact List.lt_irrefl _ h

theorem mem_insertByName_iff {α : Type} {name : Name} {x : α} {entries : List (Name × α)}
    {entry : Name × α} (h : entries.Pairwise fun a b => a.1.before b.1 = true) :
    entry ∈ insertByName name x entries ↔
      entry = (name, x) ∨ entry ∈ entries ∧ entry.1 ≠ name := by
  induction entries with
  | nil => simp [insertByName]
  | cons first rest ih =>
      rw [List.pairwise_cons] at h
      rw [insertByName]
      split
      · rename_i hname
        have hrest : entry ∈ rest → entry.1 ≠ name := fun hentry =>
          hname ▸ (Name.ne_of_before (h.1 entry hentry)).symm
        grind
      · rename_i hname
        split
        · rename_i hbefore
          have hrest : entry ∈ rest → entry.1 ≠ name := fun hentry =>
            (Name.ne_of_before (Name.before_trans hbefore (h.1 entry hentry))).symm
          grind
        · have hrest := ih h.2
          grind

/-- A sorted list holds each name with what counts for it. -/
theorem mem_sortByName {α : Type} {entries : List (Name × α)} {name : Name} {x : α} :
    (name, x) ∈ sortByName entries ↔ entries.lookup name = some x := by
  induction entries with
  | nil => simp [sortByName]
  | cons entry rest ih =>
      obtain ⟨key, y⟩ := entry
      rw [sortByName, List.foldr_cons, ← sortByName, mem_insertByName_iff (pairwise_sorted rest),
        lookup_cons_ite, ih]
      by_cases hname : name = key <;> simp [hname, eq_comm]

/-- A listing shows each name with the kind of the node that counts for it. -/
theorem mem_listing {entries : List (Name × Node)} {name : Name} {kind : Kind} :
    (name, kind) ∈ listing entries ↔
      ∃ node, entries.lookup name = some node ∧ node.kind = kind := by
  rw [listing, mem_sortByName]
  induction entries with
  | nil => simp
  | cons entry rest ih =>
      rw [List.map_cons, lookup_cons_ite, lookup_cons_ite]
      by_cases hname : name = entry.1
      · simp [hname]
      · simpa [hname] using ih

/-! ## Where a path leads -/

theorem resolve_eq_ok_iff {disk : Disk} {actor : Actor} {purpose : Purpose} {path : Path}
    {place : Place} :
    disk.resolve actor purpose path = .ok place ↔
      ∃ here left, disk.start path = .ok here ∧
        Leads disk.root actor purpose linkLimit here path.steps left place := by
  unfold resolve locate
  cases hstart : disk.start path with
  | error fault => simp
  | ok here =>
      simp only [Except.ok.injEq, exists_and_left, exists_eq_left', ← walk_eq_found_iff]
      cases walk disk.root actor purpose linkLimit here path.steps with
      | error fault => simp
      | ok landing => cases landing <;> simp

theorem node_eq_ok_iff {disk : Disk} {actor : Actor} {purpose : Purpose} {path : Path}
    {node : Node} :
    disk.node actor purpose path = .ok node ↔
      ∃ place, disk.resolve actor purpose path = .ok place ∧ disk.at? place = some node := by
  unfold Disk.node
  cases disk.resolve actor purpose path with
  | error fault => simp
  | ok place => cases hnode : disk.at? place <;> simp [hnode]

/-- What can be listed is a directory that may be read. -/
theorem list_eq_ok_iff {disk : Disk} {path : Path} {listing : Listing} :
    disk.list path = .ok listing ↔
      ∃ place rights entries, disk.resolve .user .reach path = .ok place ∧
        disk.at? place = some (.directory rights entries) ∧ rights.read = true ∧
        listing = Node.listing entries := by
  unfold list
  cases hnode : disk.node .user .reach path with
  | error fault =>
      simp only [reduceCtorEq, false_iff, not_exists]
      rintro place rights entries ⟨hplace, hat, -⟩
      rw [node_eq_ok_iff.2 ⟨place, hplace, hat⟩] at hnode
      cases hnode
  | ok node =>
      obtain ⟨place, hplace, hat⟩ := node_eq_ok_iff.1 hnode
      simp only [hplace, Except.ok.injEq]
      cases node with
      | file rights content => simp [hat]
      | link target => simp [hat]
      | directory rights entries =>
          constructor
          · intro h
            by_cases hread : rights.read = true
            · simp only [hread, if_true, Except.ok.injEq] at h
              exact ⟨place, rights, entries, rfl, hat, hread, h.symm⟩
            · simp [hread] at h
          · rintro ⟨_, _, _, rfl, hother, hread, rfl⟩
            rw [hat] at hother
            cases hother
            simp only [hread, if_true]

theorem mem_entries_iff {disk : Disk} {path : Path} {name : Name} {kind : Kind} :
    (name, kind) ∈ disk.entries path ↔
      ∃ place rights held node, disk.resolve .user .reach path = .ok place ∧
        disk.at? place = some (.directory rights held) ∧ rights.read = true ∧
        disk.at? (place ++ [name]) = some node ∧ node.kind = kind := by
  have hentries : (name, kind) ∈ disk.entries path ↔
      ∃ listing, disk.list path = .ok listing ∧ (name, kind) ∈ listing := by
    unfold Disk.entries
    cases disk.list path <;> simp [Except.toOption]
  rw [hentries]
  constructor
  · rintro ⟨listing, hlist, hmem⟩
    obtain ⟨place, rights, held, hplace, hat, hread, rfl⟩ := list_eq_ok_iff.1 hlist
    obtain ⟨node, hlookup, hkind⟩ := mem_listing.1 hmem
    exact ⟨place, rights, held, node, hplace, hat, hread, (at?_concat hat name).trans hlookup,
      hkind⟩
  · rintro ⟨place, rights, held, node, hplace, hat, hread, hnode, hkind⟩
    refine ⟨_, list_eq_ok_iff.2 ⟨place, rights, held, hplace, hat, hread, rfl⟩, ?_⟩
    exact mem_listing.2 ⟨node, (at?_concat hat name).symm.trans hnode, hkind⟩

/-! ## Pruned disks -/

/-- One disk comes from another by taking away nodes at places that satisfy `p`. -/
structure PrunedWithin (p : Place → Prop) (old new : Disk) : Prop where
  /-- The working directory is still the same place. -/
  working : new.working = old.working
  /-- The tree is pruned. -/
  root : Node.PrunedWithin p old.root new.root

namespace PrunedWithin

variable {p q : Place → Prop} {old mid new : Disk}

theorem refl (p : Place → Prop) (disk : Disk) : PrunedWithin p disk disk :=
  ⟨rfl, .refl p disk.root⟩

theorem mono (h : PrunedWithin p old new) (hpq : ∀ place, p place → q place) :
    PrunedWithin q old new :=
  ⟨h.working, h.root.mono hpq⟩

theorem trans (hfirst : PrunedWithin p old mid) (hsecond : PrunedWithin p mid new) :
    PrunedWithin p old new :=
  ⟨hsecond.working.trans hfirst.working, hfirst.root.trans hsecond.root⟩

theorem start (h : PrunedWithin p old new) {path : Path} {place : Place}
    (hstart : new.start path = .ok place) : old.start path = .ok place := by
  have hworking : new.hasWorking = true → old.hasWorking = true := by
    unfold hasWorking Disk.at?
    rw [h.working]
    intro hnew
    split at hnew
    · rename_i rights entries hdir
      obtain ⟨held, hheld⟩ := h.root.at?_directory hdir
      simp [hheld]
    · simp at hnew
  unfold Disk.start at hstart ⊢
  rw [h.working] at hstart
  grind

/-- A path that leads somewhere on a pruned disk led there before. -/
theorem resolve (h : PrunedWithin p old new) {actor : Actor} {purpose : Purpose} {path : Path}
    {place : Place} (hplace : new.resolve actor purpose path = .ok place) :
    old.resolve actor purpose path = .ok place := by
  obtain ⟨here, left, hstart, hleads⟩ := resolve_eq_ok_iff.1 hplace
  exact resolve_eq_ok_iff.2 ⟨here, left, h.start hstart, hleads.of_prunedWithin h.root⟩

/-- What is listed on a pruned disk was listed before. -/
theorem mem_entries (h : PrunedWithin p old new) {path : Path} {entry : Name × Kind}
    (hentry : entry ∈ new.entries path) : entry ∈ old.entries path := by
  obtain ⟨name, kind⟩ := entry
  obtain ⟨place, rights, held, node, hplace, hdir, hread, hnode, hkind⟩ := mem_entries_iff.1 hentry
  obtain ⟨before, hbefore⟩ := h.root.at?_directory hdir
  obtain ⟨was, hwas, hsurface⟩ := h.root.at?_eq_some hnode
  exact mem_entries_iff.2 ⟨place, rights, before, was, h.resolve hplace, hbefore, hread, hwas,
    (kind_eq_of_surface hsurface).trans hkind⟩

end PrunedWithin

/-- One disk comes from another by taking away nodes, wherever they are. -/
abbrev Pruned (old new : Disk) : Prop :=
  PrunedWithin (fun _ => True) old new

theorem PrunedWithin.pruned {p : Place → Prop} {old new : Disk} (h : PrunedWithin p old new) :
    Pruned old new :=
  h.mono fun _ _ => trivial

/-! ## Straight paths -/

/-- No place on the way that a path spells holds a symbolic link, nor does the place at its end. -/
def Straight (disk : Disk) (path : Path) : Prop :=
  ∀ place target, place.map (·.bytes) <+: path.steps → disk.at? place ≠ some (.link target)

theorem PrunedWithin.straight {p : Place → Prop} {old new : Disk} (h : PrunedWithin p old new)
    {path : Path} (hstraight : old.Straight path) : new.Straight path :=
  fun place target hprefix hlink => hstraight place target hprefix (h.root.at?_link hlink)

theorem map_bytes_injective {a b : Place} (h : a.map (·.bytes) = b.map (·.bytes)) : a = b :=
  (List.map_inj_right fun _ _ => Name.bytes_injective).1 h

theorem map_bytes_prefix_iff {a b : Place} :
    a.map (·.bytes) <+: b.map (·.bytes) ↔ a <+: b := by
  constructor
  · rintro ⟨rest, hrest⟩
    obtain ⟨front, tail, rfl, hfront, -⟩ := List.map_eq_append_iff.1 hrest.symm
    rw [map_bytes_injective hfront.symm]
    exact List.prefix_append front tail
  · exact fun h => h.map _

theorem pathOf_injective {a b : Place} (h : pathOf a = pathOf b) : a = b :=
  map_bytes_injective (congrArg Path.steps h)

theorem isFolded_pathOf (place : Place) : (pathOf place).IsFolded := by
  intro step hstep
  obtain ⟨name, -, rfl⟩ := List.mem_map.1 hstep
  obtain ⟨hempty, hdot, hdotDot, -⟩ := name.proper
  exact ⟨by simp [Path.isIdle, hempty, hdot], hdotDot⟩

/-- The path of an entry is that of its place. -/
theorem pathOf_child (place : Place) (name : Name) :
    (pathOf place).child name.bytes = pathOf (place ++ [name]) := by
  have hlast : (place.map (·.bytes)).getLast? ≠ some [] := by
    intro h
    have hidle := (isFolded_pathOf place [] (List.mem_of_getLast? h)).1
    simp [Path.isIdle] at hidle
  rw [Path.child, Path.pushStep, pathOf, if_neg hlast]
  simp [pathOf]

/-- What a directory is below is a directory. -/
theorem Node.directory_of_at?_append {root : Node} {place rest : Place} {rights : Rights}
    {held : List (Name × Node)} (h : root.at? (place ++ rest) = some (.directory rights held)) :
    ∃ rights held, root.at? place = some (.directory rights held) := by
  rw [Node.at?_append] at h
  obtain ⟨node, hnode, hrest⟩ := Option.bind_eq_some_iff.1 h
  rw [hnode]
  cases node with
  | directory rights held => exact ⟨rights, held, rfl⟩
  | file => cases rest <;> simp [Node.entry?] at hrest
  | link => cases rest <;> simp [Node.entry?] at hrest

/-- The path of a directory that is there is straight. -/
theorem straight_of_directory {disk : Disk} {place : Place} {rights : Rights}
    {held : List (Name × Node)} (h : disk.at? place = some (.directory rights held)) :
    disk.Straight (pathOf place) := by
  intro front target hprefix hlink
  obtain ⟨rest, rfl⟩ := map_bytes_prefix_iff.1 hprefix
  obtain ⟨own, entries, hdir⟩ := Node.directory_of_at?_append h
  rw [Disk.at?, hdir] at hlink
  cases hlink

theorem straight_of_concat {disk : Disk} {place : Place} {name : Name}
    (h : disk.Straight (pathOf place))
    (hnode : ∀ target, disk.at? (place ++ [name]) ≠ some (.link target)) :
    disk.Straight (pathOf (place ++ [name])) := by
  intro front target hprefix
  rcases List.prefix_concat_iff.1 (map_bytes_prefix_iff.1 hprefix) with rfl | hfront
  · exact hnode target
  · exact h front target (map_bytes_prefix_iff.2 hfront)

theorem start_pathOf {disk : Disk} {place here : Place} (h : disk.start (pathOf place) = .ok here) :
    here = [] := by
  unfold Disk.start at h
  grind [pathOf]

theorem start_pathOf_ne_notFound (disk : Disk) (place : Place) :
    disk.start (pathOf place) ≠ .error .notFound := by
  unfold Disk.start
  grind [pathOf, Path.bytes]

/-- A straight path leads to the place that it spells. -/
theorem pathOf_of_resolve {disk : Disk} {actor : Actor} {purpose : Purpose} {path : Path}
    {place : Place} (hfolded : path.IsFolded) (hrooted : path.rooted = true)
    (hstraight : disk.Straight path) (h : disk.resolve actor purpose path = .ok place) :
    path = pathOf place := by
  obtain ⟨here, left, hstart, hleads⟩ := resolve_eq_ok_iff.1 h
  have hhere : here = [] := by
    unfold Disk.start at hstart
    grind
  subst hhere
  have hsteps := hleads.spelled hfolded fun names target hprefix _ =>
    hstraight names target hprefix
  rw [List.map_nil, List.nil_append] at hsteps
  rw [pathOf, hsteps]
  exact congrArg (Path.mk · path.steps) hrooted

theorem resolve_pathOf {disk : Disk} {actor : Actor} {purpose : Purpose} {place target : Place}
    (hstraight : disk.Straight (pathOf place))
    (h : disk.resolve actor purpose (pathOf place) = .ok target) : target = place :=
  (pathOf_injective (pathOf_of_resolve (isFolded_pathOf place) rfl hstraight h)).symm

/-- Looking at an entry of a directory, also a link, finds the place of the entry. -/
theorem resolve_look_pathOf {disk : Disk} {actor : Actor} {place target : Place} {name : Name}
    (hstraight : disk.Straight (pathOf place))
    (h : disk.resolve actor .look (pathOf (place ++ [name])) = .ok target) :
    target = place ++ [name] := by
  obtain ⟨here, left, hstart, hleads⟩ := resolve_eq_ok_iff.1 h
  obtain rfl := start_pathOf hstart
  refine map_bytes_injective (hleads.spelled (isFolded_pathOf (place ++ [name]))
    fun names link hprefix hlast => ?_)
  rcases List.prefix_concat_iff.1 (map_bytes_prefix_iff.1 hprefix) with rfl | hfront
  · exact absurd rfl (hlast rfl)
  · exact hstraight names link (map_bytes_prefix_iff.2 hfront)

/-- What is listed at a straight path is there. -/
theorem mem_entries_pathOf {disk : Disk} {place : Place} {name : Name} {kind : Kind}
    (hstraight : disk.Straight (pathOf place)) (h : (name, kind) ∈ disk.entries (pathOf place)) :
    ∃ node, disk.at? (place ++ [name]) = some node ∧ node.kind = kind := by
  obtain ⟨target, rights, held, node, hplace, -, -, hnode, hkind⟩ := mem_entries_iff.1 h
  rw [resolve_pathOf hstraight hplace] at hnode
  exact ⟨node, hnode, hkind⟩

theorem at?_ne_none_of_listed {disk : Disk} {place : Place} {name : Name} {kind : Kind}
    (hstraight : disk.Straight (pathOf place)) (h : (name, kind) ∈ disk.entries (pathOf place)) :
    disk.at? (place ++ [name]) ≠ none := by
  obtain ⟨node, hnode, -⟩ := mem_entries_pathOf hstraight h
  rw [hnode]
  exact Option.some_ne_none node

end Sweep.Disk
