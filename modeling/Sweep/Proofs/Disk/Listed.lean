import Mathlib.Data.List.Sort
import Sweep.Proofs.Disk.Removed
/-!
# What is still listed on a pruned disk

A listing on a pruned disk shows what it showed before with some entries left out, in the same
order. An entry that has been left out is gone for good, so this is what a run can rely on while it
removes things:

* a directory that can still be listed is still shown in the directory above it;
* along a straight path, whatever is still there is still shown;
* what a removal took away, or did not find, is not shown any more. This needs no straight path:
  where the removal itself has cut the path off, the directory above cannot be listed either.

## Main results

* `entries_sublist` — a listing on a pruned disk is a sublist of the old one.
* `mem_entries_of_list_child` — what can be listed is shown above.
* `mem_entries_of_at?` — what is there is shown, along a straight path.
* `hides_removeFile`, `hides_removeDirectory` — what has been removed is not shown.
-/

/-! ## The paths of entries -/

namespace Sweep.Path

open Disk

variable {path other : Path}

theorem IsFolded.steps_child (h : path.IsFolded) (step : Bytes) :
    (path.child step).steps = path.steps ++ [step] := by
  have hlast : path.steps.getLast? ≠ some [] := by
    intro hempty
    have hidle := (h [] (List.mem_of_getLast? hempty)).1
    simp [isIdle] at hidle
  rw [Path.child, pushStep, if_neg hlast]

theorem IsFolded.child (h : path.IsFolded) (name : Name) : (path.child name.bytes).IsFolded := by
  obtain ⟨hempty, hdot, hdotDot, -⟩ := name.proper
  intro step hstep
  rw [h.steps_child, List.mem_append, List.mem_singleton] at hstep
  rcases hstep with hbefore | rfl
  · exact h step hbefore
  · exact ⟨by simp [isIdle, hempty, hdot], hdotDot⟩

/-- A path is that of one entry of one directory only. -/
theorem IsFolded.child_injective {name key : Name} (h : path.IsFolded) (hother : other.IsFolded)
    (hchild : path.child name.bytes = other.child key.bytes) : path = other ∧ name = key := by
  have hsteps := congrArg steps hchild
  rw [h.steps_child, hother.steps_child] at hsteps
  obtain ⟨hfront, hlast⟩ := List.append_inj' hsteps rfl
  have hrooted : path.rooted = other.rooted := (congrArg rooted hchild :)
  refine ⟨?_, Name.bytes_injective (List.singleton_inj.1 hlast)⟩
  cases path
  cases other
  simp_all

/-- A folded path that begins at the root. -/
structure IsNormal (path : Path) : Prop where
  folded : path.IsFolded
  rooted : path.rooted = true

theorem IsNormal.child (h : path.IsNormal) (name : Name) : (path.child name.bytes).IsNormal :=
  ⟨h.folded.child name, h.rooted⟩

end Sweep.Path

namespace Sweep.Disk

open Node

/-! ## The order of a listing -/

theorem pairwise_entries (disk : Disk) (path : Path) :
    (disk.entries path).Pairwise fun a b => a.1.before b.1 = true := by
  unfold Disk.entries
  cases hlist : disk.list path with
  | error fault => exact .nil
  | ok listing =>
      obtain ⟨-, -, held, -, -, -, rfl⟩ := list_eq_ok_iff.1 hlist
      exact pairwise_sorted (held.map fun entry => (entry.1, entry.2.kind))

/-- A listing shows each name once. -/
theorem pairwise_ne_entries (disk : Disk) (path : Path) :
    (disk.entries path).Pairwise fun a b => a.1 ≠ b.1 :=
  (pairwise_entries disk path).imp Name.ne_of_before

/-- A listing on a pruned disk shows less, in the same order. -/
theorem PrunedWithin.entries_sublist {p : Place → Prop} {old new : Disk}
    (hpruned : PrunedWithin p old new) (path : Path) :
    (new.entries path).Sublist (old.entries path) := by
  have hantisymm : Std.Antisymm fun a b : Name × Kind => a.1.before b.1 = true := by
    refine ⟨fun a b hab hba => ?_⟩
    exact absurd rfl (Name.ne_of_before (Name.before_trans hab hba))
  have hnodup : (new.entries path).Nodup :=
    (pairwise_ne_entries new path).imp fun hne heq => hne (congrArg Prod.fst heq)
  have hsubset : new.entries path ⊆ old.entries path := fun entry => hpruned.mem_entries
  exact List.sublist_of_subperm_of_pairwise (List.subperm_of_subset hnodup hsubset)
    (pairwise_entries new path) (pairwise_entries old path)

/-! ## Names that a directory does not show -/

/-- No entry of this name is shown in the directory at a path. -/
def Hides (disk : Disk) (path : Path) (name : Name) : Prop :=
  ∀ kind, (name, kind) ∉ disk.entries path

theorem Hides.of_prunedWithin {p : Place → Prop} {old new : Disk} (hpruned : PrunedWithin p old new)
    {path : Path} {name : Name} (h : old.Hides path name) : new.Hides path name :=
  fun kind hlisted => h kind (hpruned.mem_entries hlisted)

/-- A directory that cannot be listed shows nothing. -/
theorem hides_of_list_error {disk : Disk} {path : Path} {fault : Fault}
    (h : disk.list path = .error fault) (name : Name) : disk.Hides path name := by
  intro kind hlisted
  simp [Disk.entries, h, Except.toOption] at hlisted

/-- A listing shows one kind for a name. -/
theorem kind_unique {disk : Disk} {path : Path} {name : Name} {kind other : Kind}
    (hkind : (name, kind) ∈ disk.entries path) (hother : (name, other) ∈ disk.entries path) :
    kind = other := by
  obtain ⟨place, -, -, node, hplace, -, -, hnode, rfl⟩ := mem_entries_iff.1 hkind
  obtain ⟨target, -, -, second, htarget, -, -, hsecond, rfl⟩ := mem_entries_iff.1 hother
  obtain rfl : place = target := Except.ok.inj (hplace.symm.trans htarget)
  rw [Option.some.inj (hnode.symm.trans hsecond)]

/-- What was listed and is not any more is hidden. -/
theorem PrunedWithin.hides_of_not_mem {p : Place → Prop} {old new : Disk}
    (hpruned : PrunedWithin p old new) {path : Path} {entry : Name × Kind}
    (hlisted : entry ∈ old.entries path) (hgone : entry ∉ new.entries path) :
    new.Hides path entry.1 := by
  intro kind hkind
  obtain rfl : entry.2 = kind := kind_unique hlisted (hpruned.mem_entries hkind)
  exact hgone hkind

/-! ## What is still shown -/

/-- What a path leads to on a pruned disk is what it led to before. -/
theorem PrunedWithin.ownKind {p : Place → Prop} {old new : Disk} (hpruned : PrunedWithin p old new)
    {path : Path} {kind : Kind} (h : new.ownKind path = .ok kind) : old.ownKind path = .ok kind := by
  cases hnode : new.node .user .look path with
  | error fault => simp [Disk.ownKind, hnode, Except.map] at h
  | ok node =>
      obtain ⟨place, hplace, hat⟩ := node_eq_ok_iff.1 hnode
      obtain ⟨before, hbefore, hsurface⟩ := hpruned.root.at?_eq_some hat
      rw [Disk.ownKind, hnode] at h
      rw [Disk.ownKind, node_eq_ok_iff.2 ⟨place, hpruned.resolve hplace, hbefore⟩]
      exact (congrArg Except.ok (kind_eq_of_surface hsurface)).trans h

theorem start_of_rooted {path : Path} (hrooted : path.rooted = true) (old new : Disk) :
    new.start path = old.start path := by
  simp [Disk.start, hrooted]

theorem start_child {disk : Disk} {path : Path} {name : Name} {here : Place}
    (hrooted : path.rooted = true) (hstart : disk.start (path.child name.bytes) = .ok here)
    {before : Place} (hbefore : disk.start path = .ok before) : here = before := by
  have hchild : (path.child name.bytes).rooted = true := hrooted
  unfold Disk.start at hstart hbefore
  grind

/-- The first step of a way that begins with a name leads to an entry of that name. -/
theorem Leads.present {root : Node} {actor : Actor} {purpose : Purpose} {links left : Nat}
    {here place : Place} {name : Name} {rest : List Bytes}
    (h : Leads root actor purpose links here (name.bytes :: rest) left place) :
    root.at? (here ++ [name]) ≠ none := by
  obtain ⟨hempty, hdot, hdotDot, -⟩ := name.proper
  generalize hsteps : name.bytes :: rest = steps at h
  cases h with
  | done => cases hsteps
  | empty => exact absurd (List.cons.inj hsteps).1 hempty
  | stay => exact absurd (List.cons.inj hsteps).1 hdot
  | up => exact absurd (List.cons.inj hsteps).1 hdotDot
  | enter _ _ _ hnode _ _ =>
      rw [Name.bytes_injective (List.cons.inj hsteps).1, hnode]
      exact Option.some_ne_none _
  | follow _ _ _ hnode _ _ =>
      rw [Name.bytes_injective (List.cons.inj hsteps).1, hnode]
      exact Option.some_ne_none _

/-- What a pruned tree still has at a place has the surface that it had. -/
theorem Node.PrunedWithin.still {p : Place → Prop} {old new : Node}
    (hpruned : Node.PrunedWithin p old new) {place : Place} {node : Node}
    (hold : old.at? place = some node) (hthere : new.at? place ≠ none) :
    ∃ now, new.at? place = some now ∧ node.surface = now.surface := by
  obtain ⟨now, hnow⟩ := Option.ne_none_iff_exists'.1 hthere
  obtain ⟨was, hwas, hsurface⟩ := hpruned.at?_eq_some hnow
  obtain rfl : was = node := Option.some.inj (hwas.symm.trans hold)
  exact ⟨now, hnow, hsurface⟩

theorem at?_ne_none_of_prefix {root : Node} {front place : Place} (hfront : front <+: place)
    (hthere : root.at? place ≠ none) : root.at? front ≠ none := by
  obtain ⟨rest, rfl⟩ := hfront
  exact fun hnone => hthere (at?_append_eq_none hnone rest)

section Shown

variable {p : Place → Prop} {old new : Disk} (hpruned : PrunedWithin p old new)

include hpruned

/-- What is found where a directory was listed before is shown there, if the directory can still be
reached. -/
theorem mem_entries_of_resolve {path : Path} {name : Name} {kind : Kind} {place : Place}
    (hlisted : (name, kind) ∈ old.entries path)
    (hplace : new.resolve .user .reach path = .ok place)
    (hthere : new.at? (place ++ [name]) ≠ none) : (name, kind) ∈ new.entries path := by
  obtain ⟨target, rights, held, node, htarget, hdir, hread, hnode, hkind⟩ :=
    mem_entries_iff.1 hlisted
  have hsame : target = place := by
    have hbefore := hpruned.resolve hplace
    rw [htarget] at hbefore
    exact Except.ok.inj hbefore
  subst hsame
  have hholder := at?_ne_none_of_prefix (List.prefix_append target [name]) hthere
  obtain ⟨now, hnow, hsurface⟩ := hpruned.root.still hnode hthere
  obtain ⟨holder, hdirectory, hrights⟩ := hpruned.root.still hdir hholder
  obtain ⟨holds, rfl⟩ := surface_eq_directory hrights.symm
  exact mem_entries_iff.2 ⟨target, rights, holds, now, hplace, hdirectory, hread, hnow,
    (kind_eq_of_surface hsurface).symm.trans hkind⟩

/-- A directory that can be listed is shown in the directory above it, if it was before. -/
theorem mem_entries_of_list_child {path : Path} {name : Name} {listing : Listing}
    (hnormal : path.IsNormal) (hlisted : (name, Kind.directory) ∈ old.entries path)
    (hlist : new.list (path.child name.bytes) = .ok listing) :
    (name, Kind.directory) ∈ new.entries path := by
  obtain ⟨place, -, -, -, hplace, -⟩ := mem_entries_iff.1 hlisted
  obtain ⟨before, -, hbefore, -⟩ := resolve_eq_ok_iff.1 hplace
  obtain ⟨target, -, -, htarget, -⟩ := list_eq_ok_iff.1 hlist
  obtain ⟨here, left, hstart, hleads⟩ := resolve_eq_ok_iff.1 htarget
  rw [start_of_rooted hnormal.rooted new old] at hbefore
  obtain rfl := start_child hnormal.rooted hstart hbefore
  rw [hnormal.folded.steps_child] at hleads
  obtain ⟨between, mid, hto, hfrom⟩ := hleads.split (by simp)
  have hmid : new.resolve .user .reach path = .ok mid :=
    resolve_eq_ok_iff.2 ⟨here, between, hbefore, hto⟩
  exact mem_entries_of_resolve hpruned hlisted hmid hfrom.present

/-- A directory that is not shown any more shows nothing itself. -/
theorem Hides.child {path : Path} {name : Name} (h : new.Hides path name) (hnormal : path.IsNormal)
    (hlisted : (name, Kind.directory) ∈ old.entries path)
    (key : Name) : new.Hides (path.child name.bytes) key := by
  cases hlist : new.list (path.child name.bytes) with
  | error fault => exact hides_of_list_error hlist key
  | ok listing =>
      exact absurd (mem_entries_of_list_child hpruned hnormal hlisted hlist) (h .directory)

/-- Names along which there are no links still lead to what is still there. -/
theorem Leads.to_pruned {links left : Nat} {here place : Place} {steps : List Bytes}
    (hnames : ∀ step ∈ steps, Path.isIdle step = false ∧ step ≠ dotDot)
    (hstraight : ∀ names target, names.map (·.bytes) <+: steps →
      old.at? (here ++ names) ≠ some (.link target))
    (hthere : new.at? place ≠ none)
    (h : Leads old.root .user .reach links here steps left place) :
    Leads new.root .user .reach links here steps left place := by
  induction h with
  | done => exact .done
  | empty => exact absurd (hnames [] (by simp)).1 (by simp [Path.isIdle])
  | stay => exact absurd (hnames dot (by simp)).1 (by simp [Path.isIdle])
  | up => exact absurd rfl (hnames dotDot (by simp)).2
  | @enter links left here place rest rights entries name node hdir hsearch hopen hnode hlink next ih =>
      have hrest : ∀ step ∈ rest, Path.isIdle step = false ∧ step ≠ dotDot :=
        fun step hstep => hnames step (by simp [hstep])
      have hbelow : ∀ names target, names.map (·.bytes) <+: rest →
          old.at? (here ++ [name] ++ names) ≠ some (.link target) := by
        intro names target hfront
        have hnext := hstraight (name :: names) target (by simpa using hfront)
        simpa using hnext
      have hspelled := next.spelled hrest fun names target hfront _ => hbelow names target hfront
      have hfront : here ++ [name] <+: place :=
        map_bytes_prefix_iff.1 (hspelled ▸ List.prefix_append _ rest)
      have hentry := at?_ne_none_of_prefix hfront hthere
      have hholder := at?_ne_none_of_prefix (List.prefix_append here [name]) hentry
      obtain ⟨holder, hdirectory, hrights⟩ := hpruned.root.still hdir hholder
      obtain ⟨holds, rfl⟩ := surface_eq_directory hrights.symm
      obtain ⟨now, hnow, hsurface⟩ := hpruned.root.still hnode hentry
      refine .enter hdirectory hsearch hopen hnow (fun target htarget => ?_) (ih hrest hbelow hthere)
      rw [htarget] at hsurface
      exact hlink target (surface_eq_link hsurface)
  | @follow links left here place rest rights entries name target hdir _ _ hnode _ _ _ =>
      exact absurd hnode (hstraight [name] target (by simp))

/-- Along a straight path, what is still there is still shown. -/
theorem mem_entries_of_at? {place : Place} {name : Name} {kind : Kind}
    (hstraight : old.Straight (pathOf place)) (hlisted : (name, kind) ∈ old.entries (pathOf place))
    (hthere : new.at? (place ++ [name]) ≠ none) : (name, kind) ∈ new.entries (pathOf place) := by
  obtain ⟨target, -, -, -, htarget, -⟩ := mem_entries_iff.1 hlisted
  obtain rfl := resolve_pathOf hstraight htarget
  obtain ⟨here, left, hstart, hleads⟩ := resolve_eq_ok_iff.1 htarget
  obtain rfl := start_pathOf hstart
  have hholder : new.at? target ≠ none :=
    at?_ne_none_of_prefix (List.prefix_append target [name]) hthere
  have hstill : new.resolve .user .reach (pathOf target) = .ok target := by
    refine resolve_eq_ok_iff.2 ⟨[], left, ?_, ?_⟩
    · rw [start_of_rooted rfl old new, hstart]
    · exact Leads.to_pruned hpruned (isFolded_pathOf target)
        (fun names link hfront => hstraight names link hfront) hholder hleads
  exact mem_entries_of_resolve hpruned hlisted hstill hthere

end Shown

/-! ## What has been removed -/

/-- A way that begins with a way to some place goes on from there. -/
theorem Leads.walk_append {root : Node} {actor : Actor} {purpose : Purpose} {links between : Nat}
    {here mid : Place} {first second : List Bytes} (hsecond : second ≠ [])
    (hpurpose : purpose ≠ .write) (hto : Leads root actor .reach links here first between mid) :
    walk root actor purpose links here (first ++ second) =
      walk root actor purpose between mid second := by
  induction hto with
  | done => rfl
  | empty hdir _ ih =>
      rw [List.cons_append, walk]
      simp [hdir, ih]
  | stay hdir hsearch _ ih =>
      rw [List.cons_append, walk]
      simp [hdir, hsearch, ih, dot]
  | up hdir hsearch _ ih =>
      rw [List.cons_append, walk]
      simp [hdir, hsearch, ih, dot, dotDot]
  | @enter links left here place rest rights entries name node hdir hsearch _ hnode hlink _ ih =>
      obtain ⟨hempty, hdot, hdotDot, -⟩ := name.proper
      rw [at?_concat hdir] at hnode
      rw [List.cons_append, walk]
      simp only [hdir, hempty, hdot, hdotDot, hsearch, if_false, Name.ofBytes?_bytes, hnode]
      rw [if_neg (by simp), if_neg (by simp [hpurpose])]
      cases node with
      | link target => exact absurd (hlink target rfl).1 (by simp)
      | file rights content => exact ih
      | directory rights entries => exact ih
  | @follow links left here place rest rights entries name target hdir hsearch _ hnode _ _ ih =>
      obtain ⟨hempty, hdot, hdotDot, -⟩ := name.proper
      rw [at?_concat hdir] at hnode
      rw [List.cons_append, walk]
      simp only [hdir, hempty, hdot, hdotDot, hsearch, if_false, Name.ofBytes?_bytes, hnode]
      rw [if_neg (by simp), if_neg (by simp [hpurpose]), if_pos (by simp [hsecond])]
      rw [← List.append_assoc]
      exact ih

theorem start_ne_notFound_of_rooted {path : Path} (hrooted : path.rooted = true) (disk : Disk) :
    disk.start path ≠ .error .notFound := by
  unfold Disk.start
  grind [Path.bytes]

section Gone

variable {disk after : Disk} {path : Path} {place : Place} {rights : Rights}
  {held : List (Name × Node)} (hnormal : path.IsNormal)
  (hplace : disk.resolve .user .reach path = .ok place)
  (hdir : disk.at? place = some (.directory rights held))

include hnormal hplace hdir

/-- The entry of a directory that can be reached may be barred, but it is not missed. -/
theorem entry_child_cases (name : Name) :
    disk.entry .user (path.child name.bytes) = .ok (place, name) ∨
      ∃ fault, disk.entry .user (path.child name.bytes) = .error fault ∧ fault ≠ .notFound := by
  have hchild : (path.child name.bytes).rooted = true := hnormal.rooted
  obtain ⟨-, hdot, hdotDot, -⟩ := name.proper
  unfold entry
  rw [hnormal.folded.steps_child, dropSlashEnd_concat]
  cases hstart : disk.start (path.child name.bytes) with
  | error fault =>
      refine Or.inr ⟨fault, rfl, fun hfault => ?_⟩
      exact start_ne_notFound_of_rooted hchild disk (hfault ▸ hstart)
  | ok here =>
      obtain ⟨before, left, hbefore, hleads⟩ := resolve_eq_ok_iff.1 hplace
      obtain rfl := start_child hnormal.rooted hstart hbefore
      simp only [List.dropLast_concat, List.getLast?_concat, hdot, hdotDot, Name.ofBytes?_bytes,
        hleads.walk_append (List.cons_ne_nil dot []) (show Purpose.reach ≠ .write by simp)]
      rw [walk]
      rw [Disk.at?] at hdir
      by_cases hsearch : Actor.user.may rights.search = true
      · left
        simp [hdir, hsearch, dot, walk]
      · right
        exact ⟨.denied, by simp [hdir, hsearch, dot], by simp⟩

/-- Looking at an entry of a directory that can be reached misses it only if there is none. -/
theorem resolve_look_child_cases (name : Name) :
    disk.resolve .user .look (path.child name.bytes) = .ok (place ++ [name]) ∨
      ∃ fault, disk.resolve .user .look (path.child name.bytes) = .error fault ∧
        (fault = .notFound → disk.at? (place ++ [name]) = none) := by
  have hchild : (path.child name.bytes).rooted = true := hnormal.rooted
  obtain ⟨hempty, hdot, hdotDot, -⟩ := name.proper
  unfold resolve locate
  cases hstart : disk.start (path.child name.bytes) with
  | error fault =>
      refine Or.inr ⟨fault, rfl, fun hfault => ?_⟩
      exact absurd (hfault ▸ hstart) (start_ne_notFound_of_rooted hchild disk)
  | ok here =>
      obtain ⟨before, left, hbefore, hleads⟩ := resolve_eq_ok_iff.1 hplace
      obtain rfl := start_child hnormal.rooted hstart hbefore
      rw [Disk.at?] at hdir
      simp only [hnormal.folded.steps_child,
        hleads.walk_append (List.cons_ne_nil name.bytes []) (show Purpose.look ≠ .write by simp)]
      rw [walk, Disk.at?, at?_concat hdir]
      simp only [hdir, hempty, hdot, hdotDot, Name.ofBytes?_bytes, if_false]
      by_cases hsearch : Actor.user.may rights.search = true
      · cases hlookup : held.lookup name with
        | none => simp [hsearch]
        | some node => cases node <;> simp [hsearch, walk]
      · simp [hsearch]

/-- Removing a file from a directory that can be reached leaves none, unless it fails. -/
theorem at?_removeFile {name : Name} {fault : Option Fault}
    (h : disk.removeFile .user (path.child name.bytes) = (after, fault))
    (hfault : fault = none ∨ fault = some .notFound) : after.at? (place ++ [name]) = none := by
  unfold removeFile at h
  rcases entry_child_cases hnormal hplace hdir name with hentry | ⟨cause, hentry, hne⟩
  · rw [hentry] at h
    simp only at h
    split at h
    · rename_i hnone
      cases h
      exact hnone
    · cases h
      split at hfault <;> simp at hfault
    · rename_i node hnode
      exact (takeOut_tells hnode h).gone hfault
  · rw [hentry] at h
    cases h
    simp [hne] at hfault

theorem at?_removeEmpty {name : Name} {fault : Option Fault}
    (h : disk.removeEmpty .user (path.child name.bytes) = (after, fault))
    (hfault : fault = none ∨ fault = some .notFound) : after.at? (place ++ [name]) = none := by
  unfold removeEmpty at h
  rcases entry_child_cases hnormal hplace hdir name with hentry | ⟨cause, hentry, hne⟩
  · rw [hentry] at h
    simp only at h
    split at h
    · rename_i hnone
      cases h
      exact hnone
    · rename_i own hnode
      exact (takeOut_tells hnode h).gone hfault
    · cases h
      simp at hfault
    · cases h
      simp at hfault
  · rw [hentry] at h
    cases h
    simp [hne] at hfault

end Gone

/-- A directory that can be reached when others are gone could be reached before. -/
theorem Pruned.reached {disk after : Disk} {path : Path} {place : Place} {rights : Rights}
    {held : List (Name × Node)} (hpruned : Pruned disk after)
    (hplace : after.resolve .user .reach path = .ok place)
    (hdir : after.at? place = some (.directory rights held)) :
    disk.resolve .user .reach path = .ok place ∧
      ∃ before, disk.at? place = some (.directory rights before) :=
  ⟨hpruned.resolve hplace, hpruned.root.at?_directory hdir⟩

/-- A name is hidden if the directory that is reached holds nothing there. -/
theorem hides_of_none {disk : Disk} {path : Path} {name : Name}
    (h : ∀ place rights held, disk.resolve .user .reach path = .ok place →
      disk.at? place = some (.directory rights held) → disk.at? (place ++ [name]) = none) :
    disk.Hides path name := by
  intro kind hlisted
  obtain ⟨place, rights, held, node, hplace, hdir, -, hnode, -⟩ := mem_entries_iff.1 hlisted
  rw [h place rights held hplace hdir] at hnode
  cases hnode

section Hides

variable {disk after : Disk} {path : Path} {name : Name} {fault : Option Fault}
  (hnormal : path.IsNormal)
  (hfault : fault = none ∨ fault = some .notFound)

include hnormal hfault

/-- What has been removed as a file, or was not found, is not shown any more. -/
theorem hides_removeFile (h : disk.removeFile .user (path.child name.bytes) = (after, fault)) :
    after.Hides path name := by
  refine hides_of_none fun place rights held hplace hdir => ?_
  have hpruned : Pruned disk (disk.removeFile .user (path.child name.bytes)).1 :=
    (removeFile_prunedWithin (hnormal.folded.steps_child name.bytes)).pruned
  rw [h] at hpruned
  obtain ⟨hreached, before, hbefore⟩ := hpruned.reached hplace hdir
  exact at?_removeFile hnormal hreached hbefore h hfault

theorem hides_removeEmpty (h : disk.removeEmpty .user (path.child name.bytes) = (after, fault)) :
    after.Hides path name := by
  refine hides_of_none fun place rights held hplace hdir => ?_
  have hpruned : Pruned disk (disk.removeEmpty .user (path.child name.bytes)).1 :=
    (removeEmpty_prunedWithin (hnormal.folded.steps_child name.bytes)).pruned
  rw [h] at hpruned
  obtain ⟨hreached, before, hbefore⟩ := hpruned.reached hplace hdir
  exact at?_removeEmpty hnormal hreached hbefore h hfault

/-- What has been removed as a directory, or was not found, is not shown any more. -/
theorem hides_removeDirectory
    (h : disk.removeDirectory .user (path.child name.bytes) = (after, fault)) :
    after.Hides path name := by
  unfold removeDirectory at h
  split at h
  · rename_i cause hlook
    cases h
    refine hides_of_none fun place rights held hplace hdir => ?_
    rcases resolve_look_child_cases hnormal hplace hdir name with
      hfound | ⟨cause, hmissed, hmissing⟩
    · rw [hlook] at hfound
      cases hfound
    · rw [hlook] at hmissed
      cases hmissed
      rcases hfault with hnone | hcause
      · cases hnone
      · exact hmissing (Option.some.inj hcause)
  · split at h
    · exact hides_removeFile hnormal hfault h
    · split at h
      · rename_i cleared cause hcleared
        cases h
        rcases hfault with hnone | hcause
        · cases hnone
        · cases hcause
          exact (clearAt_fault hcleared).elim
      · split at h
        · rename_i emptied hremoved
          cases h
          exact hides_removeEmpty hnormal (Or.inr rfl) hremoved
        · exact hides_removeEmpty hnormal hfault h

end Hides

end Sweep.Disk
