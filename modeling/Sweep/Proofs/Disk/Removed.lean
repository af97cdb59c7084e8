import Sweep.Proofs.Disk.Lookup
/-!
# What a removal removes

The paths that are removed end in a name. Such a path *covers* the places at and below the entry to
which it leads when it is looked at, a link at its end not being followed. Removing the path prunes
the disk within these places, whether the removal succeeds, fails, or fails half way.

Along a straight path the outcome says what has become of the entry: without a fault, and with the
fault that it is not found, it is gone.

## Main results

* `removeFile_prunedWithin`, `removeDirectory_prunedWithin` — a removal stays within its path.
* `removeFile_tells`, `removeDirectory_tells` — what the outcome of a removal tells is so.
-/

namespace Sweep.Disk

open Node

/-! ## The entry that a path names -/

/-- A path leads the user to an entry at or above a place. -/
def Covers (disk : Disk) (path : Path) (place : Place) : Prop :=
  ∃ entry, disk.resolve .user .look path = .ok entry ∧ entry <+: place

theorem PrunedWithin.covers {p : Place → Prop} {old new : Disk} (h : PrunedWithin p old new)
    {path : Path} {place : Place} (hcovers : new.Covers path place) : old.Covers path place := by
  obtain ⟨entry, hentry, hprefix⟩ := hcovers
  exact ⟨entry, h.resolve hentry, hprefix⟩

theorem dropSlashEnd_concat (steps : List Bytes) (name : Name) :
    Path.dropSlashEnd (steps ++ [name.bytes]) = steps ++ [name.bytes] := by
  simp [Path.dropSlashEnd, name.proper.1]

/-- A path that ends in a name names that entry of the directory to which its other steps lead. -/
theorem entry_eq_ok {disk : Disk} {actor : Actor} {path : Path} {steps : List Bytes} {name key : Name}
    {holder : Place} (hsteps : path.steps = steps ++ [name.bytes])
    (h : disk.entry actor path = .ok (holder, key)) :
    key = name ∧ ∃ here left, disk.start path = .ok here ∧
      Leads disk.root actor .reach linkLimit here (steps ++ [dot]) left holder := by
  unfold entry at h
  rw [hsteps, dropSlashEnd_concat] at h
  obtain ⟨-, hdot, hdotDot, -⟩ := name.proper
  cases hstart : disk.start path with
  | error fault => simp [hstart] at h
  | ok here =>
      simp only [hstart, List.dropLast_concat, List.getLast?_concat, hdot, hdotDot,
        Name.ofBytes?_bytes] at h
      cases hwalk : walk disk.root actor .reach linkLimit here (steps ++ [dot]) with
      | error fault => simp [hwalk] at h
      | ok landing =>
          cases landing with
          | vacant _ _ => simp [hwalk] at h
          | found place =>
              simp [hwalk] at h
              obtain ⟨rfl, rfl⟩ := h
              obtain ⟨left, hleads⟩ := walk_eq_found_iff.1 hwalk
              exact ⟨rfl, here, left, rfl, hleads⟩

/-- The entry that a path names is the one that is seen at the path. -/
theorem resolve_of_entry {disk : Disk} {actor : Actor} {path : Path} {steps : List Bytes}
    {name key : Name} {holder : Place} {node : Node} (hsteps : path.steps = steps ++ [name.bytes])
    (h : disk.entry actor path = .ok (holder, key))
    (hnode : disk.at? (holder ++ [key]) = some node) :
    disk.resolve actor .look path = .ok (holder ++ [key]) := by
  obtain ⟨rfl, here, left, hstart, hleads⟩ := entry_eq_ok hsteps h
  refine resolve_eq_ok_iff.2 ⟨here, left, hstart, ?_⟩
  rw [hsteps]
  exact hleads.concat_of_holder hnode

/-! ## Within a path -/

theorem takeOut_prunedWithin (disk : Disk) (actor : Actor) (place : Place) (name : Name) :
    PrunedWithin (place ++ [name] <+: ·) disk (disk.takeOut actor place name).1 := by
  unfold takeOut
  split
  · refine ⟨rfl, (prunedWithin_modify place disk.root fun node _ =>
      eraseEntry_prunedWithin name node).mono ?_⟩
    rintro q ⟨rest, rfl, hrest⟩
    exact (List.prefix_append_right_inj place).2 hrest
  · exact .refl _ _

theorem clearAt_prunedWithin (disk : Disk) (actor : Actor) (place : Place) :
    PrunedWithin (place <+: ·) disk (disk.clearAt actor place).1 := by
  unfold clearAt
  split
  · rename_i rights entries hdir
    split
    · refine ⟨rfl, (prunedWithin_modify (r := (· ≠ [])) place disk.root fun node hnode => ?_).mono ?_⟩
      · rw [Disk.at?, hnode] at hdir
        cases hdir
        exact clear_prunedWithin actor rights entries
      · rintro q ⟨rest, rfl, -⟩
        exact List.prefix_append place rest
    · exact .refl _ _
  · exact .refl _ _

section Within

variable {disk : Disk} {path : Path} {steps : List Bytes} {name : Name}

theorem takeOut_within (hsteps : path.steps = steps ++ [name.bytes]) {holder : Place} {key : Name}
    {node : Node} (hentry : disk.entry .user path = .ok (holder, key))
    (hnode : disk.at? (holder ++ [key]) = some node) :
    PrunedWithin (disk.Covers path) disk (disk.takeOut .user holder key).1 :=
  (takeOut_prunedWithin disk .user holder key).mono fun _ hprefix =>
    ⟨_, resolve_of_entry hsteps hentry hnode, hprefix⟩

/-- Removing a file changes nothing beyond its path. -/
theorem removeFile_prunedWithin (hsteps : path.steps = steps ++ [name.bytes]) :
    PrunedWithin (disk.Covers path) disk (disk.removeFile .user path).1 := by
  unfold removeFile
  split
  · exact .refl _ _
  · rename_i holder key hentry
    split
    · exact .refl _ _
    · exact .refl _ _
    · rename_i node hnode
      exact takeOut_within hsteps hentry hnode

theorem removeEmpty_prunedWithin (hsteps : path.steps = steps ++ [name.bytes]) :
    PrunedWithin (disk.Covers path) disk (disk.removeEmpty .user path).1 := by
  unfold removeEmpty
  split
  · exact .refl _ _
  · rename_i holder key hentry
    split
    · exact .refl _ _
    · rename_i rights hnode
      exact takeOut_within hsteps hentry hnode
    · exact .refl _ _
    · exact .refl _ _

/-- Removing a directory changes nothing beyond its path, also if it fails half way. -/
theorem removeDirectory_prunedWithin (hsteps : path.steps = steps ++ [name.bytes]) :
    PrunedWithin (disk.Covers path) disk (disk.removeDirectory .user path).1 := by
  unfold removeDirectory
  split
  · exact .refl _ _
  · rename_i place hplace
    split
    · exact removeFile_prunedWithin hsteps
    · have hclear : PrunedWithin (disk.Covers path) disk (disk.clearAt .user place).1 :=
        (clearAt_prunedWithin disk .user place).mono fun q hprefix => ⟨place, hplace, hprefix⟩
      cases hcleared : disk.clearAt .user place with
      | mk cleared fault =>
          rw [hcleared] at hclear
          cases fault with
          | some fault => exact hclear
          | none =>
              have hempty := hclear.trans
                ((removeEmpty_prunedWithin hsteps).mono fun q hq => hclear.covers hq)
              simp only
              split
              · rename_i emptied hremoved
                rw [hremoved] at hempty
                exact hempty
              · exact hempty

end Within

/-! ## What the outcome tells -/

mutual

theorem remove_fault (actor : Actor) (holder : Rights) (node : Node) {fault : Fault}
    (h : (remove actor holder node).2 = some fault) : fault = .denied := by
  cases node with
  | file rights content =>
      simp only [remove] at h
      split at h <;> simp_all
  | link target =>
      simp only [remove] at h
      split at h <;> simp_all
  | directory rights entries =>
      simp only [remove] at h
      split at h
      · simp_all
      · split at h
        · rename_i kept cause hkept
          cases h
          exact clear_fault actor rights entries (congrArg Prod.snd hkept)
        · split at h <;> simp_all
termination_by structural node

/-- The only thing that can be wrong with clearing a directory is a missing right. -/
theorem clear_fault (actor : Actor) (rights : Rights) (entries : List (Name × Node)) {fault : Fault}
    (h : (clear actor rights entries).2 = some fault) : fault = .denied := by
  cases entries with
  | nil => simp [clear] at h
  | cons entry rest =>
      have hrest : (clear actor rights rest).2 = some fault → fault = .denied :=
        clear_fault actor rights rest
      have hentry : (remove actor rights entry.2).2 = some fault → fault = .denied :=
        remove_fault actor rights entry.2
      obtain ⟨name, node⟩ := entry
      simp only [clear] at h
      split at h
      · exact hrest h
      · rename_i remaining cause hremaining
        exact hentry (by simpa [hremaining] using h)
termination_by structural entries

end

/-- What the outcome of a removal tells about a place: without a fault something was there, and
without one or with the fault that it is not found, nothing is there now. -/
structure TellsOf (place : Place) (disk after : Disk) (fault : Option Fault) : Prop where
  /-- What is removed was there. -/
  present : fault = none → disk.at? place ≠ none
  /-- What is removed or not found is gone. -/
  gone : fault = none ∨ fault = some .notFound → after.at? place = none

theorem takeOut_tells {disk after : Disk} {actor : Actor} {place : Place} {name : Name} {node : Node}
    {fault : Option Fault} (hnode : disk.at? (place ++ [name]) = some node)
    (h : disk.takeOut actor place name = (after, fault)) :
    TellsOf (place ++ [name]) disk after fault := by
  refine ⟨fun _ => by simp [hnode], fun _ => ?_⟩
  unfold takeOut at h
  split at h
  · cases h
    rw [Disk.at?, at?_modify]
    cases disk.root.at? place with
    | none => rfl
    | some holder => exact at?_eraseEntry_self name holder
  · cases h
    simp_all

section Straight

variable {disk after : Disk} {place : Place} {name : Name} {fault : Option Fault}

theorem steps_pathOf_concat (place : Place) (name : Name) :
    (pathOf (place ++ [name])).steps = place.map (·.bytes) ++ [name.bytes] := by
  simp [pathOf]

theorem entry_pathOf (hstraight : disk.Straight (pathOf place)) {holder : Place} {key : Name}
    (h : disk.entry .user (pathOf (place ++ [name])) = .ok (holder, key)) :
    holder = place ∧ key = name := by
  obtain ⟨rfl, here, left, hstart, hleads⟩ := entry_eq_ok (steps_pathOf_concat place name) h
  obtain rfl := start_pathOf hstart
  refine ⟨map_bytes_injective ?_, rfl⟩
  exact hleads.of_concat_dot.1.spelled (isFolded_pathOf place) fun names target hprefix _ =>
    hstraight names target hprefix

/-- Where the entry that a straight path names is not found, there is none. -/
theorem at?_of_entry_notFound (hstraight : disk.Straight (pathOf place))
    (h : disk.entry .user (pathOf (place ++ [name])) = .error .notFound) :
    disk.at? (place ++ [name]) = none := by
  have hmissing : Missing
      (walk disk.root .user .reach linkLimit [] (place.map (·.bytes) ++ [dot])) := by
    unfold entry at h
    rw [steps_pathOf_concat, dropSlashEnd_concat] at h
    obtain ⟨-, hdot, hdotDot, -⟩ := name.proper
    cases hstart : disk.start (pathOf (place ++ [name])) with
    | error cause =>
        simp only [hstart, Except.error.injEq] at h
        exact absurd (h ▸ hstart) (start_pathOf_ne_notFound disk _)
    | ok here =>
        obtain rfl := start_pathOf hstart
        simp only [hstart, List.dropLast_concat, List.getLast?_concat, hdot, hdotDot,
          Name.ofBytes?_bytes] at h
        split at h
        · rename_i cause hwalk
          cases h
          exact Or.inl hwalk
        · rename_i holder key hwalk
          exact Or.inr ⟨holder, key, hwalk⟩
        · simp at h
  refine at?_append_eq_none (at?_eq_none_of_missing (Or.inr rfl) (by simp) ?_ hmissing) [name]
  intro front target hfront _
  exact hstraight front target (map_bytes_prefix_iff.2 hfront)

theorem at?_of_resolve_notFound (hstraight : disk.Straight (pathOf place))
    (h : disk.resolve .user .look (pathOf (place ++ [name])) = .error .notFound) :
    disk.at? (place ++ [name]) = none := by
  have hmissing : Missing
      (walk disk.root .user .look linkLimit [] ((place ++ [name]).map (·.bytes) ++ [])) := by
    rw [List.append_nil]
    unfold resolve locate at h
    cases hstart : disk.start (pathOf (place ++ [name])) with
    | error cause =>
        simp only [hstart, Except.error.injEq] at h
        exact absurd (h ▸ hstart) (start_pathOf_ne_notFound disk _)
    | ok here =>
        obtain rfl := start_pathOf hstart
        simp only [hstart] at h
        split at h
        · rename_i cause hwalk
          cases h
          exact Or.inl hwalk
        · simp at h
        · rename_i holder key hwalk
          exact Or.inr ⟨holder, key, hwalk⟩
  have hlook : Purpose.look ≠ .write := by simp
  change disk.root.at? ([] ++ (place ++ [name])) = none
  refine at?_eq_none_of_missing (Or.inl rfl) hlook (fun front target hfront hlast => ?_) hmissing
  rcases List.prefix_concat_iff.1 hfront with rfl | hbefore
  · exact absurd rfl (hlast rfl rfl)
  · exact hstraight front target (map_bytes_prefix_iff.2 hbefore)

theorem tellsOf_of_entry_fault {cause : Fault} (hstraight : disk.Straight (pathOf place))
    (h : disk.entry .user (pathOf (place ++ [name])) = .error cause) :
    TellsOf (place ++ [name]) disk disk (some cause) := by
  refine ⟨by simp, fun hfault => ?_⟩
  obtain rfl : cause = .notFound := by simpa using hfault
  exact at?_of_entry_notFound hstraight h

/-- The outcome of removing a file at a straight path. -/
theorem removeFile_tells (hstraight : disk.Straight (pathOf place))
    (h : disk.removeFile .user (pathOf (place ++ [name])) = (after, fault)) :
    TellsOf (place ++ [name]) disk after fault := by
  unfold removeFile at h
  split at h
  · rename_i cause hentry
    cases h
    exact tellsOf_of_entry_fault hstraight hentry
  · rename_i holder key hentry
    obtain ⟨rfl, rfl⟩ := entry_pathOf hstraight hentry
    split at h
    · rename_i hnone
      cases h
      exact ⟨by simp, fun _ => hnone⟩
    · cases h
      exact ⟨by simp, fun hfault => by split at hfault <;> simp at hfault⟩
    · rename_i node hnode
      exact takeOut_tells hnode h

theorem removeEmpty_tells (hstraight : disk.Straight (pathOf place))
    (h : disk.removeEmpty .user (pathOf (place ++ [name])) = (after, fault)) :
    TellsOf (place ++ [name]) disk after fault := by
  unfold removeEmpty at h
  split at h
  · rename_i cause hentry
    cases h
    exact tellsOf_of_entry_fault hstraight hentry
  · rename_i holder key hentry
    obtain ⟨rfl, rfl⟩ := entry_pathOf hstraight hentry
    split at h
    · rename_i hnone
      cases h
      exact ⟨by simp, fun _ => hnone⟩
    · rename_i rights hnode
      exact takeOut_tells hnode h
    · cases h
      exact ⟨by simp, by simp⟩
    · cases h
      exact ⟨by simp, by simp⟩

theorem clearAt_fault {disk cleared : Disk} {actor : Actor} {place : Place}
    (h : disk.clearAt actor place = (cleared, some .notFound)) : False := by
  unfold clearAt at h
  split at h
  · rename_i rights entries _
    split at h
    · simp only [Prod.mk.injEq] at h
      exact absurd (clear_fault actor rights entries h.2) (by simp)
    · simp at h
  · simp at h

/-- The outcome of removing a directory at a straight path. -/
theorem removeDirectory_tells (hstraight : disk.Straight (pathOf place))
    (h : disk.removeDirectory .user (pathOf (place ++ [name])) = (after, fault)) :
    TellsOf (place ++ [name]) disk after fault := by
  unfold removeDirectory at h
  split at h
  · rename_i cause hresolve
    cases h
    refine ⟨by simp, fun hfault => ?_⟩
    obtain rfl : cause = .notFound := by simpa using hfault
    exact at?_of_resolve_notFound hstraight hresolve
  · rename_i found hfound
    obtain rfl := resolve_look_pathOf hstraight hfound
    split at h
    · exact removeFile_tells hstraight h
    · have hpruned := clearAt_prunedWithin disk .user (place ++ [name])
      split at h
      · rename_i cleared cause hcleared
        cases h
        refine ⟨by simp, fun hfault => ?_⟩
        obtain rfl : cause = .notFound := by simpa using hfault
        exact (clearAt_fault hcleared).elim
      · rename_i cleared hcleared
        rw [hcleared] at hpruned
        -- the directory is still on its way after it has been emptied
        have hthere : disk.at? (place ++ [name]) ≠ none := by
          intro hnone
          simp [clearAt, hnone] at hcleared
        have hempty : ∀ cause, cleared.removeEmpty .user (pathOf (place ++ [name])) = (after, cause) →
            TellsOf (place ++ [name]) cleared after cause :=
          fun cause => removeEmpty_tells (hpruned.straight hstraight)
        split at h
        · rename_i emptied hremoved
          cases h
          exact ⟨fun _ => hthere, fun _ => (hempty _ hremoved).gone (Or.inr rfl)⟩
        · exact ⟨fun _ => hthere, (hempty _ h).gone⟩

end Straight

end Sweep.Disk
