import Sweep.Disk.Writing
import Sweep.Proofs.Disk.Lookup
/-!
# What writing keeps

Making a directory or a file adds an entry where there was none, and writing a file changes what it
says. So whatever a tree holds it holds afterwards, at the same place and with the same rights: it
*keeps* everything but the contents of files. Nothing else matters to where a path leads, so paths
that lead somewhere lead there afterwards.

A path *takes* a file if it leads to one that the user may read and write, or to a free name in a
directory that the user may search and change.

## Main results

* `Leads.of_keeps` — where a path leads, it leads after writing.
* `Leads.of_vacant` — a path to a free name leads to what is put there.
* `makeDirectories_keeps`, `makeDirectories_of_leads` — making directories, and making them again.
* `write_of_takes` — what is written is there to be read, and can be written again.
-/

namespace Sweep.Disk

/-! ## Trees that keep what they held -/

namespace Node

/-- What a node is without what it holds or says. -/
def shell : Node → Node
  | file rights _ => file rights []
  | link target => link target
  | directory rights _ => directory rights []

theorem shell_eq_link {node : Node} {target : Bytes} (h : node.shell = (link target).shell) :
    node = link target := by
  cases node <;> simp_all [shell]

theorem shell_eq_directory {node : Node} {rights : Rights} {entries : List (Name × Node)}
    (h : node.shell = (directory rights entries).shell) :
    ∃ held, node = directory rights held := by
  cases node <;> simp_all [shell]

/-- What one tree holds another one holds at the same places, though files may say something
else. -/
def Keeps (old new : Node) : Prop :=
  ∀ place node, old.at? place = some node →
    ∃ now, new.at? place = some now ∧ now.shell = node.shell

namespace Keeps

variable {old mid new : Node}

theorem refl (node : Node) : Keeps node node :=
  fun _ now h => ⟨now, h, rfl⟩

theorem trans (hfirst : Keeps old mid) (hsecond : Keeps mid new) : Keeps old new := by
  intro place node hnode
  obtain ⟨between, hbetween, hshell⟩ := hfirst place node hnode
  obtain ⟨now, hnow, hnext⟩ := hsecond place between hbetween
  exact ⟨now, hnow, hnext.trans hshell⟩

theorem at?_directory (h : Keeps old new) {place : Place} {rights : Rights}
    {entries : List (Name × Node)} (hnode : old.at? place = some (directory rights entries)) :
    ∃ held, new.at? place = some (directory rights held) := by
  obtain ⟨now, hnow, hshell⟩ := h place _ hnode
  obtain ⟨held, rfl⟩ := shell_eq_directory hshell
  exact ⟨held, hnow⟩

theorem at?_link (h : Keeps old new) {place : Place} {target : Bytes}
    (hnode : old.at? place = some (link target)) : new.at? place = some (link target) := by
  obtain ⟨now, hnow, hshell⟩ := h place _ hnode
  rw [hnow, shell_eq_link hshell]

/-- A directory that keeps its entries keeps what they hold. -/
theorem of_entries {rights : Rights} {entries others : List (Name × Node)}
    (h : ∀ name node, entries.lookup name = some node →
      ∃ now, others.lookup name = some now ∧ Keeps node now) :
    Keeps (directory rights entries) (directory rights others) := by
  intro place node hnode
  cases place with
  | nil =>
      cases hnode
      exact ⟨_, rfl, rfl⟩
  | cons name rest =>
      rw [at?_cons, Option.bind_eq_some_iff] at hnode
      obtain ⟨entry, hentry, hrest⟩ := hnode
      obtain ⟨now, hnow, hkeeps⟩ := h name entry hentry
      obtain ⟨last, hlast, hshell⟩ := hkeeps rest node hrest
      refine ⟨last, ?_, hshell⟩
      rw [at?_cons]
      show (others.lookup name).bind _ = _
      rw [hnow]
      exact hlast

/-- A change to one node keeps what the change of that node keeps. -/
theorem modify {f : Node → Node} (place : Place) (root : Node)
    (h : ∀ node, root.at? place = some node → Keeps node (f node)) :
    Keeps root (root.modify f place) := by
  induction place generalizing root with
  | nil => exact h root rfl
  | cons name place ih =>
      cases root with
      | file rights content => exact refl _
      | link target => exact refl _
      | directory rights entries =>
          apply of_entries
          intro a node hnode
          rw [lookup_map_at]
          by_cases ha : a = name
          · subst ha
            rw [if_pos rfl, hnode]
            refine ⟨_, rfl, ih node ?_⟩
            intro inner hinner
            apply h
            rw [at?_cons]
            show (entries.lookup a).bind _ = _
            rw [hnode]
            exact hinner
          · rw [if_neg ha]
            exact ⟨node, hnode, refl node⟩

end Keeps

theorem lookup_insertByName {α : Type} (name a : Name) (x : α) {entries : List (Name × α)}
    (hfree : entries.lookup name = none) :
    (insertByName name x entries).lookup a = if a = name then some x else entries.lookup a := by
  induction entries with
  | nil =>
      rw [insertByName, lookup_cons_ite]
  | cons entry rest ih =>
      obtain ⟨key, y⟩ := entry
      rw [lookup_cons_ite] at hfree
      by_cases hkey : name = key
      · rw [if_pos hkey] at hfree
        cases hfree
      · rw [if_neg hkey] at hfree
        rw [insertByName, if_neg hkey]
        split
        · rw [lookup_cons_ite]
        · rw [lookup_cons_ite, lookup_cons_ite, ih hfree]
          by_cases ha : a = key
          · rw [if_pos ha, if_neg (fun h => hkey (h.symm.trans ha))]
            simp [ha]
          · rw [if_neg ha, if_neg ha]

/-- An entry that is put leaves those of other names as they are. -/
theorem lookup_putEntry {rights : Rights} {entries : List (Name × Node)} (name a : Name)
    (entry : Node) :
    Node.entry? a ((directory rights entries).putEntry name entry) =
      if a = name then some entry else entries.lookup a := by
  show (insertByName name entry (entries.filter (·.1 ≠ name))).lookup a = _
  rw [lookup_insertByName _ _ _ (by rw [lookup_filter_ne, if_pos rfl]), lookup_filter_ne]
  by_cases ha : a = name
  · rw [if_pos ha, if_pos ha]
  · rw [if_neg ha, if_neg ha, if_neg ha]

theorem putEntry_keeps {rights : Rights} {entries : List (Name × Node)} {name : Name}
    (hfree : entries.lookup name = none) (entry : Node) :
    Keeps (directory rights entries) ((directory rights entries).putEntry name entry) := by
  apply Keeps.of_entries
  intro a node hnode
  have hput : Node.entry? a ((directory rights entries).putEntry name entry) =
      if a = name then some entry else entries.lookup a := lookup_putEntry name a entry
  have ha : a ≠ name := by
    rintro rfl
    rw [hfree] at hnode
    cases hnode
  rw [if_neg ha] at hput
  exact ⟨node, hput.trans hnode, .refl node⟩

theorem withContent_keeps (content : Bytes) (node : Node) :
    Keeps node (node.withContent content) := by
  cases node with
  | link target => exact .refl _
  | directory rights entries => exact .refl _
  | file rights earlier =>
      intro place node hnode
      cases place with
      | nil =>
          cases hnode
          exact ⟨_, rfl, rfl⟩
      | cons name rest => simp [at?_cons, entry?] at hnode

end Node

open Node

/-! ## Where paths lead afterwards -/

/-- Where a path leads, it leads after writing. -/
theorem Leads.of_keeps {old new : Node} (h : Node.Keeps old new) {actor : Actor} {purpose : Purpose}
    {links left : Nat} {here place : Place} {steps : List Bytes}
    (hleads : Leads old actor purpose links here steps left place) :
    Leads new actor purpose links here steps left place := by
  induction hleads with
  | done => exact .done
  | empty hdir _ ih =>
      obtain ⟨held, hheld⟩ := h.at?_directory hdir
      exact .empty hheld ih
  | stay hdir hsearch _ ih =>
      obtain ⟨held, hheld⟩ := h.at?_directory hdir
      exact .stay hheld hsearch ih
  | up hdir hsearch _ ih =>
      obtain ⟨held, hheld⟩ := h.at?_directory hdir
      exact .up hheld hsearch ih
  | enter hdir hsearch hopen hnode hlink _ ih =>
      obtain ⟨held, hheld⟩ := h.at?_directory hdir
      obtain ⟨now, hnow, hshell⟩ := h _ _ hnode
      refine .enter hheld hsearch hopen hnow (fun target htarget => ?_) ih
      rw [htarget] at hshell
      exact hlink target (shell_eq_link hshell.symm)
  | follow hdir hsearch hopen hnode hlink _ ih =>
      obtain ⟨held, hheld⟩ := h.at?_directory hdir
      exact .follow hheld hsearch hopen (h.at?_link hnode) hlink ih

/-- What can be written through a path can be reached through it. -/
theorem Leads.reach_of_write {root : Node} {actor : Actor} {links left : Nat} {here place : Place}
    {steps : List Bytes} (h : Leads root actor .write links here steps left place) :
    Leads root actor .reach links here steps left place := by
  induction h with
  | done => exact .done
  | empty hdir _ ih => exact .empty hdir ih
  | stay hdir hsearch _ ih => exact .stay hdir hsearch ih
  | up hdir hsearch _ ih => exact .up hdir hsearch ih
  | enter hdir hsearch _ hnode hlink _ ih =>
      refine .enter hdir hsearch (by simp) hnode (fun target htarget => ?_) ih
      cases (hlink target htarget).1
  | follow hdir hsearch _ hnode _ _ ih => exact .follow hdir hsearch (by simp) hnode (by simp) ih

/-- A path to a free name leads to the file that is put there. -/
theorem Leads.of_vacant {old new : Node} (hkeeps : Node.Keeps old new) {actor : Actor} {links : Nat}
    {here holder : Place} {name : Name} {steps : List Bytes} {rights : Rights} {content : Bytes}
    (h : walk old actor .write links here steps = .ok (.vacant holder name))
    (hnew : new.at? (holder ++ [name]) = some (.file rights content)) :
    ∃ left, Leads new actor .write links here steps left (holder ++ [name]) := by
  generalize hpurpose : Purpose.write = purpose at h
  fun_induction walk old actor purpose links here steps
  case case2 hdir ih =>
    obtain ⟨held, hheld⟩ := hkeeps.at?_directory hdir
    obtain ⟨left, hnext⟩ := ih h
    exact ⟨left, .empty hheld hnext⟩
  case case4 hdir hsearch _ ih =>
    obtain ⟨held, hheld⟩ := hkeeps.at?_directory hdir
    obtain ⟨left, hnext⟩ := ih h
    exact ⟨left, .stay hheld (by simpa using hsearch) hnext⟩
  case case5 hdir hsearch _ _ ih =>
    obtain ⟨held, hheld⟩ := hkeeps.at?_directory hdir
    obtain ⟨left, hnext⟩ := ih h
    exact ⟨left, .up hheld (by simpa using hsearch) hnext⟩
  case case8 rest _ _ hdir _ hsearch _ _ hopen key hkey _ hall =>
    obtain ⟨held, hheld⟩ := hkeeps.at?_directory hdir
    cases h
    -- slashes after a free name would ask for a directory
    have hlast : rest = [] := by
      by_cases hrest : rest = []
      · exact hrest
      · simp [← hpurpose, hrest, hall] at hopen
    rw [← Name.bytes_of_ofBytes? hkey, hlast]
    refine ⟨_, .enter hheld (by simpa using hsearch) (by simp) hnew ?_ .done⟩
    intro target htarget
    cases htarget
  case case11 hdir _ hsearch _ _ hopen key hkey target hlookup hlink links _ ih =>
    obtain ⟨held, hheld⟩ := hkeeps.at?_directory hdir
    obtain ⟨left, hnext⟩ := ih (by simpa using h)
    rw [← Name.bytes_of_ofBytes? hkey]
    refine ⟨left, .follow hheld (by simpa using hsearch) (by simpa using hopen)
      (hkeeps.at?_link ((at?_concat hdir key).trans hlookup)) (by simpa using hlink) ?_⟩
    simpa using hnext
  case case12 hlink =>
    subst hpurpose
    simp at hlink
  case case13 hdir _ hsearch _ _ hopen key hkey node hnolink hlookup ih =>
    obtain ⟨held, hheld⟩ := hkeeps.at?_directory hdir
    obtain ⟨left, hnext⟩ := ih h
    obtain ⟨now, hnow, hshell⟩ := hkeeps _ _ ((at?_concat hdir key).trans hlookup)
    rw [← Name.bytes_of_ofBytes? hkey]
    refine ⟨left, .enter hheld (by simpa using hsearch) (by simpa using hopen) hnow ?_ hnext⟩
    intro target htarget
    rw [htarget] at hshell
    exact (hnolink target (shell_eq_link hshell.symm)).elim
  all_goals cases h

/-! ## Disks -/

/-- What one disk holds another one holds at the same places, though files may say something
else. -/
structure Keeps (old new : Disk) : Prop where
  /-- The working directory is still the same place. -/
  working : new.working = old.working
  /-- The tree keeps what it held. -/
  root : Node.Keeps old.root new.root

namespace Keeps

variable {old mid new : Disk}

theorem refl (disk : Disk) : disk.Keeps disk :=
  ⟨rfl, .refl disk.root⟩

theorem trans (hfirst : old.Keeps mid) (hsecond : mid.Keeps new) : old.Keeps new :=
  ⟨hsecond.working.trans hfirst.working, hfirst.root.trans hsecond.root⟩

theorem start (h : old.Keeps new) {path : Path} {place : Place}
    (hstart : old.start path = .ok place) : new.start path = .ok place := by
  have hworking : old.hasWorking = true → new.hasWorking = true := by
    unfold hasWorking Disk.at?
    rw [h.working]
    intro hold
    split at hold
    · rename_i rights entries hdir
      obtain ⟨held, hheld⟩ := h.root.at?_directory hdir
      rw [hheld]
    · cases hold
  unfold Disk.start at hstart ⊢
  rw [h.working]
  grind

/-- Where a path leads, it leads after writing. -/
theorem resolve (h : old.Keeps new) {actor : Actor} {purpose : Purpose} {path : Path}
    {place : Place} (hplace : old.resolve actor purpose path = .ok place) :
    new.resolve actor purpose path = .ok place := by
  obtain ⟨here, left, hstart, hleads⟩ := resolve_eq_ok_iff.1 hplace
  exact resolve_eq_ok_iff.2 ⟨here, left, h.start hstart, hleads.of_keeps h.root⟩

end Keeps

theorem leadsToDirectory_iff {disk : Disk} {actor : Actor} {path : Path} :
    disk.leadsToDirectory actor path = true ↔
      ∃ place rights held, disk.resolve actor .reach path = .ok place ∧
        disk.at? place = some (.directory rights held) := by
  unfold leadsToDirectory
  constructor
  · intro h
    split at h
    · rename_i rights held hnode
      obtain ⟨place, hplace, hdir⟩ := node_eq_ok_iff.1 hnode
      exact ⟨place, rights, held, hplace, hdir⟩
    · cases h
  · intro h
    obtain ⟨place, rights, held, hplace, hdir⟩ := h
    rw [node_eq_ok_iff.2 ⟨place, hplace, hdir⟩]

theorem Keeps.leadsToDirectory {old new : Disk} (h : old.Keeps new) {actor : Actor} {path : Path}
    (hleads : old.leadsToDirectory actor path = true) :
    new.leadsToDirectory actor path = true := by
  obtain ⟨place, rights, held, hplace, hdir⟩ := leadsToDirectory_iff.1 hleads
  obtain ⟨now, hnow⟩ := h.root.at?_directory hdir
  exact leadsToDirectory_iff.2 ⟨place, rights, now, h.resolve hplace, hnow⟩

/-! ## New entries -/

/-- An entry that is put under a free name is there, and all else is kept. -/
theorem putAt_keeps {disk after : Disk} {actor : Actor} {place : Place} {name : Name} {entry : Node}
    (hfree : disk.at? (place ++ [name]) = none) (h : disk.putAt actor place name entry = .ok after) :
    disk.Keeps after ∧ after.at? (place ++ [name]) = some entry := by
  unfold putAt at h
  split at h
  · rename_i rights held hdir
    split at h
    · cases h
      rw [Disk.at?] at hfree hdir
      rw [at?_concat hdir] at hfree
      constructor
      · refine ⟨rfl, .modify place disk.root ?_⟩
        intro node hnode
        rw [hdir] at hnode
        cases hnode
        exact putEntry_keeps hfree entry
      · show (disk.root.modify (·.putEntry name entry) place).at? (place ++ [name]) = _
        rw [at?_modify, hdir, Option.bind_some, at?_cons, lookup_putEntry, if_pos rfl]
        rfl
    · cases h
  · cases h

/-- The steps of a path are those before the slashes at its end, and then empty ones. -/
theorem exists_dropSlashEnd (steps : List Bytes) :
    ∃ slashes, (∀ step ∈ slashes, step = []) ∧ steps = Path.dropSlashEnd steps ++ slashes := by
  refine ⟨(steps.reverse.takeWhile (· = [])).reverse, ?_, ?_⟩
  · intro step hstep
    have hempty := List.all_eq_true.1 List.all_takeWhile step (List.mem_reverse.1 hstep)
    exact of_decide_eq_true hempty
  · rw [Path.dropSlashEnd, ← List.reverse_append, List.takeWhile_append_dropWhile,
      List.reverse_reverse]

/-- Slashes at the end stay in a directory. -/
theorem Leads.slashes {root : Node} {actor : Actor} {purpose : Purpose} {links : Nat} {place : Place}
    {rights : Rights} {held : List (Name × Node)}
    (hdir : root.at? place = some (.directory rights held)) {slashes : List Bytes}
    (h : ∀ step ∈ slashes, step = []) : Leads root actor purpose links place slashes links place := by
  induction slashes with
  | nil => exact .done
  | cons step rest ih =>
      rw [h step List.mem_cons_self]
      exact .empty hdir (ih fun other hother => h other (List.mem_cons_of_mem _ hother))

/-- The directory that holds an entry is one that may be searched, and the path to the entry goes
through it. -/
theorem holder_of_entry {disk : Disk} {actor : Actor} {path : Path} {holder : Place} {name : Name}
    (h : disk.entry actor path = .ok (holder, name)) :
    ∃ here left steps slashes, disk.start path = .ok here ∧
      Leads disk.root actor .reach linkLimit here (steps ++ [dot]) left holder ∧
      (∀ step ∈ slashes, step = []) ∧ path.steps = steps ++ name.bytes :: slashes := by
  obtain ⟨slashes, hslashes, hsteps⟩ := exists_dropSlashEnd path.steps
  unfold entry at h
  simp only at h
  split at h
  · cases h
  · rename_i here hstart
    split at h
    · cases h
    · cases h
    · rename_i place hwalk
      obtain ⟨left, hleads⟩ := walk_eq_found_iff.1 hwalk
      split at h
      · cases h
      · rename_i step hlast
        split at h
        · cases h
        · split at h
          · cases h
          · rename_i key hkey
            cases h
            refine ⟨here, left, _, slashes, hstart, hleads, hslashes, ?_⟩
            rw [Name.bytes_of_ofBytes? hkey]
            obtain ⟨front, hfront⟩ := List.getLast?_eq_some_iff.1 hlast
            rw [hfront, List.dropLast_concat]
            rw [hfront, List.append_assoc] at hsteps
            exact hsteps

/-- A directory that is made is there, and all else is kept. -/
theorem makeDirectory_keeps {disk made : Disk} {actor : Actor} {path : Path}
    (h : disk.makeDirectory actor path = .ok made) :
    disk.Keeps made ∧ made.leadsToDirectory actor path = true := by
  unfold makeDirectory at h
  split at h
  · cases h
  · cases h
  · rename_i holder name hentry
    split at h
    · cases h
    · rename_i hfree
      rw [Bool.not_eq_true, Option.isSome_eq_false_iff, Option.isNone_iff_eq_none] at hfree
      obtain ⟨hkeeps, hnode⟩ := putAt_keeps hfree h
      refine ⟨hkeeps, ?_⟩
      obtain ⟨here, left, steps, slashes, hstart, hholder, hslashes, hpath⟩ :=
        holder_of_entry hentry
      obtain ⟨hto, rights, held, hdir, hsearch⟩ := (hholder.of_keeps hkeeps.root).of_concat_dot
      have hname : Leads made.root actor .reach left holder (name.bytes :: slashes) left
          (holder ++ [name]) := by
        refine .enter hdir hsearch (by simp) hnode ?_ (.slashes hnode hslashes)
        intro target htarget
        cases htarget
      refine leadsToDirectory_iff.2 ⟨holder ++ [name], _, _, ?_, hnode⟩
      refine resolve_eq_ok_iff.2 ⟨here, left, hkeeps.start hstart, ?_⟩
      rw [hpath]
      exact hto.join (List.cons_ne_nil _ _) (by simp) hname

/-- Slashes alone lead nowhere else. -/
theorem Leads.of_slashes {root : Node} {actor : Actor} {purpose : Purpose} {links left : Nat}
    {here place : Place} {slashes : List Bytes} (hslashes : ∀ step ∈ slashes, step = [])
    (h : Leads root actor purpose links here slashes left place) : place = here := by
  induction h with
  | done => rfl
  | empty _ _ ih => exact ih fun step hstep => hslashes step (List.mem_cons_of_mem _ hstep)
  | stay => cases hslashes _ List.mem_cons_self
  | up => cases hslashes _ List.mem_cons_self
  | @enter _ _ _ _ _ _ _ name => exact absurd (hslashes _ List.mem_cons_self) name.proper.1
  | @follow _ _ _ _ _ _ _ name => exact absurd (hslashes _ List.mem_cons_self) name.proper.1

/-- A step that leads on is taken in a directory that may be searched, and it is a dot, two dots or
the name of something that is there. -/
theorem Leads.first_step {root : Node} {actor : Actor} {purpose : Purpose} {links left : Nat}
    {here place : Place} {step : Bytes} {rest : List Bytes} (hstep : step ≠ [])
    (h : Leads root actor purpose links here (step :: rest) left place) :
    ∃ rights held, root.at? here = some (.directory rights held) ∧
      actor.may rights.search = true ∧
      (step = dot ∨ step = dotDot ∨
        ∃ name node, step = name.bytes ∧ root.at? (here ++ [name]) = some node) := by
  cases h with
  | empty => exact absurd rfl hstep
  | stay hdir hsearch _ => exact ⟨_, _, hdir, hsearch, Or.inl rfl⟩
  | up hdir hsearch _ => exact ⟨_, _, hdir, hsearch, Or.inr (Or.inl rfl)⟩
  | enter hdir hsearch _ hnode _ _ =>
      exact ⟨_, _, hdir, hsearch, Or.inr (Or.inr ⟨_, _, rfl, hnode⟩)⟩
  | follow hdir hsearch _ hnode _ _ =>
      exact ⟨_, _, hdir, hsearch, Or.inr (Or.inr ⟨_, _, rfl, hnode⟩)⟩

theorem getLast?_dropSlashEnd_ne (steps : List Bytes) :
    (Path.dropSlashEnd steps).getLast? ≠ some [] := by
  rw [Path.dropSlashEnd, List.getLast?_reverse]
  intro h
  have hlast := List.head?_dropWhile_not (fun step : Bytes => decide (step = [])) steps.reverse
  rw [h] at hlast
  simp at hlast

/-- What leads to a directory is not made again. -/
theorem makeDirectory_of_leads {disk : Disk} {actor : Actor} {path : Path}
    (h : disk.leadsToDirectory actor path = true) :
    ∃ fault, disk.makeDirectory actor path = .error fault ∧ fault ≠ .notFound := by
  obtain ⟨place, rights, held, hplace, hdir⟩ := leadsToDirectory_iff.1 h
  obtain ⟨here, left, hstart, hleads⟩ := resolve_eq_ok_iff.1 hplace
  obtain ⟨slashes, hslashes, hsteps⟩ := exists_dropSlashEnd path.steps
  have hlast := getLast?_dropSlashEnd_ne path.steps
  rw [hsteps] at hleads
  rcases List.eq_nil_or_concat (Path.dropSlashEnd path.steps) with hnil | ⟨front, step, hfront⟩
  · -- only the root and the working directory have no name
    rw [hnil, List.nil_append] at hleads
    obtain rfl := hleads.of_slashes hslashes
    by_cases hsearch : actor.may rights.search = true
    · have hwalk : walk disk.root actor .reach linkLimit place [dot] = .ok (.found place) :=
        walk_of_leads (.stay hdir hsearch .done)
      have hentry : disk.entry actor path = .error .unnamed := by
        simp [entry, hnil, hstart, hwalk]
      exact ⟨.taken, by simp [makeDirectory, hentry], by simp⟩
    · have hwalk : walk disk.root actor .reach linkLimit place [dot] = .error .denied := by
        rw [Disk.at?] at hdir
        simp [walk, hdir, hsearch, dot]
      have hentry : disk.entry actor path = .error .denied := by
        simp [entry, hnil, hstart, hwalk]
      exact ⟨.denied, by simp [makeDirectory, hentry], by simp⟩
  · refine ⟨.taken, ?_, by simp⟩
    rw [hfront, List.concat_eq_append, List.getLast?_concat] at hlast
    rw [hfront, List.concat_eq_append, List.append_assoc, List.singleton_append] at hleads
    obtain ⟨between, mid, hto, hfrom⟩ := hleads.split (List.cons_ne_nil step slashes)
    obtain ⟨own, contents, hmid, hsearch, hstep⟩ :=
      hfrom.first_step fun hempty => hlast (congrArg some hempty)
    have hwalk : walk disk.root actor .reach linkLimit here (front ++ [dot]) = .ok (.found mid) :=
      walk_of_leads (hto.join (List.cons_ne_nil dot []) (by simp) (.stay hmid hsearch .done))
    rcases hstep with rfl | rfl | ⟨name, node, rfl, hnode⟩
    · have hentry : disk.entry actor path = .error .unnamed := by
        simp [entry, hfront, hstart, hwalk]
      simp [makeDirectory, hentry]
    · have hentry : disk.entry actor path = .error .unnamed := by
        simp [entry, hfront, hstart, hwalk]
      simp [makeDirectory, hentry]
    · obtain ⟨-, hdot, hdotDot, -⟩ := name.proper
      have hentry : disk.entry actor path = .ok (mid, name) := by
        simp [entry, hfront, hstart, hwalk, hdot, hdotDot, Name.ofBytes?_bytes]
      have hthere : disk.at? (mid ++ [name]) = some node := hnode
      simp [makeDirectory, hentry, hthere]

/-- Making directories keeps what was there, and leaves a path that leads to one. -/
theorem makeDirectories_keeps {disk made : Disk} {actor : Actor} {path : Path}
    (h : disk.makeDirectories actor path = (made, none)) :
    disk.Keeps made ∧ (path.bytes = [] ∨ made.leadsToDirectory actor path = true) := by
  fun_induction disk.makeDirectories actor path generalizing made with
  | case1 path hempty =>
      cases h
      exact ⟨.refl _, Or.inl hempty⟩
  | case2 path _ after hmake =>
      cases h
      obtain ⟨hkeeps, hleads⟩ := makeDirectory_keeps hmake
      exact ⟨hkeeps, Or.inr hleads⟩
  | case3 => cases h
  | case4 => cases h
  | case5 path _ _ parent _ between hbetween after hmake ih =>
      cases h
      obtain ⟨hkeeps, hleads⟩ := makeDirectory_keeps hmake
      exact ⟨(ih hbetween).1.trans hkeeps, Or.inr hleads⟩
  | case6 path _ _ parent _ between hbetween fault _ ih =>
      by_cases hleads : between.leadsToDirectory actor path = true
      · rw [if_pos hleads] at h
        cases h
        exact ⟨(ih hbetween).1, Or.inr hleads⟩
      · rw [if_neg hleads] at h
        cases h
  | case7 path _ fault _ _ =>
      by_cases hleads : disk.leadsToDirectory actor path = true
      · rw [if_pos hleads] at h
        cases h
        exact ⟨.refl _, Or.inr hleads⟩
      · rw [if_neg hleads] at h
        cases h

/-- What leads to a directory has all its directories. -/
theorem makeDirectories_of_leads {disk : Disk} {actor : Actor} {path : Path}
    (h : path.bytes = [] ∨ disk.leadsToDirectory actor path = true) :
    disk.makeDirectories actor path = (disk, none) := by
  rw [makeDirectories]
  by_cases hempty : path.bytes = []
  · rw [if_pos hempty]
  · rw [if_neg hempty]
    have hleads := h.resolve_left hempty
    obtain ⟨fault, hmake, hfault⟩ := makeDirectory_of_leads hleads
    rw [hmake]
    cases fault with
    | notFound => exact absurd rfl hfault
    | _ => simp [hleads]

/-! ## Files -/

/-- A path at which the user can write a file and read it again: it leads to a file with the rights
to do so, or to a free name in a directory that may be searched and changed. -/
inductive Takes (disk : Disk) (path : Path) : Prop where
  /-- There is a file. -/
  | found {place : Place} {rights : Rights} {content : Bytes}
      (hlocate : disk.locate .user .write path = .ok (.found place))
      (hnode : disk.at? place = some (.file rights content))
      (hread : rights.read = true) (hwrite : rights.write = true) : Takes disk path
  /-- There is none yet. -/
  | vacant {holder : Place} {name : Name} {rights : Rights} {held : List (Name × Node)}
      (hlocate : disk.locate .user .write path = .ok (.vacant holder name))
      (hdir : disk.at? holder = some (.directory rights held))
      (hsearch : rights.search = true) (hwrite : rights.write = true) : Takes disk path

theorem locate_eq_found_iff {disk : Disk} {actor : Actor} {purpose : Purpose} {path : Path}
    {place : Place} :
    disk.locate actor purpose path = .ok (.found place) ↔
      disk.resolve actor purpose path = .ok place := by
  unfold resolve
  cases disk.locate actor purpose path with
  | error fault => simp
  | ok landing => cases landing <;> simp

/-- A name that a path finds free is free. -/
theorem at?_of_vacant {root : Node} {actor : Actor} {purpose : Purpose} {links : Nat}
    {here holder : Place} {name : Name} {steps : List Bytes}
    (h : walk root actor purpose links here steps = .ok (.vacant holder name)) :
    root.at? (holder ++ [name]) = none := by
  fun_induction walk root actor purpose links here steps
  case case2 ih => exact ih h
  case case4 ih => exact ih h
  case case5 ih => exact ih h
  case case8 hdir _ _ _ _ _ key _ hlookup _ =>
    cases h
    exact (at?_concat hdir _).trans hlookup
  case case11 ih => exact ih (by simpa using h)
  case case13 ih => exact ih h
  all_goals cases h

/-- A file with the rights to read and write it is read and takes another content. -/
theorem takes_and_reads {disk : Disk} {path : Path} {place : Place} {rights : Rights}
    {content : Bytes} (hplace : disk.resolve .user .write path = .ok place)
    (hnode : disk.at? place = some (.file rights content)) (hread : rights.read = true)
    (hwrite : rights.write = true) : disk.Takes path ∧ disk.read path = .ok content := by
  refine ⟨.found (locate_eq_found_iff.2 hplace) hnode hread hwrite, ?_⟩
  obtain ⟨here, left, hstart, hleads⟩ := resolve_eq_ok_iff.1 hplace
  have hreach : disk.resolve .user .reach path = .ok place :=
    resolve_eq_ok_iff.2 ⟨here, left, hstart, hleads.reach_of_write⟩
  rw [read, node_eq_ok_iff.2 ⟨place, hreach, hnode⟩]
  exact if_pos hread

/-- What is written is there to be read, and can be written again. -/
theorem write_of_takes {disk : Disk} {path : Path} (h : disk.Takes path) (content : Bytes) :
    ∃ after, disk.write .user path content = .ok after ∧ disk.Keeps after ∧ after.Takes path ∧
      after.read path = .ok content := by
  cases h with
  | @found place rights earlier hlocate hnode hread hwrite =>
      have hkeeps : disk.Keeps
          { disk with root := disk.root.modify (·.withContent content) place } :=
        ⟨rfl, .modify place disk.root fun node _ => withContent_keeps content node⟩
      refine ⟨_, ?_, hkeeps, takes_and_reads (hkeeps.resolve (locate_eq_found_iff.1 hlocate)) ?_
        hread hwrite⟩
      · rw [write, hlocate]
        simp only [hnode]
        exact if_pos hwrite
      · have hplace := at?_modify (·.withContent content) place [] disk.root
        rw [Disk.at?] at hnode
        rw [hnode, List.append_nil] at hplace
        exact hplace
  | @vacant holder name rights held hlocate hdir hsearch hwrite =>
      have hwalk : ∃ here, disk.start path = .ok here ∧
          walk disk.root .user .write linkLimit here path.steps = .ok (.vacant holder name) := by
        unfold locate at hlocate
        cases hstart : disk.start path with
        | error fault => simp [hstart] at hlocate
        | ok here =>
            rw [hstart] at hlocate
            exact ⟨here, rfl, hlocate⟩
      obtain ⟨here, hstart, hvacant⟩ := hwalk
      have hput : disk.putAt .user holder name (.file .ofFile content) = .ok { disk with
          root := disk.root.modify (·.putEntry name (.file .ofFile content)) holder } := by
        rw [putAt, hdir]
        simp [Actor.may, hsearch, hwrite]
      obtain ⟨hkeeps, hnode⟩ := putAt_keeps (at?_of_vacant hvacant) hput
      obtain ⟨left, hleads⟩ := Leads.of_vacant hkeeps.root hvacant hnode
      have hplace := resolve_eq_ok_iff.2 ⟨here, left, hkeeps.start hstart, hleads⟩
      refine ⟨_, ?_, hkeeps, takes_and_reads hplace hnode rfl rfl⟩
      rw [write, hlocate]
      exact hput

end Sweep.Disk
