import Sweep.Proofs.Path
import Sweep.Proofs.Preorder
/-!
# Walks through a tree that is being pruned

A walk whose visits remove things passes through the list of all that was below its start: some of
the entries it visits, and the others it passes over, because by then they are not shown any more.
`Visitor.Follows` says what a visit and an entry passed over each keep, and `Follows.run` is the
induction over the walk. The entries visited may come from a listing that was read some visits ago; a
predicate `there` says what can still be said of them.

## Main results

* `Visitor.Follows.passes` — what is shown of a listing is followed along the listing.
* `Visitor.Follows.run` — a walk is followed along the list of all that was below its start.
-/

namespace Sweep

open Disk

/-! ## Where entries lie -/

theorem Disk.Under.length_steps_lt {disk : Disk} {path : Path} {below : Place} {entry : Entry}
    (hfolded : path.IsFolded) (h : disk.Under path below entry) :
    path.steps.length < entry.path.steps.length := by
  induction h with
  | entry => simp [hfolded.steps_child]
  | @inner path below name entry _ _ ih =>
      have hinner := ih (hfolded.child name)
      rw [hfolded.steps_child, List.length_append] at hinner
      omega

/-- Of two entries of a directory neither contains the other. -/
theorem not_contains_child {path : Path} {name key : Name} (hfolded : path.IsFolded)
    (hne : name ≠ key) : ¬ (path.child name.bytes).Contains (path.child key.bytes) := by
  rintro ⟨-, hsteps⟩
  rw [hfolded.steps_child, hfolded.steps_child] at hsteps
  have hlast := List.append_cancel_left (hsteps.eq_of_length (by simp))
  exact hne (Name.bytes_injective (List.singleton_inj.1 hlast))

/-- An entry is what a walked directory lists under a name. -/
structure Disk.Met (disk : Disk) (walks : Path → Prop) (path : Path) (name : Name) (entry : Entry) :
    Prop where
  walked : walks path
  listed : (name, entry.kind) ∈ disk.entries path
  path_eq : entry.path = path.child name.bytes

namespace Visitor

variable {σ : Type}

/-! ## Following a walk -/

/-- What holds on the walks of a visitor while the disk is pruned from what it was. `keeps` speaks of
the entries that have been passed so far, visited or not. -/
structure Follows (visitor : Visitor σ) (disk : Disk) (walks : Path → Prop) (there : Path → σ → Prop)
    (keeps : List Entry → σ → Prop) : Prop where
  normal : ∀ {path}, walks path → path.IsNormal
  /-- Directories in walked directories are walked. -/
  inner : ∀ {path name}, walks path → (name, Kind.directory) ∈ disk.entries path →
    walks (path.child name.bytes)
  pruned : ∀ {passed state}, keeps passed state → Pruned disk (visitor.disk state)
  prunes : ∀ {path name entry state}, disk.Met walks path name entry →
    Pruned (visitor.disk state) (visitor.disk (visitor.visit entry state).1)
  /-- A visit passes an entry. -/
  visit : ∀ {passed path name entry state}, disk.Met walks path name entry → there entry.path state →
    keeps passed state → keeps (passed ++ [entry]) (visitor.visit entry state).1
  /-- An entry that is not shown any more is passed over. -/
  skip : ∀ {passed path name entry state}, disk.Met walks path name entry →
    (visitor.disk state).Hides path name → keeps passed state → keeps (passed ++ [entry]) state
  /-- A directory that is not gone into is not shown any more. -/
  leaves : ∀ {path name entry state}, disk.Met walks path name entry → entry.kind = .directory →
    (visitor.visit entry state).2 = false →
      (visitor.disk (visitor.visit entry state).1).Hides path name
  /-- What is shown is there. -/
  listed : ∀ {passed path name kind state}, walks path →
    (name, kind) ∈ (visitor.disk state).entries path → keeps passed state →
      there (path.child name.bytes) state
  /-- It stays there while other entries are visited, or a directory above it that is gone into. -/
  stays : ∀ {path name entry other state}, disk.Met walks path name entry → there other state →
    (entry.path.Contains other → entry.kind = .directory ∧ (visitor.visit entry state).2 = true) →
      there other (visitor.visit entry state).1
  fail : ∀ {passed path fault state}, keeps passed state → keeps passed (visitor.fail path fault state)
  fail_disk : ∀ {path fault state},
    visitor.disk (visitor.fail path fault state) = visitor.disk state
  fail_there : ∀ {path fault other state}, there other state →
    there other (visitor.fail path fault state)

namespace Follows

variable {visitor : Visitor σ} {disk : Disk} {walks : Path → Prop} {there : Path → σ → Prop}
  {keeps : List Entry → σ → Prop} (h : visitor.Follows disk walks there keeps)

include h

theorem met_of_under {path : Path} {below : Place} {entry : Entry} (hwalks : walks path)
    (hunder : disk.Under path below entry) : ∃ holder name, disk.Met walks holder name entry := by
  induction hunder with
  | @entry path below name kind hlisted => exact ⟨path, name, hwalks, hlisted, rfl⟩
  | inner hlisted _ ih => exact ih (h.inner hwalks hlisted)

/-- The visits of a listing prune the disk, and keep what they do not touch. -/
theorem frame {path : Path} (below : Place) {shown : Listing} {passed : List Entry} {state : σ}
    (hwalks : walks path) (hshown : ∀ entry ∈ shown, entry ∈ disk.entries path)
    (hkeeps : keeps passed state) :
    Pruned (visitor.disk state) (visitor.disk (visitor.visitListing path below shown state)) ∧
      ∀ other, (∀ entry, disk.Under path below entry → ¬ entry.path.Contains other) →
        there other state → there other (visitor.visitListing path below shown state) := by
  refine visitListing_keeps_under disk
    (fun later => Pruned (visitor.disk state) (visitor.disk later) ∧
      ∀ other, (∀ entry, disk.Under path below entry → ¬ entry.path.Contains other) →
        there other state → there other later)
    (disk.Under path below) ?_ ?_ ?_ path below shown state hshown (fun _ hunder => hunder)
    ⟨.refl _ _, fun _ _ hthere => hthere⟩
  · intro later place hlater entry hentry
    exact ((h.pruned hkeeps).trans hlater.1).mem_entries hentry
  · rintro entry later hunder ⟨hpruned, hlater⟩
    obtain ⟨holder, name, hmet⟩ := h.met_of_under hwalks hunder
    refine ⟨hpruned.trans (h.prunes hmet), fun other hapart hthere => ?_⟩
    exact h.stays hmet (hlater other hapart hthere) fun hcontains =>
      absurd hcontains (hapart entry hunder)
  · rintro place fault earlier later - - ⟨hpruned, hlater⟩
    refine ⟨?_, fun other hapart hthere => h.fail_there (hlater other hapart hthere)⟩
    rw [h.fail_disk]
    exact hpruned

end Follows

/-- Visiting what is shown of a listing passes the whole of it and all that is below. -/
def Passes (visitor : Visitor σ) (disk : Disk) (there : Path → σ → Prop)
    (keeps : List Entry → σ → Prop) (path : Path) (below : Place) (listing : Listing) : Prop :=
  ∀ passed shown state, shown.Sublist listing →
    (∀ entry ∈ shown, there (path.child entry.1.bytes) state) →
    (∀ entry ∈ listing, entry ∉ shown → (visitor.disk state).Hides path entry.1) →
    keeps passed state →
      keeps (passed ++ disk.preorder path below listing) (visitor.visitListing path below shown state)

theorem visitListing_nil (visitor : Visitor σ) (path : Path) (below : Place) (state : σ) :
    visitor.visitListing path below [] state = state := by
  rw [visitListing]

theorem visitListing_plain (visitor : Visitor σ) {path : Path} {below : Place} {name : Name}
    {kind : Kind} {rest : Listing} {state : σ} (hkind : kind ≠ .directory) :
    visitor.visitListing path below ((name, kind) :: rest) state =
      visitor.visitListing path below rest
        (visitor.visit ⟨path.child name.bytes, below ++ [name], kind⟩ state).1 := by
  rw [visitListing]
  exact hkind

/-- Where nothing is shown any more, everything is passed over. -/
theorem Passes.skip {visitor : Visitor σ} {disk : Disk} {there : Path → σ → Prop}
    {keeps : List Entry → σ → Prop} {path : Path} {below : Place} {listing : Listing}
    {passed : List Entry} {state : σ}
    (hpasses : visitor.Passes disk there keeps path below listing)
    (hhidden : ∀ entry ∈ listing, (visitor.disk state).Hides path entry.1)
    (hkeeps : keeps passed state) : keeps (passed ++ disk.preorder path below listing) state := by
  have hnone := hpasses passed [] state (List.nil_sublist listing) (by simp)
    (fun entry hentry _ => hhidden entry hentry) hkeeps
  rw [visitListing_nil] at hnone
  exact hnone

/-- How a walk goes on after an entry, called `name`, and perhaps what is below it. -/
structure Past (visitor : Visitor σ) (there : Path → σ → Prop) (keeps : List Entry → σ → Prop)
    (path : Path) (name : Name) (passed : List Entry) (state later : σ) : Prop where
  keeps : keeps passed later
  prunes : Pruned (visitor.disk state) (visitor.disk later)
  /-- The entries beside it stay. -/
  beside : ∀ key : Name, name ≠ key → there (path.child key.bytes) state →
    there (path.child key.bytes) later

theorem Past.skip {visitor : Visitor σ} {disk : Disk} {there : Path → σ → Prop}
    {keeps : List Entry → σ → Prop} {path : Path} {below : Place} {name : Name}
    {listing : Listing} {passed : List Entry} {state later : σ}
    (hpast : visitor.Past there keeps path name passed state later)
    (hpasses : visitor.Passes disk there keeps (path.child name.bytes) (below ++ [name]) listing)
    (hhidden : ∀ entry ∈ listing, (visitor.disk later).Hides (path.child name.bytes) entry.1) :
    visitor.Past there keeps path name
      (passed ++ disk.preorder (path.child name.bytes) (below ++ [name]) listing) state later :=
  ⟨hpasses.skip hhidden hpast.keeps, hpast.prunes, hpast.beside⟩

/-- After an entry the rest of a listing is passed. -/
theorem Past.rest {visitor : Visitor σ} {disk : Disk} {there : Path → σ → Prop}
    {keeps : List Entry → σ → Prop} {path : Path} {below : Place} {name : Name}
    {rest shown : Listing} {passed : List Entry} {state later : σ}
    (hpast : visitor.Past there keeps path name passed state later)
    (hrest : visitor.Passes disk there keeps path below rest) (hshown : shown.Sublist rest)
    (hne : ∀ entry ∈ rest, name ≠ entry.1)
    (hthere : ∀ entry ∈ shown, there (path.child entry.1.bytes) state)
    (hhidden : ∀ entry ∈ rest, entry ∉ shown → (visitor.disk state).Hides path entry.1) :
    keeps (passed ++ disk.preorder path below rest)
      (visitor.visitListing path below shown later) := by
  refine hrest passed shown later hshown (fun entry hentry => ?_) (fun entry hentry hgone => ?_)
    hpast.keeps
  · exact hpast.beside entry.1 (hne entry (hshown.subset hentry)) (hthere entry hentry)
  · exact (hhidden entry hentry hgone).of_prunedWithin hpast.prunes

namespace Follows

variable {visitor : Visitor σ} {disk : Disk} {walks : Path → Prop} {there : Path → σ → Prop}
  {keeps : List Entry → σ → Prop} (h : visitor.Follows disk walks there keeps)
  {path : Path} {below : Place} {name : Name} {passed : List Entry} {state : σ}

include h

/-- A visit leaves the other entries of the directory there. -/
theorem past_visit {entry : Entry} (hmet : disk.Met walks path name entry)
    (hthere : there entry.path state) (hkeeps : keeps passed state) :
    visitor.Past there keeps path name (passed ++ [entry]) state (visitor.visit entry state).1 := by
  refine ⟨h.visit hmet hthere hkeeps, h.prunes hmet, fun key hne hkey => ?_⟩
  refine h.stays hmet hkey fun hcontains => ?_
  rw [hmet.path_eq] at hcontains
  exact absurd hcontains (not_contains_child (h.normal hmet.walked).folded hne)

/-- What is below one entry of a directory does not contain another one. -/
theorem not_contains_of_under {key : Name} {entry : Entry} (hwalks : walks path)
    (hunder : disk.Under (path.child name.bytes) below entry) :
    ¬ entry.path.Contains (path.child key.bytes) := by
  rintro ⟨-, hsteps⟩
  have hfolded := (h.normal hwalks).folded
  have hlonger := hunder.length_steps_lt (hfolded.child name)
  have hlength := hsteps.length_le
  simp only [hfolded.steps_child, List.length_append, List.length_singleton] at *
  omega

theorem past_fail {later : σ} {place : Path} {fault : Fault}
    (hpast : visitor.Past there keeps path name passed state later) :
    visitor.Past there keeps path name passed state (visitor.fail place fault later) := by
  refine ⟨h.fail hpast.keeps, ?_, fun key hne hkey => h.fail_there (hpast.beside key hne hkey)⟩
  rw [h.fail_disk]
  exact hpast.prunes

/-- A directory that cannot be listed any more is passed over with all that was below it. -/
theorem past_unlisted {shown : Listing} {fault : Fault}
    (hinner : visitor.Passes disk there keeps (path.child name.bytes) (below ++ [name])
      (disk.entries (path.child name.bytes)))
    (hlive : (visitor.disk state).list (path.child name.bytes) = .error fault)
    (hmet : disk.Met walks path name ⟨path.child name.bytes, below ++ [name], .directory⟩)
    (hthere : there (path.child name.bytes) state) (hkeeps : keeps passed state) :
    ∃ later, visitor.visitListing path below ((name, .directory) :: shown) state =
        visitor.visitListing path below shown later ∧
      visitor.Past there keeps path name
        (passed ++ [⟨path.child name.bytes, below ++ [name], .directory⟩] ++
          disk.preorder (path.child name.bytes) (below ++ [name])
            (disk.entries (path.child name.bytes))) state later := by
  have hvisit := h.past_visit hmet hthere hkeeps
  rw [visitListing_unlisted visitor hlive]
  cases hvisited : visitor.visit ⟨path.child name.bytes, below ++ [name], .directory⟩ state with
  | mk visited enter =>
      rw [hvisited] at hvisit
      have hhidden : ∀ entry ∈ disk.entries (path.child name.bytes),
          (visitor.disk visited).Hides (path.child name.bytes) entry.1 :=
        fun entry _ => (hides_of_list_error hlive entry.1).of_prunedWithin hvisit.prunes
      cases enter with
      | true =>
          refine ⟨visitor.fail (path.child name.bytes) fault visited, by simp only [if_true], ?_⟩
          refine (h.past_fail hvisit).skip hinner ?_
          rw [h.fail_disk]
          exact hhidden
      | false => exact ⟨visited, by simp, hvisit.skip hinner hhidden⟩

/-- A directory that is entered is passed with all that is below it. -/
theorem past_entered {contents : Listing} {visited : σ}
    (hinner : visitor.Passes disk there keeps (path.child name.bytes) (below ++ [name])
      (disk.entries (path.child name.bytes)))
    (hlive : (visitor.disk state).list (path.child name.bytes) = .ok contents)
    (hmet : disk.Met walks path name ⟨path.child name.bytes, below ++ [name], .directory⟩)
    (hvisited : visitor.visit ⟨path.child name.bytes, below ++ [name], .directory⟩ state =
      (visited, true))
    (hthere : there (path.child name.bytes) state) (hkeeps : keeps passed state) :
    visitor.Past there keeps path name
      (passed ++ [⟨path.child name.bytes, below ++ [name], .directory⟩] ++
        disk.preorder (path.child name.bytes) (below ++ [name])
          (disk.entries (path.child name.bytes))) state
      (visitor.visitListing (path.child name.bytes) (below ++ [name]) contents visited) := by
  have hpruned := h.pruned hkeeps
  have hcontents := entries_of_list hlive
  have hwalked := h.inner hmet.walked hmet.listed
  have hvisit := h.past_visit hmet hthere hkeeps
  rw [hvisited] at hvisit
  have hshown : ∀ entry ∈ contents, entry ∈ disk.entries (path.child name.bytes) :=
    fun entry hentry => hpruned.mem_entries (hcontents ▸ hentry)
  have hframe := h.frame (below ++ [name]) hwalked hshown hvisit.keeps
  refine ⟨?_, hvisit.prunes.trans hframe.1, ?_⟩
  · refine hinner _ contents visited
      (hcontents ▸ hpruned.entries_sublist (path.child name.bytes)) ?_ ?_ hvisit.keeps
    · intro entry hentry
      have hbefore := h.listed hwalked (hcontents ▸ hentry) hkeeps
      have hafter := h.stays hmet hbefore
      rw [hvisited] at hafter
      exact hafter fun _ => ⟨rfl, rfl⟩
    · intro entry hentry hgone
      have hhidden := hpruned.hides_of_not_mem hentry (hcontents ▸ hgone)
      exact hhidden.of_prunedWithin hvisit.prunes
  · intro key hne hkey
    exact hframe.2 _ (fun entry hunder => h.not_contains_of_under hmet.walked hunder)
      (hvisit.beside key hne hkey)

/-- Visiting a directory passes it and all that is below. -/
theorem past_directory {shown : Listing}
    (hinner : visitor.Passes disk there keeps (path.child name.bytes) (below ++ [name])
      (disk.entries (path.child name.bytes)))
    (hwalks : walks path) (hlisted : (name, Kind.directory) ∈ disk.entries path)
    (hthere : there (path.child name.bytes) state) (hkeeps : keeps passed state) :
    ∃ later, visitor.visitListing path below ((name, .directory) :: shown) state =
        visitor.visitListing path below shown later ∧
      visitor.Past there keeps path name
        (passed ++ ⟨path.child name.bytes, below ++ [name], .directory⟩ ::
          disk.preorder (path.child name.bytes) (below ++ [name])
            (disk.entries (path.child name.bytes))) state later := by
  have hmet : disk.Met walks path name ⟨path.child name.bytes, below ++ [name], .directory⟩ :=
    ⟨hwalks, hlisted, rfl⟩
  rw [List.append_cons]
  cases hlive : (visitor.disk state).list (path.child name.bytes) with
  | error fault => exact h.past_unlisted hinner hlive hmet hthere hkeeps
  | ok contents =>
      rw [visitListing_listed visitor hlive]
      cases hvisited : visitor.visit ⟨path.child name.bytes, below ++ [name], .directory⟩ state with
      | mk visited enter =>
          cases enter with
          | true =>
              exact ⟨_, by simp only [if_true],
                h.past_entered hinner hlive hmet hvisited hthere hkeeps⟩
          | false =>
              have hvisit := h.past_visit hmet hthere hkeeps
              have hgone := h.leaves hmet rfl (congrArg Prod.snd hvisited)
              rw [hvisited] at hvisit hgone
              refine ⟨visited, by simp, hvisit.skip hinner fun entry _ => ?_⟩
              exact hgone.child ((h.pruned hkeeps).trans hvisit.prunes) (h.normal hwalks) hlisted
                entry.1

/-! ### Listings -/

/-- A listing is passed if its first entry, with all that is below it, and its other entries are. -/
theorem passes_cons {kind : Kind} {rest : Listing} {inner : List Entry}
    (hwalks : walks path) (hlisting : ∀ entry ∈ (name, kind) :: rest, entry ∈ disk.entries path)
    (hne : ∀ entry ∈ rest, name ≠ entry.1)
    (hpreorder : disk.preorder path below ((name, kind) :: rest) =
      ⟨path.child name.bytes, below ++ [name], kind⟩ :: (inner ++ disk.preorder path below rest))
    (hshow : ∀ passed shown state, there (path.child name.bytes) state → keeps passed state →
      ∃ later, visitor.visitListing path below ((name, kind) :: shown) state =
          visitor.visitListing path below shown later ∧
        visitor.Past there keeps path name
          (passed ++ ⟨path.child name.bytes, below ++ [name], kind⟩ :: inner) state later)
    (hhide : ∀ passed state, (visitor.disk state).Hides path name → keeps passed state →
      keeps (passed ++ inner) state)
    (hrest : visitor.Passes disk there keeps path below rest) :
    visitor.Passes disk there keeps path below ((name, kind) :: rest) := by
  intro passed shown state hshown hthere hhidden hkeeps
  have hmet : disk.Met walks path name ⟨path.child name.bytes, below ++ [name], kind⟩ :=
    ⟨hwalks, hlisting _ (by simp), rfl⟩
  have hpass : passed ++ disk.preorder path below ((name, kind) :: rest) =
      passed ++ ⟨path.child name.bytes, below ++ [name], kind⟩ :: inner ++
        disk.preorder path below rest := by
    rw [hpreorder, List.append_assoc, List.cons_append]
  rw [hpass]
  cases hshown with
  | cons _ hshown =>
      have hgone : (name, kind) ∉ shown := fun hmem => hne _ (hshown.subset hmem) rfl
      have hhides := hhidden _ (by simp) hgone
      have hskipped := hhide _ state hhides (h.skip hmet hhides hkeeps)
      rw [List.append_assoc, List.singleton_append] at hskipped
      have hpast : visitor.Past there keeps path name _ state state :=
        ⟨hskipped, .refl _ _, fun _ _ hkey => hkey⟩
      exact hpast.rest hrest hshown hne hthere
        fun entry hentry => hhidden entry (by simp [hentry])
  | cons_cons _ hshown =>
      obtain ⟨later, hlater, hpast⟩ := hshow passed _ state (hthere (name, kind) (by simp)) hkeeps
      rw [hlater]
      refine hpast.rest hrest hshown hne (fun entry hentry => hthere entry (by simp [hentry]))
        fun entry hentry hgone => hhidden entry (by simp [hentry]) ?_
      intro hmem
      rcases List.mem_cons.1 hmem with rfl | hmem
      · exact hne _ hentry rfl
      · exact hgone hmem

/-- A listing is passed if the listings of its directories are. -/
theorem passes_directory {rest : Listing} (hwalks : walks path)
    (hlisting : ∀ entry ∈ (name, Kind.directory) :: rest, entry ∈ disk.entries path)
    (hne : ∀ entry ∈ rest, name ≠ entry.1)
    (hinner : visitor.Passes disk there keeps (path.child name.bytes) (below ++ [name])
      (disk.entries (path.child name.bytes)))
    (hrest : visitor.Passes disk there keeps path below rest) :
    visitor.Passes disk there keeps path below ((name, .directory) :: rest) := by
  have hnormal := h.normal hwalks
  have hlisted : (name, Kind.directory) ∈ disk.entries path := hlisting _ (by simp)
  refine h.passes_cons hwalks hlisting hne (Disk.preorder_directory disk path below name rest) ?_ ?_
    hrest
  · intro passed shown state hthere hkeeps
    exact h.past_directory hinner hwalks hlisted hthere hkeeps
  · intro passed state hhides hkeeps
    refine hinner.skip (fun entry _ => ?_) hkeeps
    exact hhides.child (h.pruned hkeeps) hnormal hlisted entry.1

theorem passes_plain {kind : Kind} {rest : Listing} (hkind : kind ≠ .directory) (hwalks : walks path)
    (hlisting : ∀ entry ∈ (name, kind) :: rest, entry ∈ disk.entries path)
    (hne : ∀ entry ∈ rest, name ≠ entry.1)
    (hrest : visitor.Passes disk there keeps path below rest) :
    visitor.Passes disk there keeps path below ((name, kind) :: rest) := by
  have hpreorder : disk.preorder path below ((name, kind) :: rest) =
      ⟨path.child name.bytes, below ++ [name], kind⟩ :: ([] ++ disk.preorder path below rest) :=
    Disk.preorder_plain disk path below name rest hkind
  refine h.passes_cons hwalks hlisting hne hpreorder ?_ ?_ hrest
  · intro passed shown state hthere hkeeps
    exact ⟨_, visitListing_plain visitor hkind,
      h.past_visit ⟨hwalks, hlisting _ (by simp), rfl⟩ hthere hkeeps⟩
  · intro passed state _ hkeeps
    simpa using hkeeps

/-- Visiting what is shown of a listing passes all of it. -/
theorem passes (listing : Listing) (hwalks : walks path)
    (hlisting : ∀ entry ∈ listing, entry ∈ disk.entries path)
    (hnames : listing.Pairwise fun a b => a.1 ≠ b.1) :
    visitor.Passes disk there keeps path below listing := by
  have hnil : ∀ path below, visitor.Passes disk there keeps path below [] := by
    intro path below passed shown state hshown _ _ hkeeps
    obtain rfl := List.sublist_nil.1 hshown
    rw [visitListing_nil, Disk.preorder, List.append_nil]
    exact hkeeps
  fun_induction disk.preorder path below listing with
  | case1 path below => exact hnil path below
  | case2 path below name rest fault hlist ih =>
      obtain ⟨hne, hnames⟩ := List.pairwise_cons.1 hnames
      have hempty : disk.entries (path.child name.bytes) = [] := by
        simp [Disk.entries, hlist, Except.toOption]
      refine h.passes_directory hwalks hlisting hne (hempty ▸ hnil _ _) ?_
      exact ih hwalks (fun entry hentry => hlisting entry (by simp [hentry])) hnames
  | case3 path below name rest contents hlist ihinner ih =>
      obtain ⟨hne, hnames⟩ := List.pairwise_cons.1 hnames
      have hcontents := entries_of_list hlist
      have hinner := ihinner (h.inner hwalks (hlisting _ (by simp)))
        (fun entry hentry => hcontents ▸ hentry) (hcontents ▸ pairwise_ne_entries disk _)
      refine h.passes_directory hwalks hlisting hne (hcontents ▸ hinner) ?_
      exact ih hwalks (fun entry hentry => hlisting entry (by simp [hentry])) hnames
  | case4 path below name kind rest hkind ih =>
      obtain ⟨hne, hnames⟩ := List.pairwise_cons.1 hnames
      refine h.passes_plain hkind hwalks hlisting hne ?_
      exact ih hwalks (fun entry hentry => hlisting entry (by simp [hentry])) hnames

end Follows

/-- A walk from a directory that can be listed visits its listing. -/
theorem run_of_list (visitor : Visitor σ) {path : Path} {state : σ} {listing : Listing}
    (hlist : (visitor.disk state).list path = .ok listing) :
    visitor.run path false state = visitor.visitListing path [] listing state := by
  rcases Disk.kinds_of_list hlist with hown | ⟨hown, hkind⟩
  · simp [run, visitDirectory, hown, hlist]
  · simp [run, visitDirectory, hown, hkind, hlist]

/-- A walk from anything else visits nothing. -/
theorem run_of_list_error (visitor : Visitor σ) {path : Path} {state : σ} {fault : Fault}
    (hlist : (visitor.disk state).list path = .error fault) :
    visitor.run path false state = state ∨
      ∃ cause, visitor.run path false state = visitor.fail path cause state := by
  unfold run
  simp only [visitDirectory, hlist]
  split
  · exact Or.inr ⟨_, rfl⟩
  · exact Or.inr ⟨_, rfl⟩
  · exact Or.inl rfl
  · split
    · exact Or.inr ⟨_, rfl⟩
    · exact Or.inr ⟨_, rfl⟩
    · exact Or.inl rfl

/-- A walk through a disk that is being pruned passes all that was below its start. -/
theorem Follows.run {visitor : Visitor σ} {disk : Disk} {walks : Path → Prop}
    {there : Path → σ → Prop} {keeps : List Entry → σ → Prop}
    (h : visitor.Follows disk walks there keeps) {path : Path} {passed : List Entry} {state : σ}
    (hwalks : walks path) (hkeeps : keeps passed state) :
    keeps (passed ++ disk.allBelow path) (visitor.run path false state) := by
  have hpruned := h.pruned hkeeps
  have hpasses : visitor.Passes disk there keeps path [] (disk.entries path) :=
    h.passes (disk.entries path) hwalks (fun _ hentry => hentry) (pairwise_ne_entries disk path)
  cases hlist : (visitor.disk state).list path with
  | ok contents =>
      have hcontents := entries_of_list hlist
      rw [run_of_list visitor hlist]
      refine hpasses passed contents state (hcontents ▸ hpruned.entries_sublist path) ?_ ?_ hkeeps
      · intro entry hentry
        exact h.listed hwalks (hcontents ▸ hentry) hkeeps
      · intro entry hentry hgone
        exact hpruned.hides_of_not_mem hentry (hcontents ▸ hgone)
  | error fault =>
      have hhidden : ∀ entry ∈ disk.entries path, (visitor.disk state).Hides path entry.1 :=
        fun entry _ => hides_of_list_error hlist entry.1
      rcases run_of_list_error visitor hlist with hrun | ⟨cause, hrun⟩
      · rw [hrun]
        exact hpasses.skip hhidden hkeeps
      · rw [hrun]
        refine hpasses.skip ?_ (h.fail hkeeps)
        rw [h.fail_disk]
        exact hhidden

end Visitor

end Sweep
