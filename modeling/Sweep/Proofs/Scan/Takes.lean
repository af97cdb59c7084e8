import Sweep.Proofs.Follow
import Sweep.Proofs.Scan.Extent
/-!
# Following a target through a directory

`named` is the list of what a target names in a directory, on a disk that stays as it is. A scan that
removes its matches comes upon the same things in the same order, but some of them are gone by then.

`Takes` says what must hold of a single match for a scan to be followed along the list: what is kept
when a match is taken, and what is kept when one is passed over that is not shown any more. A match
may come from a listing that was read some matches ago; a predicate `there` says what can still be
said of it.

## Main results

* `Progress.hides_of_gone` — a match whose removal leaves nothing is not shown any more.
* `Takes.takeTargets` — a target is followed through a directory.
-/

namespace Sweep

open Disk

/-! ## Lists of what is named -/

/-- The paths of the entries of a listing whose names a target accepts. -/
def Glob.pick (target : Glob) (directory : Path) (listing : Listing) : List Path :=
  (listing.filter fun entry => target.accepts entry.1.text).map fun entry =>
    directory.child entry.1.bytes

theorem Glob.pick_cons (target : Glob) (directory : Path) (entry : Name × Kind) (rest : Listing) :
    target.pick directory (entry :: rest) =
      target.pick directory [entry] ++ target.pick directory rest := by
  rw [Glob.pick, ← List.singleton_append, List.filter_append, List.map_append]
  rfl

/-- The paths that a target names in a directory, in order. -/
def Disk.named (disk : Disk) (target : Glob) (directory : Path) : List Path :=
  if target.isRecursive then
    ((disk.allBelow directory).filter fun entry =>
      target.accepts (slashed entry.below)).map (·.path)
  else target.pick directory (disk.entries directory)

/-- The list holds what the target names. -/
theorem Disk.mem_named_iff {disk : Disk} {target : Glob} {directory path : Path} :
    path ∈ disk.named target directory ↔ ∃ kind, disk.Named target directory path kind := by
  unfold Disk.named
  constructor
  · intro h
    split at h
    · rename_i hrecursive
      simp only [List.mem_map, List.mem_filter, Disk.mem_allBelow_iff] at h
      obtain ⟨entry, ⟨hunder, haccepts⟩, rfl⟩ := h
      exact ⟨entry.kind, .below hrecursive hunder haccepts⟩
    · rename_i hplain
      simp only [Glob.pick, List.mem_map, List.mem_filter] at h
      obtain ⟨entry, ⟨hlisted, haccepts⟩, rfl⟩ := h
      exact ⟨entry.2, .entry (by simpa using hplain) hlisted haccepts⟩
  · rintro ⟨kind, h⟩
    cases h with
    | @entry name _ hplain hlisted haccepts =>
        rw [if_neg (by simp [hplain])]
        exact List.mem_map.2 ⟨(name, kind), List.mem_filter.2 ⟨hlisted, haccepts⟩, rfl⟩
    | @below entry hrecursive hunder haccepts =>
        rw [if_pos hrecursive]
        exact List.mem_map.2
          ⟨entry, List.mem_filter.2 ⟨Disk.mem_allBelow_iff.2 hunder, haccepts⟩, rfl⟩

/-- What a target names on a pruned disk it named before. -/
theorem Disk.Named.of_prunedWithin {p : Place → Prop} {old new : Disk} {target : Glob}
    {directory path : Path} {kind : Kind} (hpruned : PrunedWithin p old new)
    (h : new.Named target directory path kind) : old.Named target directory path kind := by
  cases h with
  | entry hplain hlisted haccepts => exact .entry hplain (hpruned.mem_entries hlisted) haccepts
  | below hrecursive hunder haccepts =>
      exact .below hrecursive (hunder.of_prunedWithin hpruned) haccepts

/-! ## Matches that are gone -/

namespace Progress

/-- A live scan takes a match for gone if its removal succeeded, or found nothing to remove. -/
theorem gone_take_live (progress : Progress) (path : Path) (isDirectory : Bool) :
    (progress.take .idle .live path isDirectory).2 = true ↔
      (progress.disk.removeMatch path isDirectory).2 = none ∨
        (progress.disk.removeMatch path isDirectory).2 = some .notFound := by
  simp only [take, removeMatch, tell, Observer.idle, Disk.removeMatch]
  generalize (if isDirectory = true then progress.disk.removeDirectory .user path
    else progress.disk.removeFile .user path) = removed
  obtain ⟨disk, fault⟩ := removed
  cases fault with
  | none => simp
  | some fault => cases fault <;> simp

/-- No removal has failed so far. -/
def Sound (progress : Progress) : Prop :=
  ∀ path trouble, .failed .deletion path trouble ∉ progress.trace

/-- If no removal has failed after a match was taken, then none before, and the match is gone. -/
theorem sound_take_live {progress : Progress} {path : Path} {isDirectory : Bool}
    (h : (progress.take .idle .live path isDirectory).1.Sound) :
    progress.Sound ∧ (progress.take .idle .live path isDirectory).2 = true := by
  rw [Sound, take_live] at h
  refine ⟨fun other trouble hfailed => ?_, (progress.gone_take_live path isDirectory).2 ?_⟩
  · exact h other trouble (List.mem_append_right _ (List.mem_cons_of_mem _ hfailed))
  · exact Extent.of_tidings fun trouble hfailed =>
      h path trouble (List.mem_append_left _ hfailed)

/-- What is gone is not shown any more. -/
theorem hides_of_gone {progress : Progress} {mode : Mode} {path : Path} {name : Name}
    {isDirectory : Bool} (hnormal : path.IsNormal)
    (hgone : (progress.take .idle mode (path.child name.bytes) isDirectory).2 = true) :
    (progress.take .idle mode (path.child name.bytes) isDirectory).1.disk.Hides path name := by
  cases mode with
  | dry =>
      rw [take_dry] at hgone
      cases hgone
  | live =>
      have hfault := (progress.gone_take_live _ _).1 hgone
      rw [take_live]
      simp only [Disk.removeMatch] at hfault ⊢
      cases isDirectory with
      | true => exact hides_removeDirectory hnormal hfault rfl
      | false => exact hides_removeFile hnormal hfault rfl

end Progress

/-! ## Following a scan -/

/-- What holds while matches are taken in the walked directories, as the disk is pruned from what it
was. `keeps` speaks of the matches that have been passed so far, taken or not. -/
structure Takes (disk : Disk) (mode : Mode) (walks : Path → Prop) (there : Path → Progress → Prop)
    (keeps : List Path → Progress → Prop) : Prop where
  normal : ∀ {path}, walks path → path.IsNormal
  /-- Directories in walked directories are walked. -/
  inner : ∀ {path name}, walks path → (name, Kind.directory) ∈ disk.entries path →
    walks (path.child name.bytes)
  pruned : ∀ {found progress}, keeps found progress → Pruned disk progress.disk
  /-- Taking a match passes it. -/
  take : ∀ {found path name kind progress}, walks path → (name, kind) ∈ disk.entries path →
    there (path.child name.bytes) progress → keeps found progress →
      keeps (found ++ [path.child name.bytes])
        (progress.take .idle mode (path.child name.bytes) (kind = .directory)).1
  /-- A match that is not shown any more is passed over. -/
  skip : ∀ {found path name kind progress}, walks path → (name, kind) ∈ disk.entries path →
    progress.disk.Hides path name → keeps found progress →
      keeps (found ++ [path.child name.bytes]) progress
  /-- What is shown is there. -/
  listed : ∀ {found path name kind progress}, walks path →
    (name, kind) ∈ progress.disk.entries path → keeps found progress →
      there (path.child name.bytes) progress
  /-- It stays there while other matches are taken, or a directory above it that cannot be removed. -/
  stays : ∀ {path name kind other progress}, walks path → (name, kind) ∈ disk.entries path →
    there other progress →
      ((path.child name.bytes).Contains other → kind = .directory ∧
        (progress.take .idle mode (path.child name.bytes) (kind = .directory)).2 = false) →
      there other (progress.take .idle mode (path.child name.bytes) (kind = .directory)).1

/-- Where it does not matter which matches are still there, all normal paths may be walked. -/
theorem Takes.ofNormal {disk : Disk} {mode : Mode} {keeps : List Path → Progress → Prop}
    (hpruned : ∀ {found progress}, keeps found progress → Pruned disk progress.disk)
    (htake : ∀ {found path name kind progress}, path.IsNormal → (name, kind) ∈ disk.entries path →
      keeps found progress → keeps (found ++ [path.child name.bytes])
        (progress.take .idle mode (path.child name.bytes) (kind = .directory)).1)
    (hskip : ∀ {found path name kind progress}, path.IsNormal → (name, kind) ∈ disk.entries path →
      progress.disk.Hides path name → keeps found progress →
        keeps (found ++ [path.child name.bytes]) progress) :
    Takes disk mode Path.IsNormal (fun _ _ => True) keeps where
  normal := id
  inner := fun hwalks _ => hwalks.child _
  pruned := hpruned
  take := fun hwalks hlisted _ => htake hwalks hlisted
  skip := hskip
  listed := fun _ _ _ => trivial
  stays := fun _ _ _ _ => trivial

theorem visit_target_of_accepts {observer : Observer} {mode : Mode} {target : Glob} {entry : Entry}
    (haccepts : target.accepts (slashed entry.below) = true) (progress : Progress) :
    (targetVisitor observer mode target).visit entry progress =
      ((progress.take observer mode entry.path (entry.kind = .directory)).1,
        !((progress.take observer mode entry.path (entry.kind = .directory)).2 &&
          decide (entry.kind = .directory))) := by
  simp [targetVisitor, haccepts]

theorem visit_target_of_not_accepts {observer : Observer} {mode : Mode} {target : Glob}
    {entry : Entry} (haccepts : target.accepts (slashed entry.below) = false)
    (progress : Progress) :
    (targetVisitor observer mode target).visit entry progress = (progress, true) := by
  simp [targetVisitor, haccepts]

namespace Takes

variable {disk : Disk} {mode : Mode} {walks : Path → Prop} {there : Path → Progress → Prop}
  {keeps : List Path → Progress → Prop} (h : Takes disk mode walks there keeps)

include h

/-- A target with any depth is followed along all that is below a directory. -/
theorem follows (target : Glob) (found : List Path) :
    (targetVisitor .idle mode target).Follows disk walks there fun passed =>
      keeps (found ++ (passed.filter fun entry =>
        target.accepts (slashed entry.below)).map (·.path)) where
  normal := h.normal
  inner := h.inner
  pruned := h.pruned
  prunes := by
    rintro path name entry progress ⟨hwalks, hlisted, hpath⟩
    cases haccepts : target.accepts (slashed entry.below) with
    | true =>
        rw [visit_target_of_accepts haccepts, hpath]
        have hsteps := (h.normal hwalks).folded.steps_child name.bytes
        exact (progress.take_prunedWithin hsteps mode _).pruned
    | false =>
        rw [visit_target_of_not_accepts haccepts]
        exact .refl _ _
  visit := by
    rintro passed path name entry progress ⟨hwalks, hlisted, hpath⟩ hthere hkeeps
    simp only [List.filter_append, List.map_append]
    cases haccepts : target.accepts (slashed entry.below) with
    | true =>
        rw [visit_target_of_accepts haccepts, ← List.append_assoc]
        simp only [List.filter_cons, haccepts, if_true, List.filter_nil, List.map_cons,
          List.map_nil, hpath] at hthere ⊢
        exact h.take hwalks hlisted hthere hkeeps
    | false =>
        rw [visit_target_of_not_accepts haccepts]
        simpa [haccepts] using hkeeps
  skip := by
    rintro passed path name entry progress ⟨hwalks, hlisted, hpath⟩ hhides hkeeps
    simp only [List.filter_append, List.map_append]
    cases haccepts : target.accepts (slashed entry.below) with
    | true =>
        rw [← List.append_assoc]
        simp only [List.filter_cons, haccepts, if_true, List.filter_nil, List.map_cons,
          List.map_nil, hpath]
        exact h.skip hwalks hlisted hhides hkeeps
    | false => simpa [haccepts] using hkeeps
  leaves := by
    rintro path name entry progress ⟨hwalks, hlisted, hpath⟩ hkind hleft
    cases haccepts : target.accepts (slashed entry.below) with
    | true =>
        rw [visit_target_of_accepts haccepts] at hleft ⊢
        simp only [hkind, decide_true, Bool.and_true, Bool.not_eq_false', hpath] at hleft ⊢
        exact Progress.hides_of_gone (h.normal hwalks) hleft
    | false =>
        rw [visit_target_of_not_accepts haccepts] at hleft
        cases hleft
  listed := h.listed
  stays := by
    rintro path name entry other progress ⟨hwalks, hlisted, hpath⟩ hthere hunder
    cases haccepts : target.accepts (slashed entry.below) with
    | true =>
        rw [visit_target_of_accepts haccepts] at hunder ⊢
        simp only [hpath] at hunder ⊢
        refine h.stays hwalks hlisted hthere fun hcontains => ?_
        obtain ⟨hkind, henters⟩ := hunder hcontains
        exact ⟨hkind, by simpa [hkind] using henters⟩
    | false =>
        rw [visit_target_of_not_accepts haccepts]
        exact hthere
  fail := id
  fail_disk := rfl
  fail_there := id

/-- An entry that is there is taken if the target accepts it, and the other entries stay there. -/
theorem takeEntry (target : Glob) {directory : Path} (hwalks : walks directory)
    {entry : Name × Kind} (hlisted : entry ∈ disk.entries directory) {found : List Path}
    {progress : Progress} (hthere : there (directory.child entry.1.bytes) progress)
    (hkeeps : keeps found progress) :
    ∃ later, (if target.accepts entry.1.text then
          (progress.take .idle mode (directory.child entry.1.bytes) (entry.2 = .directory)).1
        else progress) = later ∧
      keeps (found ++ target.pick directory [entry]) later ∧ Pruned progress.disk later.disk ∧
      ∀ key : Name, entry.1 ≠ key → there (directory.child key.bytes) progress →
        there (directory.child key.bytes) later := by
  have hfolded := (h.normal hwalks).folded
  cases haccepts : target.accepts entry.1.text with
  | true =>
      have hpick : target.pick directory [entry] = [directory.child entry.1.bytes] := by
        simp [Glob.pick, haccepts]
      rw [if_pos rfl, hpick]
      refine ⟨_, rfl, h.take hwalks hlisted hthere hkeeps, ?_, fun key hne hkey => ?_⟩
      · exact (progress.take_prunedWithin (hfolded.steps_child _) mode _).pruned
      · refine h.stays hwalks hlisted hkey fun hcontains => ?_
        exact absurd hcontains (not_contains_child hfolded hne)
  | false =>
      have hpick : target.pick directory [entry] = [] := by simp [Glob.pick, haccepts]
      rw [if_neg (by simp), hpick, List.append_nil]
      exact ⟨_, rfl, hkeeps, .refl _ _, fun _ _ hkey => hkey⟩

/-- An entry that is not shown any more is passed over. -/
theorem skipEntry (target : Glob) {directory : Path} (hwalks : walks directory)
    {entry : Name × Kind} (hlisted : entry ∈ disk.entries directory) {found : List Path}
    {progress : Progress} (hhides : progress.disk.Hides directory entry.1)
    (hkeeps : keeps found progress) :
    keeps (found ++ target.pick directory [entry]) progress := by
  cases haccepts : target.accepts entry.1.text with
  | true =>
      have hpick : target.pick directory [entry] = [directory.child entry.1.bytes] := by
        simp [Glob.pick, haccepts]
      rw [hpick]
      exact h.skip hwalks hlisted hhides hkeeps
  | false => simpa [Glob.pick, haccepts] using hkeeps

/-- A target without depth is followed along a listing of which some is shown. -/
theorem takeShown (target : Glob) {directory : Path} (hwalks : walks directory)
    {shown listing : Listing} (hshown : shown.Sublist listing)
    (hlisting : ∀ entry ∈ listing, entry ∈ disk.entries directory)
    (hnames : listing.Pairwise fun a b => a.1 ≠ b.1) {found : List Path} {progress : Progress}
    (hthere : ∀ entry ∈ shown, there (directory.child entry.1.bytes) progress)
    (hhidden : ∀ entry ∈ listing, entry ∉ shown → progress.disk.Hides directory entry.1)
    (hkeeps : keeps found progress) :
    keeps (found ++ target.pick directory listing)
      (shown.foldl (fun progress entry =>
        if target.accepts entry.1.text then
          (progress.take .idle mode (directory.child entry.1.bytes) (entry.2 = .directory)).1
        else progress) progress) := by
  induction hshown generalizing found progress with
  | slnil => simpa [Glob.pick] using hkeeps
  | @cons shown listing entry hshown ih =>
      obtain ⟨hne, hnames⟩ := List.pairwise_cons.1 hnames
      have hgone : entry ∉ shown := fun hmem => hne _ (hshown.subset hmem) rfl
      have hskipped := h.skipEntry target hwalks (hlisting entry (by simp))
        (hhidden entry (by simp) hgone) hkeeps
      rw [Glob.pick_cons, ← List.append_assoc]
      exact ih (fun other hother => hlisting other (by simp [hother])) hnames hthere
        (fun other hother => hhidden other (by simp [hother])) hskipped
  | @cons_cons shown listing entry hshown ih =>
      obtain ⟨hne, hnames⟩ := List.pairwise_cons.1 hnames
      obtain ⟨later, hlater, htaken, hpruned, hbeside⟩ := h.takeEntry target hwalks
        (hlisting entry (by simp)) (hthere entry (by simp)) hkeeps
      rw [Glob.pick_cons, ← List.append_assoc, List.foldl_cons, hlater]
      refine ih (fun other hother => hlisting other (by simp [hother])) hnames ?_ ?_ htaken
      · intro other hother
        exact hbeside other.1 (hne other (hshown.subset hother)) (hthere other (by simp [hother]))
      · intro other hother hgone
        refine (hhidden other (by simp [hother]) fun hmem => ?_).of_prunedWithin hpruned
        rcases List.mem_cons.1 hmem with rfl | hmem
        · exact hne _ hother rfl
        · exact hgone hmem

/-- A target is followed through a directory. -/
theorem takeTargets {target : Glob} {directory : Path} (hwalks : walks directory)
    {found : List Path} {progress : Progress} (hkeeps : keeps found progress) :
    keeps (found ++ disk.named target directory)
      (takeTargets .idle mode target directory progress) := by
  have hpruned := h.pruned hkeeps
  unfold Disk.named Sweep.takeTargets
  split
  · have hstart : keeps (found ++ (([] : List Entry).filter fun entry =>
        target.accepts (slashed entry.below)).map (·.path)) progress := by simpa using hkeeps
    exact (h.follows target found).run hwalks hstart
  · refine h.takeShown target hwalks (hpruned.entries_sublist directory) (fun _ hentry => hentry)
      (pairwise_ne_entries disk directory) ?_ ?_ hkeeps
    · exact fun entry hentry => h.listed hwalks hentry hkeeps
    · exact fun entry hentry hgone => hpruned.hides_of_not_mem hentry hgone

end Takes

end Sweep
