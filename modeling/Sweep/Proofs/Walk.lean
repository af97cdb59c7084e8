import Sweep.Proofs.Disk.Lookup
import Sweep.Search
/-!
# What a walk visits

`Under` says what lies below a path as listings show it. A walk visits nothing else, even where the
visits remove things from the disk on the way; and a walk that leaves the disk alone and goes into
everything visits all of it.

Two visitors are *in step* by a count if they do the same as long as the first one does not raise
the count. Then so do their walks. Visits that do alike from states that are alike make walks alike.

No path is longer than `pathLimit`, so a walk is one to that depth, which can be computed.

## Main results

* `Visitor.run_keeps_under` — what a walk visits was below its start.
* `Visitor.run_marks` — a walk through a disk that stays as it is misses nothing.
* `Visitor.InStep.run` — walks of visitors in step.
* `Visitor.run_alike` — walks from states that are alike.
* `Visitor.run_eq_runToDepth` — a walk by its depth.
* `mem_directoriesBelow_iff` — the directories below a directory.
-/

namespace Sweep

open Disk

/-- What lies below a path, as the listings of a disk show it. The names lead there from the start
of a walk. -/
inductive Disk.Under (disk : Disk) : Path → Place → Entry → Prop where
  /-- What the directory at the path holds. -/
  | entry {path : Path} {below : Place} {name : Name} {kind : Kind}
      (hlisted : (name, kind) ∈ disk.entries path) :
      Under disk path below ⟨path.child name.bytes, below ++ [name], kind⟩
  /-- What lies below a directory that it holds. -/
  | inner {path : Path} {below : Place} {name : Name} {entry : Entry}
      (hlisted : (name, Kind.directory) ∈ disk.entries path)
      (next : Under disk (path.child name.bytes) (below ++ [name]) entry) :
      Under disk path below entry

/-- What lies below a path on a pruned disk lay there before. -/
theorem Disk.Under.of_prunedWithin {p : Place → Prop} {old new : Disk} {path : Path} {below : Place}
    {entry : Entry} (hpruned : PrunedWithin p old new) (h : new.Under path below entry) :
    old.Under path below entry := by
  induction h with
  | entry hlisted => exact .entry (hpruned.mem_entries hlisted)
  | inner hlisted _ ih => exact .inner (hpruned.mem_entries hlisted) ih

theorem Disk.entries_of_list {disk : Disk} {path : Path} {listing : Listing}
    (h : disk.list path = .ok listing) : disk.entries path = listing := by
  simp [Disk.entries, h, Except.toOption]

/-- Only what can be listed shows something below it. -/
theorem Disk.Under.listed {disk : Disk} {path : Path} {below : Place} {entry : Entry}
    (h : disk.Under path below entry) : ∃ listing, disk.list path = .ok listing := by
  cases hlist : disk.list path with
  | ok listing => exact ⟨listing, rfl⟩
  | error fault =>
      have hnone : disk.entries path = [] := by simp [Disk.entries, hlist, Except.toOption]
      cases h with
      | entry hlisted => simp [hnone] at hlisted
      | inner hlisted _ => simp [hnone] at hlisted

/-- What can be listed is a directory or a link to one. -/
theorem Disk.kinds_of_list {disk : Disk} {path : Path} {listing : Listing}
    (h : disk.list path = .ok listing) :
    disk.ownKind path = .ok .directory ∨
      disk.ownKind path = .ok .link ∧ disk.kind path = .ok .directory := by
  obtain ⟨place, rights, entries, hplace, hdir, -, -⟩ := list_eq_ok_iff.1 h
  have hkind : disk.kind path = .ok .directory := by
    rw [Disk.kind, node_eq_ok_iff.2 ⟨place, hplace, hdir⟩]
    rfl
  obtain ⟨here, left, hstart, hleads⟩ := resolve_eq_ok_iff.1 hplace
  obtain ⟨remaining, seen, hseen, hwhich⟩ := hleads.look_of_reach
  have hlook : disk.resolve .user .look path = .ok seen :=
    resolve_eq_ok_iff.2 ⟨here, remaining, hstart, hseen⟩
  rcases hwhich with rfl | ⟨target, hlink⟩
  · refine Or.inl ?_
    rw [Disk.ownKind, node_eq_ok_iff.2 ⟨seen, hlook, hdir⟩]
    rfl
  · refine Or.inr ⟨?_, hkind⟩
    rw [Disk.ownKind, node_eq_ok_iff.2 ⟨seen, hlook, hlink⟩]
    rfl

/-- A path that cannot be listed. -/
def Disk.Unlisted (disk : Disk) (path : Path) : Prop :=
  ∀ listing, disk.list path ≠ .ok listing

theorem Disk.unlisted_of_list_error {disk : Disk} {path : Path} {fault : Fault}
    (h : disk.list path = .error fault) : disk.Unlisted path := by
  intro listing hlist
  rw [h] at hlist
  cases hlist

theorem Disk.unlisted_of_ownKind_error {disk : Disk} {path : Path} {fault : Fault}
    (h : disk.ownKind path = .error fault) : disk.Unlisted path := by
  intro listing hlist
  rcases kinds_of_list hlist with hkind | ⟨hkind, -⟩ <;> simp [h] at hkind

theorem Disk.unlisted_of_kind_error {disk : Disk} {path : Path} {fault : Fault}
    (h : disk.kind path = .error fault) : disk.Unlisted path := by
  intro listing hlist
  obtain ⟨place, rights, entries, hplace, hdir, -, -⟩ := list_eq_ok_iff.1 hlist
  rw [Disk.kind, node_eq_ok_iff.2 ⟨place, hplace, hdir⟩] at h
  cases h

namespace Visitor

variable {σ : Type}

/-! ## Nothing else is visited -/

section Keeps

variable {visitor : Visitor σ} (disk : Disk) (keeps : σ → Prop) (p : Entry → Prop)
  (hentries : ∀ state path, keeps state →
    ∀ entry ∈ (visitor.disk state).entries path, entry ∈ disk.entries path)
  (hvisit : ∀ entry state, p entry → keeps state → keeps (visitor.visit entry state).1)
  (hfail : ∀ path fault earlier state, keeps earlier → (visitor.disk earlier).Unlisted path →
    keeps state → keeps (visitor.fail path fault state))

include hentries hvisit hfail

/-- What is kept by visits of what lies below a path, the visits of its listing keep. -/
theorem visitListing_keeps_under (path : Path) (below : Place) (listing : Listing) (state : σ)
    (hlisting : ∀ entry ∈ listing, entry ∈ disk.entries path)
    (hunder : ∀ entry, disk.Under path below entry → p entry) (h : keeps state) :
    keeps (visitor.visitListing path below listing state) := by
  fun_induction visitor.visitListing path below listing state with
  | case1 => exact h
  | case2 path below state name rest entry fault hlist visited enter hvisited ih =>
      have hheld : (name, Kind.directory) ∈ disk.entries path := hlisting _ (by simp)
      have hkept := hvisit entry state (hunder _ (.entry hheld)) h
      rw [hvisited] at hkept
      refine ih (fun other hother => hlisting other (by simp [hother])) hunder ?_
      split
      · exact hfail _ _ state _ h (unlisted_of_list_error hlist) hkept
      · exact hkept
  | case3 path below state name rest entry contents hlist visited enter hvisited ihinner ih =>
      have hheld : (name, Kind.directory) ∈ disk.entries path := hlisting _ (by simp)
      have hkept := hvisit entry state (hunder _ (.entry hheld)) h
      rw [hvisited] at hkept
      refine ih (fun other hother => hlisting other (by simp [hother])) hunder ?_
      split
      · -- the contents were read from a disk that shows nothing new
        refine ihinner (fun other hother => ?_) (fun other hother => hunder _ (.inner hheld hother))
          hkept
        rw [← entries_of_list hlist] at hother
        exact hentries state _ h other hother
      · exact hkept
  | case4 path below state name kind rest hkind ih =>
      have hheld : (name, kind) ∈ disk.entries path := hlisting _ (by simp)
      have hkept := hvisit _ state (hunder _ (.entry hheld)) h
      exact ih (fun other hother => hlisting other (by simp [hother])) hunder hkept

/-- What is kept by visits of what lies below a path, a walk from the path keeps. -/
theorem run_keeps_under (path : Path) (withStart : Bool) (state : σ)
    (hunder : ∀ entry, disk.Under path [] entry → p entry)
    (hstart : withStart = true → ∀ kind, (visitor.disk state).ownKind path = .ok kind →
      p ⟨path, [], kind⟩)
    (h : keeps state) : keeps (visitor.run path withStart state) := by
  have hvisited : ∀ kind, (visitor.disk state).ownKind path = .ok kind →
      keeps (if withStart then (visitor.visit ⟨path, [], kind⟩ state).1 else state) := by
    intro kind hkind
    split
    · rename_i hwith
      exact hvisit _ _ (hstart hwith kind hkind) h
    · exact h
  have hdirectory : ∀ kind, (visitor.disk state).ownKind path = .ok kind →
      keeps (visitor.visitDirectory ⟨path, [], kind⟩ withStart state) := by
    intro kind hkind
    unfold visitDirectory
    simp only
    split
    · rename_i fault hlist
      exact hfail _ _ state _ h (unlisted_of_list_error hlist) (hvisited kind hkind)
    · rename_i listing hlist
      refine visitListing_keeps_under disk keeps p hentries hvisit hfail _ _ _ _ (fun entry hentry => ?_) hunder
        (hvisited kind hkind)
      rw [← entries_of_list hlist] at hentry
      exact hentries state _ h entry hentry
  unfold run
  simp only
  split
  · rename_i fault hkind
    exact hfail _ _ state _ h (unlisted_of_ownKind_error hkind) h
  · rename_i hkind
    exact hdirectory _ hkind
  · rename_i hkind
    exact hvisited _ hkind
  · rename_i hkind
    split
    · rename_i fault hfault
      exact hfail _ _ state _ h (unlisted_of_kind_error hfault) h
    · exact hdirectory _ hkind
    · exact hvisited _ hkind

end Keeps

/-! ## Nothing is missed -/

/-- In such states a visitor leaves the disk as it is and goes into everything. -/
structure Still (visitor : Visitor σ) (disk : Disk) (still : σ → Prop) : Prop where
  /-- The disk is this one. -/
  disk : ∀ state, still state → visitor.disk state = disk
  /-- So it is after a visit. -/
  visit : ∀ entry state, still state → still (visitor.visit entry state).1
  /-- So it is after hearing of a directory that cannot be listed. -/
  fail : ∀ path fault state, still state → still (visitor.fail path fault state)
  /-- Whatever can be entered is entered. -/
  enters : ∀ entry state, (visitor.visit entry state).2 = true

section Marks

variable {visitor : Visitor σ} {disk : Disk} {still : σ → Prop} (marks : Entry → σ → Prop)
  (hstill : visitor.Still disk still)
  (hvisit : ∀ entry state, marks entry (visitor.visit entry state).1)
  (hstays : ∀ entry other state, marks entry state → marks entry (visitor.visit other state).1)
  (hfail : ∀ entry path fault state, marks entry state →
    marks entry (visitor.fail path fault state))

include hstill hvisit hstays hfail

/-- The visits of a listing leave their mark for each entry and for all below it. -/
theorem visitListing_marks (path : Path) (below : Place) (listing : Listing) (state : σ)
    (h : still state) (entry : Entry) :
    ∀ name kind, (name, kind) ∈ listing →
      (entry = ⟨path.child name.bytes, below ++ [name], kind⟩ ∨
        kind = .directory ∧ disk.Under (path.child name.bytes) (below ++ [name]) entry) →
      marks entry (visitor.visitListing path below listing state) := by
  have hlater : ∀ path below listing state, marks entry state →
      marks entry (visitor.visitListing path below listing state) :=
    visitListing_keeps (marks entry) (hstays entry) (hfail entry)
  fun_induction visitor.visitListing path below listing state with
  | case1 =>
      intro name kind hmem
      simp at hmem
  | case2 path below state first rest head fault hlist visited enter hvisited ih =>
      intro name kind hmem hentry
      have hkept := hstill.visit head state h
      have hmarked := hvisit head state
      rw [hvisited] at hkept hmarked
      rw [hstill.disk state h] at hlist
      rcases List.mem_cons.1 hmem with hfirst | hrest
      · cases hfirst
        refine hlater _ _ _ _ ?_
        rcases hentry with rfl | ⟨-, hbelow⟩
        · split
          · exact hfail _ _ _ _ hmarked
          · exact hmarked
        · -- what cannot be listed shows nothing below it
          obtain ⟨contents, hcontents⟩ := hbelow.listed
          rw [hlist] at hcontents
          cases hcontents
      · refine ih ?_ name kind hrest hentry
        split
        · exact hstill.fail _ _ _ hkept
        · exact hkept
  | case3 path below state first rest head contents hlist visited enter hvisited ihinner ih =>
      intro name kind hmem hentry
      have hkept := hstill.visit head state h
      have hmarked := hvisit head state
      have henter := hstill.enters head state
      rw [hvisited] at hkept hmarked henter
      simp only at henter
      rw [hstill.disk state h] at hlist
      subst henter
      simp only [dite_eq_ite, if_true] at ih ⊢
      rcases List.mem_cons.1 hmem with hfirst | hrest
      · cases hfirst
        refine hlater _ _ _ _ ?_
        rcases hentry with rfl | ⟨-, hbelow⟩
        · exact hlater _ _ _ _ hmarked
        · have hcontents := entries_of_list hlist
          cases hbelow with
          | entry hlisted => exact ihinner hkept _ _ (hcontents ▸ hlisted) (Or.inl rfl)
          | inner hlisted hnext =>
              exact ihinner hkept _ _ (hcontents ▸ hlisted) (Or.inr ⟨rfl, hnext⟩)
      · refine ih ?_ name kind hrest hentry
        exact visitListing_keeps still hstill.visit hstill.fail _ _ _ _ hkept
  | case4 path below state first own rest hown ih =>
      intro name kind hmem hentry
      rcases List.mem_cons.1 hmem with hfirst | hrest
      · cases hfirst
        rcases hentry with rfl | ⟨hdirectory, -⟩
        · exact hlater _ _ _ _ (hvisit _ _)
        · exact absurd hdirectory hown
      · exact ih (hstill.visit _ _ h) name kind hrest hentry

/-- A walk leaves its mark for all that lies below its start. -/
theorem run_marks (path : Path) (withStart : Bool) (state : σ) (h : still state) {entry : Entry}
    (hentry : disk.Under path [] entry) : marks entry (visitor.run path withStart state) := by
  obtain ⟨listing, hlist⟩ := hentry.listed
  have hdirectory : ∀ kind,
      marks entry (visitor.visitDirectory ⟨path, [], kind⟩ withStart state) := by
    intro kind
    have hkept : still
        (if withStart then (visitor.visit ⟨path, [], kind⟩ state).1 else state) := by
      split
      · exact hstill.visit _ _ h
      · exact h
    have hmark := visitListing_marks marks hstill hvisit hstays hfail path [] listing _ hkept entry
    unfold visitDirectory
    simp only [hstill.disk state h, hlist]
    rw [← entries_of_list hlist] at hmark ⊢
    cases hentry with
    | entry hheld => exact hmark _ _ hheld (Or.inl rfl)
    | inner hheld hnext => exact hmark _ _ hheld (Or.inr ⟨rfl, hnext⟩)
  unfold run
  rcases kinds_of_list hlist with hkind | ⟨hlink, hkind⟩
  · simp only [hstill.disk state h, hkind]
    exact hdirectory _
  · simp only [hstill.disk state h, hlink, hkind]
    exact hdirectory _

end Marks

/-! ## Visitors in step -/

theorem visitListing_unlisted (visitor : Visitor σ) {path : Path} {below : Place} {name : Name}
    {rest : Listing} {state : σ} {fault : Fault}
    (hlist : (visitor.disk state).list (path.child name.bytes) = .error fault) :
    visitor.visitListing path below ((name, .directory) :: rest) state =
      let (state, enter) :=
        visitor.visit ⟨path.child name.bytes, below ++ [name], .directory⟩ state
      visitor.visitListing path below rest
        (if enter then visitor.fail (path.child name.bytes) fault state else state) := by
  rw [visitListing]
  split
  · rename_i other hother
    rw [hlist] at hother
    cases hother
    rfl
  · rename_i contents hother
    rw [hlist] at hother
    cases hother

theorem visitListing_listed (visitor : Visitor σ) {path : Path} {below : Place} {name : Name}
    {rest contents : Listing} {state : σ}
    (hlist : (visitor.disk state).list (path.child name.bytes) = .ok contents) :
    visitor.visitListing path below ((name, .directory) :: rest) state =
      let (state, enter) :=
        visitor.visit ⟨path.child name.bytes, below ++ [name], .directory⟩ state
      visitor.visitListing path below rest
        (if enter then
          visitor.visitListing (path.child name.bytes) (below ++ [name]) contents state
        else state) := by
  rw [visitListing]
  split
  · rename_i fault hother
    rw [hlist] at hother
    cases hother
  · rename_i other hother
    rw [hlist] at hother
    cases hother
    rfl

/-- Two visitors do the same as long as the first one does not raise a count. -/
structure InStep (count : σ → Nat) (first second : Visitor σ) : Prop where
  /-- Both see the same disk. -/
  disk : second.disk = first.disk
  /-- Both take the same notice of what cannot be walked. -/
  fail : second.fail = first.fail
  /-- That does not count. -/
  count_fail : ∀ path fault state, count (first.fail path fault state) = count state
  /-- The count is never lowered. -/
  rises : ∀ entry state, count state ≤ count (first.visit entry state).1
  /-- What is not counted is done alike. -/
  visit : ∀ entry state, count (first.visit entry state).1 = count state →
    second.visit entry state = first.visit entry state

namespace InStep

variable {count : σ → Nat} {first second : Visitor σ}

theorem visitListing (h : InStep count first second) (path : Path) (below : Place)
    (listing : Listing) (state : σ) :
    count state ≤ count (first.visitListing path below listing state) ∧
      (count (first.visitListing path below listing state) = count state →
        second.visitListing path below listing state =
          first.visitListing path below listing state) := by
  fun_induction first.visitListing path below listing state with
  | case1 => exact ⟨Nat.le_refl _, fun _ => by rw [Visitor.visitListing]⟩
  | case2 path below state name rest entry fault hlist visited enter hvisited ih =>
      have hrises := h.rises entry state
      have hvisit := h.visit entry state
      rw [hvisited] at hrises hvisit
      simp only at hrises hvisit
      simp only [dite_eq_ite] at ih ⊢
      have hcount : count (if enter = true then first.fail entry.path fault visited else visited) =
          count visited := by
        split
        · exact h.count_fail _ _ _
        · rfl
      rw [hcount] at ih
      refine ⟨by omega, fun hsame => ?_⟩
      have heq := hvisit (by omega)
      rw [visitListing_unlisted second (by rw [h.disk]; exact hlist), heq, h.fail]
      exact ih.2 (by omega)
  | case3 path below state name rest entry contents hlist visited enter hvisited ihinner ih =>
      have hrises := h.rises entry state
      have hvisit := h.visit entry state
      rw [hvisited] at hrises hvisit
      simp only at hrises hvisit
      cases enter with
      | false =>
          simp only [dite_eq_ite, Bool.false_eq_true, if_false] at ih ⊢
          refine ⟨by omega, fun hsame => ?_⟩
          have heq := hvisit (by omega)
          rw [visitListing_listed second (by rw [h.disk]; exact hlist), heq]
          exact ih.2 (by omega)
      | true =>
          simp only [dite_eq_ite, if_true] at ih ⊢
          refine ⟨by omega, fun hsame => ?_⟩
          have heq := hvisit (by omega)
          rw [visitListing_listed second (by rw [h.disk]; exact hlist), heq]
          simp only [if_true]
          rw [ihinner.2 (by omega)]
          exact ih.2 (by omega)
  | case4 path below state name kind rest hkind ih =>
      have hrises := h.rises ⟨path.child name.bytes, below ++ [name], kind⟩ state
      refine ⟨by omega, fun hsame => ?_⟩
      have heq := h.visit ⟨path.child name.bytes, below ++ [name], kind⟩ state (by omega)
      rw [Visitor.visitListing]
      · rw [heq]
        exact ih.2 (by omega)
      · exact hkind

/-- Walks of visitors in step do the same as long as the first one does not raise the count. -/
theorem run (h : InStep count first second) (path : Path) (state : σ) :
    count state ≤ count (first.run path false state) ∧
      (count (first.run path false state) = count state →
        second.run path false state = first.run path false state) := by
  have hfail : ∀ fault, count state ≤ count (first.fail path fault state) := by
    intro fault
    exact Nat.le_of_eq (h.count_fail path fault state).symm
  have hdirectory : ∀ kind, count state ≤
        count (first.visitDirectory ⟨path, [], kind⟩ false state) ∧
      (count (first.visitDirectory ⟨path, [], kind⟩ false state) = count state →
        second.visitDirectory ⟨path, [], kind⟩ false state =
          first.visitDirectory ⟨path, [], kind⟩ false state) := by
    intro kind
    unfold visitDirectory
    simp only [h.disk, h.fail, Bool.false_eq_true, if_false]
    split
    · exact ⟨hfail _, fun _ => rfl⟩
    · exact h.visitListing _ _ _ _
  unfold Visitor.run
  simp only [h.disk, h.fail, Bool.false_eq_true, if_false]
  split
  · exact ⟨hfail _, fun _ => rfl⟩
  · exact hdirectory _
  · exact ⟨Nat.le_refl _, fun _ => rfl⟩
  · split
    · exact ⟨hfail _, fun _ => rfl⟩
    · exact hdirectory _
    · exact ⟨Nat.le_refl _, fun _ => rfl⟩

end InStep

/-! ## Walks that are alike -/

section Alike

variable {σ τ : Type} {first : Visitor σ} {second : Visitor τ} (alike : σ → τ → Prop)
  (hdisk : ∀ s t, alike s t → second.disk t = first.disk s)
  (hvisit : ∀ entry s t, alike s t → alike (first.visit entry s).1 (second.visit entry t).1 ∧
    (second.visit entry t).2 = (first.visit entry s).2)
  (hfail : ∀ path fault s t, alike s t → alike (first.fail path fault s) (second.fail path fault t))

include hdisk hvisit hfail

/-- Visits that do alike from states that are alike make the visits of a listing alike. -/
theorem visitListing_alike (path : Path) (below : Place) (listing : Listing) (s : σ) (t : τ)
    (h : alike s t) :
    alike (first.visitListing path below listing s) (second.visitListing path below listing t) := by
  fun_induction first.visitListing path below listing s generalizing t with
  | case1 => rwa [visitListing]
  | case2 path below s name rest entry fault hlist visited enter hvisited ih =>
      obtain ⟨hkept, henter⟩ := hvisit entry s t h
      rw [hvisited] at hkept henter
      rw [visitListing_unlisted second ((hdisk s t h).symm ▸ hlist)]
      simp only [dite_eq_ite] at ih ⊢
      refine ih _ ?_
      rw [henter]
      split
      · exact hfail _ _ _ _ hkept
      · exact hkept
  | case3 path below s name rest entry contents hlist visited enter hvisited ihinner ih =>
      obtain ⟨hkept, henter⟩ := hvisit entry s t h
      rw [hvisited] at hkept henter
      rw [visitListing_listed second ((hdisk s t h).symm ▸ hlist)]
      simp only [dite_eq_ite] at ih ⊢
      refine ih _ ?_
      rw [henter]
      split
      · exact ihinner _ hkept
      · exact hkept
  | case4 path below s name kind rest hkind ih =>
      rw [visitListing]
      · exact ih _ (hvisit _ s t h).1
      · exact hkind

/-- Visits that do alike make walks alike. -/
theorem run_alike (path : Path) (withStart : Bool) (s : σ) (t : τ) (h : alike s t) :
    alike (first.run path withStart s) (second.run path withStart t) := by
  have hstart : ∀ kind, alike (if withStart then (first.visit ⟨path, [], kind⟩ s).1 else s)
      (if withStart then (second.visit ⟨path, [], kind⟩ t).1 else t) := by
    intro kind
    split
    · exact (hvisit _ s t h).1
    · exact h
  have hdirectory : ∀ kind, alike (first.visitDirectory ⟨path, [], kind⟩ withStart s)
      (second.visitDirectory ⟨path, [], kind⟩ withStart t) := by
    intro kind
    simp only [visitDirectory, hdisk s t h]
    split
    · exact hfail _ _ _ _ (hstart kind)
    · exact visitListing_alike alike hdisk hvisit hfail _ _ _ _ _ (hstart kind)
  simp only [run, hdisk s t h]
  split
  · exact hfail _ _ _ _ h
  · exact hdirectory _
  · exact hstart _
  · split
    · exact hfail _ _ _ _ h
    · exact hdirectory _
    · exact hstart _

end Alike

/-! ## Walks to a depth -/

/-- Visits the entries of a listing, and what is below them down to a depth. -/
def visitToDepth (visitor : Visitor σ) : Nat → Path → Place → Listing → σ → σ
  | 0, _, _, _, state => state
  | depth + 1, path, below, listing, state =>
    listing.foldl (fun state entry =>
      let visited := visitor.visit ⟨path.child entry.1.bytes, below ++ [entry.1], entry.2⟩ state
      if entry.2 = .directory && visited.2 then
        match (visitor.disk state).list (path.child entry.1.bytes) with
        | .error fault => visitor.fail (path.child entry.1.bytes) fault visited.1
        | .ok contents =>
          visitor.visitToDepth depth (path.child entry.1.bytes) (below ++ [entry.1]) contents
            visited.1
      else visited.1) state

/-- The bound on the length of paths bounds the depth of a walk. -/
theorem visitListing_eq_visitToDepth (visitor : Visitor σ) (path : Path) (below : Place)
    (listing : Listing) (state : σ) : ∀ depth, pathLimit - path.length < depth →
      visitor.visitListing path below listing state =
        visitor.visitToDepth depth path below listing state := by
  fun_induction visitor.visitListing path below listing state with
  | case1 =>
      intro depth _
      cases depth <;> rfl
  | case2 path below state name rest entry fault hlist visited enter hvisited ih =>
      intro depth hdepth
      obtain _ | depth := depth
      · omega
      have hrest := ih _ hdepth
      simp only [dite_eq_ite] at hrest ⊢
      rw [hrest, visitToDepth, visitToDepth, List.foldl_cons, hvisited, hlist]
      cases enter <;> rfl
  | case3 path below state name rest entry contents hlist visited enter hvisited ihinner ih =>
      have hshorter := measure_child_lt hlist
      intro depth hdepth
      obtain _ | depth := depth
      · omega
      have hrest := ih _ hdepth
      have hinner := ihinner depth (by omega)
      simp only [dite_eq_ite] at hrest ⊢
      rw [hrest, visitToDepth, visitToDepth, List.foldl_cons, hvisited, hlist]
      cases enter with
      | false => rfl
      | true =>
          simp only [if_true, hinner]
          rfl
  | case4 path below state name kind rest hkind ih =>
      intro depth hdepth
      obtain _ | depth := depth
      · omega
      rw [ih _ hdepth, visitToDepth, visitToDepth, List.foldl_cons]
      have hplain : kind ≠ .directory := hkind
      simp [hplain]

/-- A walk is computed by going as deep as any path can lead. -/
theorem visitListing_eq (visitor : Visitor σ) (path : Path) (below : Place) (listing : Listing)
    (state : σ) : visitor.visitListing path below listing state =
      visitor.visitToDepth (pathLimit + 1) path below listing state :=
  visitListing_eq_visitToDepth visitor path below listing state _ (by omega)

/-- Visits the start of a walk and what is below it down to a depth. -/
def visitDirectoryToDepth (visitor : Visitor σ) (depth : Nat) (start : Entry) (withStart : Bool)
    (state : σ) : σ :=
  let listing := (visitor.disk state).list start.path
  let state := if withStart then (visitor.visit start state).1 else state
  match listing with
  | .error fault => visitor.fail start.path fault state
  | .ok listing => visitor.visitToDepth depth start.path [] listing state

/-- Walks from a path down to a depth. -/
def runToDepth (visitor : Visitor σ) (depth : Nat) (path : Path) (withStart : Bool) (state : σ) : σ :=
  let disk := visitor.disk state
  match disk.ownKind path with
  | .error fault => visitor.fail path fault state
  | .ok .directory => visitor.visitDirectoryToDepth depth ⟨path, [], .directory⟩ withStart state
  | .ok .file => if withStart then (visitor.visit ⟨path, [], .file⟩ state).1 else state
  | .ok .link =>
    match disk.kind path with
    | .error fault => visitor.fail path fault state
    | .ok .directory => visitor.visitDirectoryToDepth depth ⟨path, [], .link⟩ withStart state
    | .ok _ => if withStart then (visitor.visit ⟨path, [], .link⟩ state).1 else state

theorem visitDirectory_eq (visitor : Visitor σ) (start : Entry) (withStart : Bool) (state : σ) :
    visitor.visitDirectory start withStart state =
      visitor.visitDirectoryToDepth (pathLimit + 1) start withStart state := by
  unfold visitDirectory
  simp only [visitListing_eq]
  rfl

/-- A walk is the walk as deep as any path can lead. -/
theorem run_eq_runToDepth (visitor : Visitor σ) (path : Path) (withStart : Bool) (state : σ) :
    visitor.run path withStart state = visitor.runToDepth (pathLimit + 1) path withStart state := by
  unfold run
  simp only [visitDirectory_eq]
  rfl

end Visitor

/-! ## Directories below a directory -/

/-- The directories below a directory are those that lie below it. -/
theorem mem_directoriesBelow_iff {disk : Disk} {path directory : Path} :
    directory ∈ disk.directoriesBelow path ↔
      ∃ below, disk.Under path [] ⟨directory, below, .directory⟩ := by
  have hcollects : ∀ entry : Entry, ∀ paths : List Path, ∀ other,
      other ∈ ((directoryCollector disk).visit entry paths).1 ↔
        other ∈ paths ∨ entry.kind = .directory ∧ other = entry.path := by
    intro entry paths other
    simp only [directoryCollector]
    split <;> simp_all [or_comm]
  rw [Disk.directoriesBelow, List.mem_reverse]
  constructor
  · have hkept : ∀ other ∈ (directoryCollector disk).run path false [],
        ∃ below, disk.Under path [] ⟨other, below, .directory⟩ := by
      refine Visitor.run_keeps_under disk
        (fun paths => ∀ other ∈ paths, ∃ below, disk.Under path [] ⟨other, below, .directory⟩)
        (disk.Under path []) ?_ ?_ ?_ path false [] (fun _ h => h) (by simp) (by simp)
      · exact fun _ _ _ entry hentry => hentry
      · intro entry paths hentry hkept other hother
        rcases (hcollects entry paths other).1 hother with hbefore | ⟨hkind, rfl⟩
        · exact hkept other hbefore
        · exact ⟨entry.below, hkind ▸ hentry⟩
      · exact fun _ _ _ _ _ _ h => h
    exact hkept directory
  · rintro ⟨below, hbelow⟩
    have hstill : (directoryCollector disk).Still disk fun _ => True :=
      ⟨fun _ _ => rfl, fun _ _ _ => trivial, fun _ _ _ _ => trivial, fun _ _ => rfl⟩
    refine Visitor.run_marks (fun entry paths => entry.kind = .directory → entry.path ∈ paths)
      hstill ?_ ?_ (fun _ _ _ _ h => h) path false [] trivial hbelow rfl
    · exact fun entry paths hkind => (hcollects entry paths _).2 (Or.inr ⟨hkind, rfl⟩)
    · exact fun entry other paths h hkind => (hcollects other paths _).2 (Or.inl (h hkind))

end Sweep
