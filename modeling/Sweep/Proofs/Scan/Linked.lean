import Mathlib
import Sweep.Proofs.Scan.Collected
import Sweep.Proofs.Scan.Course
import Sweep.Proofs.Scan.Evaluated
import Sweep.Proofs.Scan.Harvest
/-!
# Scans through a link

A walk from a link to a directory lists the directory, but the link itself is not a directory and so
not one of those that a scan collects. Below it all is as it is from the directory: what the user
sees there hangs only on the place that the path leads to. This is told by *outlines*, which hold
the names that lead to what lies below a path instead of its paths.

A path longer than `pathLimit` leads nowhere, however it is spelled. So all this is about places
below which no path is as long, neither from the link nor from the directory.

## Main results

* `Disk.outline_eq` — paths that lead to the same place have the same outline.
* `found_scan_dry_of_link` — a dry scan from a link finds what one from the directory finds, but for
  what the rules name in the directory itself.
-/

namespace Sweep

open Disk

/-! ## What lies below a path, by names -/

/-- What lies below a path, as the names that lead there and the kinds. -/
def Disk.outline (disk : Disk) (path : Path) : List (Place × Kind) :=
  (disk.allBelow path).map fun entry => (entry.below, entry.kind)

/-- What lies below a path is found by the names that lead there. -/
theorem Disk.Under.path_eq {disk : Disk} {path root : Path} {below : Place} {entry : Entry}
    (hpath : path = root.descend below) (h : disk.Under path below entry) :
    entry.path = root.descend entry.below := by
  induction h with
  | entry hlisted => rw [Path.descend_concat, ← hpath]
  | inner hlisted next ih =>
      apply ih
      rw [Path.descend_concat, ← hpath]

theorem Disk.allBelow_eq_outline (disk : Disk) (path : Path) :
    disk.allBelow path =
      (disk.outline path).map fun item => ⟨path.descend item.1, item.1, item.2⟩ := by
  have hentry : ∀ entry ∈ disk.allBelow path,
      (⟨path.descend entry.below, entry.below, entry.kind⟩ : Entry) = entry := by
    intro entry hmem
    have hpath : path = path.descend [] := rfl
    rw [← (Disk.mem_allBelow_iff.1 hmem).path_eq hpath]
  rw [Disk.outline, List.map_map]
  exact (List.map_id _).symm.trans (List.map_congr_left hentry).symm

/-- What a target names in a directory, as the names that lead there. -/
def Disk.namedBelow (disk : Disk) (target : Glob) (directory : Path) : List Place :=
  if target.isRecursive then
    ((disk.outline directory).filter fun item => target.accepts (slashed item.1)).map (·.1)
  else
    ((disk.entries directory).filter fun entry => target.accepts entry.1.text).map fun entry =>
      [entry.1]

theorem Disk.map_descend_namedBelow (disk : Disk) (target : Glob) (directory : Path) :
    (disk.namedBelow target directory).map directory.descend = disk.named target directory := by
  unfold Disk.namedBelow Disk.named
  split
  · rw [Disk.allBelow_eq_outline, List.filter_map, List.map_map, List.map_map]
    rfl
  · rw [Glob.pick, List.map_map]
    rfl

/-- The directories below a path that can be listed, as the names that lead there. -/
def Disk.innerDirectories (disk : Disk) (path : Path) : List Place :=
  ((disk.outline path).filter fun item =>
    item.2 = .directory && disk.lists (path.descend item.1)).map (·.1)

/-- A scan collects its root, if that is a directory that can be listed, and those below it. -/
theorem Disk.collected_eq_inner (disk : Disk) (root : Path) :
    disk.collected root =
      (if disk.ownKind root = .ok .directory then [root] else []).filter disk.lists ++
        (disk.innerDirectories root).map root.descend := by
  rw [Disk.collected_eq, Disk.reached, List.filter_append, Disk.allBelow_eq_outline,
    Disk.innerDirectories]
  congr 1
  simp only [List.filter_map, List.map_map, List.filter_filter]
  congr 1
  apply List.filter_congr
  intro item _
  simp [Bool.and_comm]

/-! ## Paths that lead to the same place -/

theorem Path.descend_append (directory : Path) (names others : Place) :
    directory.descend (names ++ others) = (directory.descend names).descend others :=
  List.foldl_append

/-- A path that leads to a place, where no path from it to something below is too long. -/
structure Disk.Stands (disk : Disk) (path : Path) (place : Place) : Prop where
  normal : path.IsNormal
  reaches : disk.resolve .user .reach path = .ok place
  short : ∀ names, disk.at? (place ++ names) ≠ none → (path.descend names).length < pathLimit

theorem Path.IsFolded.mem_bytes_child {path : Path} (hfolded : path.IsFolded) {name : Name}
    {byte : UInt8} (h : byte ∈ (path.child name.bytes).bytes) :
    byte ∈ path.bytes ∨ byte = slash ∨ byte ∈ name.bytes := by
  rw [Path.bytes, hfolded.steps_child, List.mem_append] at h
  rw [Path.bytes, List.mem_append]
  rcases h with hfront | hjoin
  · exact Or.inl (Or.inl hfront)
  · by_cases hsteps : path.steps = []
    · rw [hsteps] at hjoin
      exact Or.inr (Or.inr hjoin)
    · rw [Path.join_append_singleton _ hsteps, List.mem_append, List.mem_append,
        List.mem_singleton] at hjoin
      rcases hjoin with (hbefore | hslash) | hname
      · exact Or.inl (Or.inr hbefore)
      · exact Or.inr (Or.inl hslash)
      · exact Or.inr (Or.inr hname)

/-- What can be followed to a directory can be followed on to an entry, if it is not too long. -/
theorem start_child_of_short {disk : Disk} {path : Path} {name : Name} {here : Place}
    (hnormal : path.IsNormal) (hstart : disk.start path = .ok here)
    (hshort : (path.child name.bytes).length < pathLimit) :
    disk.start (path.child name.bytes) = .ok here := by
  have hrooted : (path.child name.bytes).rooted = true := hnormal.rooted
  have hzero : 0 ∉ path.bytes := by
    intro h
    simp [Disk.start, h] at hstart
  have hchild : 0 ∉ (path.child name.bytes).bytes := by
    intro h
    rcases hnormal.folded.mem_bytes_child h with hpath | hslash | hname
    · exact hzero hpath
    · exact absurd hslash (by decide)
    · exact name.proper.2.2.2.2.1 hname
  have hnonempty : (path.child name.bytes).bytes ≠ [] := by simp [Path.bytes, hrooted]
  have hhere : here = [] := by
    have := hnormal.rooted
    unfold Disk.start at hstart
    grind
  rw [Disk.start, if_neg hchild, if_neg hnonempty, if_neg (Nat.not_le.2 hshort), if_pos hrooted,
    hhere]

namespace Disk.Stands

variable {disk : Disk} {p q : Path} {place : Place}

theorem list_eq (hp : disk.Stands p place) (hq : disk.Stands q place) :
    disk.list p = disk.list q := by
  simp only [Disk.list, Disk.node, hp.reaches, hq.reaches]

/-- A directory in another one is reached if that may be searched, and barred otherwise. -/
theorem resolve_child (h : disk.Stands p place) {name : Name} {rights own : Rights}
    {held contents : List (Name × Node)} (hdir : disk.at? place = some (.directory rights held))
    (hnode : disk.at? (place ++ [name]) = some (.directory own contents)) :
    disk.resolve .user .reach (p.child name.bytes) =
      if rights.search then .ok (place ++ [name]) else .error .denied := by
  obtain ⟨hempty, hdot, hdotDot, -⟩ := name.proper
  obtain ⟨here, left, hstart, hleads⟩ := resolve_eq_ok_iff.1 h.reaches
  have hshort : (p.child name.bytes).length < pathLimit := h.short [name] (by simp [hnode])
  have hchild := start_child_of_short h.normal hstart hshort
  rw [Disk.at?] at hdir hnode
  rw [Node.at?_concat hdir] at hnode
  simp only [Disk.resolve, Disk.locate, hchild, h.normal.folded.steps_child,
    hleads.walk_append (List.cons_ne_nil name.bytes []) (show Purpose.reach ≠ .write by simp)]
  rw [walk]
  simp only [hdir, hempty, hdot, hdotDot, Name.ofBytes?_bytes, if_false, hnode]
  by_cases hsearch : rights.search = true
  · simp [hsearch, Actor.may, walk]
  · simp [hsearch, Actor.may]

theorem child (h : disk.Stands p place) {name : Name}
    (hreaches : disk.resolve .user .reach (p.child name.bytes) = .ok (place ++ [name])) :
    disk.Stands (p.child name.bytes) (place ++ [name]) where
  normal := h.normal.child name
  reaches := hreaches
  short := by
    intro names hthere
    have hshort := h.short (name :: names)
    rw [List.append_cons] at hshort
    exact hshort hthere

/-- A directory in one that two paths lead to is one that both lead on to, or that both do not. -/
theorem child_cases (hp : disk.Stands p place) (hq : disk.Stands q place) {name : Name}
    (hlisted : (name, Kind.directory) ∈ disk.entries p) :
    (∃ inner, disk.Stands (p.child name.bytes) inner ∧ disk.Stands (q.child name.bytes) inner) ∨
      disk.list (p.child name.bytes) = .error .denied ∧
        disk.list (q.child name.bytes) = .error .denied := by
  obtain ⟨target, rights, held, node, htarget, hdir, -, hnode, hkind⟩ := mem_entries_iff.1 hlisted
  obtain rfl : place = target := Except.ok.inj (hp.reaches.symm.trans htarget)
  cases node with
  | file own content => cases hkind
  | link target => cases hkind
  | directory own contents =>
      have hresolve := hp.resolve_child hdir hnode
      have hother := hq.resolve_child hdir hnode
      by_cases hsearch : rights.search = true
      · rw [if_pos hsearch] at hresolve hother
        exact Or.inl ⟨_, hp.child hresolve, hq.child hother⟩
      · rw [if_neg hsearch] at hresolve hother
        refine Or.inr ⟨?_, ?_⟩
        · simp only [Disk.list, Disk.node, hresolve]
        · simp only [Disk.list, Disk.node, hother]

/-- Below paths that lead to the same place the same things stand in the same order. -/
theorem map_preorder (hp : disk.Stands p place) (hq : disk.Stands q place) (below : Place)
    {listing : Listing} (hlisting : ∀ entry ∈ listing, entry ∈ disk.entries p) :
    (disk.preorder p below listing).map (fun entry => (entry.below, entry.kind)) =
      (disk.preorder q below listing).map (fun entry => (entry.below, entry.kind)) := by
  fun_induction disk.preorder p below listing generalizing q place with
  | case1 => rw [Disk.preorder]
  | case2 path below name rest fault hlist ih =>
      have hrest := ih hp hq fun entry hentry => hlisting entry (List.mem_cons_of_mem _ hentry)
      have hnone : disk.entries (q.child name.bytes) = [] := by
        rcases hp.child_cases hq (hlisting _ List.mem_cons_self) with
          ⟨inner, hinner, hother⟩ | ⟨-, hdenied⟩
        · simp [Disk.entries, ← hinner.list_eq hother, hlist, Except.toOption]
        · simp [Disk.entries, hdenied, Except.toOption]
      rw [Disk.preorder_directory, hnone, Disk.preorder, List.nil_append, List.map_cons,
        List.map_cons, hrest]
  | case3 path below name rest contents hlist ihinner ih =>
      have hrest := ih hp hq fun entry hentry => hlisting entry (List.mem_cons_of_mem _ hentry)
      rcases hp.child_cases hq (hlisting _ List.mem_cons_self) with
        ⟨inner, hinner, hother⟩ | ⟨hdenied, -⟩
      · have hcontents : disk.entries (q.child name.bytes) = contents :=
          Disk.entries_of_list ((hinner.list_eq hother).symm.trans hlist)
        have hbelow := ihinner hinner hother fun entry hentry => by
          rw [Disk.entries_of_list hlist]
          exact hentry
        rw [Disk.preorder_directory, hcontents, List.map_cons, List.map_cons, List.map_append,
          List.map_append, hbelow, hrest]
      · rw [hlist] at hdenied
        cases hdenied
  | case4 path below name kind rest hkind ih =>
      have hrest := ih hp hq fun entry hentry => hlisting entry (List.mem_cons_of_mem _ hentry)
      rw [Disk.preorder_plain _ _ _ _ _ hkind, List.map_cons, List.map_cons, hrest]

/-- Paths that lead to the same place have the same outline. -/
theorem outline_eq (hp : disk.Stands p place) (hq : disk.Stands q place) :
    disk.outline p = disk.outline q := by
  have hentries : disk.entries p = disk.entries q := by
    simp only [Disk.entries, hp.list_eq hq]
  rw [Disk.outline, Disk.outline, Disk.allBelow, Disk.allBelow, ← hentries]
  exact hp.map_preorder hq [] fun _ hentry => hentry

theorem namedBelow_eq (hp : disk.Stands p place) (hq : disk.Stands q place) (target : Glob) :
    disk.namedBelow target p = disk.namedBelow target q := by
  simp only [Disk.namedBelow, Disk.entries, hp.list_eq hq, hp.outline_eq hq]

/-- A directory below paths that lead to the same place can be listed from both or from neither. -/
theorem list_below (hp : disk.Stands p place) (hq : disk.Stands q place) {below : Place}
    {entry : Entry} (h : disk.Under p below entry) (hkind : entry.kind = .directory) :
    ∃ names, entry.below = below ++ names ∧
      disk.list (p.descend names) = disk.list (q.descend names) ∧
      ∀ listing, disk.list (p.descend names) = .ok listing →
        ∃ inner, disk.Stands (p.descend names) inner ∧ disk.Stands (q.descend names) inner := by
  induction h generalizing q place with
  | @entry path below name kind hlisted =>
      subst hkind
      refine ⟨[name], rfl, ?_⟩
      rcases hp.child_cases hq hlisted with ⟨inner, hinner, hother⟩ | ⟨hdenied, hother⟩
      · exact ⟨hinner.list_eq hother, fun listing _ => ⟨inner, hinner, hother⟩⟩
      · refine ⟨hdenied.trans hother.symm, ?_⟩
        intro listing hlist
        rw [show path.descend [name] = path.child name.bytes from rfl, hdenied] at hlist
        cases hlist
  | @inner path below name entry hlisted next ih =>
      rcases hp.child_cases hq hlisted with ⟨inner, hinner, hother⟩ | ⟨hdenied, -⟩
      · obtain ⟨names, hbelow, hlists⟩ := ih hinner hother hkind
        refine ⟨name :: names, ?_, hlists⟩
        rw [hbelow, List.append_assoc, List.singleton_append]
      · obtain ⟨listing, hlist⟩ := next.listed
        rw [hdenied] at hlist
        cases hlist

theorem list_of_mem_outline (hp : disk.Stands p place) (hq : disk.Stands q place) {names : Place}
    (h : (names, Kind.directory) ∈ disk.outline p) :
    disk.list (p.descend names) = disk.list (q.descend names) ∧
      ∀ listing, disk.list (p.descend names) = .ok listing →
        ∃ inner, disk.Stands (p.descend names) inner ∧ disk.Stands (q.descend names) inner := by
  obtain ⟨entry, hentry, heq⟩ := List.mem_map.1 h
  obtain ⟨hnames, hkind⟩ := Prod.mk.inj heq
  obtain ⟨others, hbelow, hlists⟩ := hp.list_below hq (Disk.mem_allBelow_iff.1 hentry) hkind
  rw [← hnames, hbelow, List.nil_append]
  exact hlists

/-- The directories below paths that lead to the same place can be listed from both or from
neither. -/
theorem innerDirectories_eq (hp : disk.Stands p place) (hq : disk.Stands q place) :
    disk.innerDirectories p = disk.innerDirectories q := by
  rw [Disk.innerDirectories, Disk.innerDirectories, ← hp.outline_eq hq]
  congr 1
  apply List.filter_congr
  intro item hitem
  obtain ⟨names, kind⟩ := item
  by_cases hkind : kind = .directory
  · subst hkind
    simp only [Disk.lists, (hp.list_of_mem_outline hq hitem).1]
  · simp [hkind]

theorem of_mem_innerDirectories (hp : disk.Stands p place) (hq : disk.Stands q place)
    {names : Place} (h : names ∈ disk.innerDirectories p) :
    ∃ inner, disk.Stands (p.descend names) inner ∧ disk.Stands (q.descend names) inner := by
  obtain ⟨item, hitem, hnames⟩ := List.mem_map.1 h
  obtain ⟨hmem, hlists⟩ := List.mem_filter.1 hitem
  rw [Bool.and_eq_true, decide_eq_true_eq] at hlists
  obtain ⟨listing, hlist⟩ := Disk.lists_iff.1 hlists.2
  have hdirectory : (item.1, Kind.directory) ∈ disk.outline p := by
    rw [← hlists.1]
    exact hmem
  rw [← hnames]
  exact (hp.list_of_mem_outline hq hdirectory).2 listing hlist

end Disk.Stands

/-! ## What scans find from such paths -/

/-- What a target names in the directories below a path, as names from that path. -/
def Disk.namedWithin (disk : Disk) (root : Path) (target : Glob) : List Place :=
  (disk.innerDirectories root).flatMap fun names =>
    (disk.namedBelow target (root.descend names)).map (names ++ ·)

theorem Disk.map_descend_namedWithin (disk : Disk) (root : Path) (target : Glob) :
    (disk.namedWithin root target).map root.descend =
      ((disk.innerDirectories root).map root.descend).flatMap (disk.named target) := by
  rw [Disk.namedWithin, List.map_flatMap, List.flatMap_map]
  congr 1
  funext names
  rw [← Disk.map_descend_namedBelow, List.map_map, List.map_congr_left]
  intro below _
  exact Path.descend_append root names below

theorem Disk.Stands.namedWithin_eq {disk : Disk} {p q : Path} {place : Place}
    (hp : disk.Stands p place) (hq : disk.Stands q place) (target : Glob) :
    disk.namedWithin p target = disk.namedWithin q target := by
  rw [Disk.namedWithin, Disk.namedWithin, ← hp.innerDirectories_eq hq]
  apply List.flatMap_congr
  intro names hnames
  obtain ⟨inner, hinner, hother⟩ := hp.of_mem_innerDirectories hq hnames
  rw [hinner.namedBelow_eq hother]

/-- Without conditions a dry scan finds what the rules name in all collected directories. -/
theorem found_scan_dry_plain (disk : Disk) (root : Path) {rules : List Rule}
    (hplain : ∀ rule ∈ rules, rule.condition = none) :
    (scan .idle .dry disk root rules).found = rules.flatMap fun rule =>
      (disk.collected (disk.absolutize root)).flatMap (disk.named rule.target) := by
  rw [found_scan_dry, Disk.harvest]
  apply List.flatMap_congr
  intro rule hrule
  apply List.flatMap_congr
  intro directory _
  rw [Disk.yield, hplain rule hrule]
  rfl

/-- The steps of a path that follow those of a path above it. -/
def Path.stepsBelow (root path : Path) : List Bytes :=
  path.steps.drop root.steps.length

theorem Path.IsFolded.steps_descend {path : Path} (hfolded : path.IsFolded) (names : Place) :
    (path.descend names).steps = path.steps ++ names.map (·.bytes) := by
  induction names generalizing path with
  | nil => exact (List.append_nil path.steps).symm
  | cons name rest ih =>
      show ((path.child name.bytes).descend rest).steps = _
      rw [ih (hfolded.child name), hfolded.steps_child, List.append_assoc, List.map_cons,
        List.singleton_append]

theorem Path.IsFolded.stepsBelow_descend {path : Path} (hfolded : path.IsFolded) (names : Place) :
    path.stepsBelow (path.descend names) = names.map (·.bytes) := by
  rw [Path.stepsBelow, hfolded.steps_descend, List.drop_left]

theorem Path.IsFolded.map_stepsBelow {path : Path} (hfolded : path.IsFolded) (places : List Place) :
    (places.map path.descend).map path.stepsBelow =
      places.map fun names => names.map (·.bytes) := by
  rw [List.map_map, List.map_congr_left]
  intro names _
  exact hfolded.stepsBelow_descend names

/-- What stands before some lists is nothing if it changes nothing. -/
theorem flatMap_append_eq_iff {α β : Type} {f g : α → List β} {xs : List α} :
    (xs.flatMap fun x => f x ++ g x) = xs.flatMap g ↔ ∀ x ∈ xs, f x = [] := by
  constructor
  · intro h
    have hlength := congrArg List.length h
    simp only [List.length_flatMap, List.length_append, List.sum_map_add, Nat.add_eq_right,
      List.sum_eq_zero_iff, List.mem_map, forall_exists_index, and_imp] at hlength
    intro x hx
    exact List.length_eq_zero_iff.1 (hlength _ x hx rfl)
  · intro h
    apply List.flatMap_congr
    intro x hx
    rw [h x hx, List.nil_append]

/-- A link is not among the directories that a scan from it collects. -/
theorem Disk.not_mem_collected_of_link {disk : Disk} {root : Path} (hfolded : root.IsFolded)
    (hlink : disk.ownKind root = .ok .link) : root ∉ disk.collected root := by
  intro h
  rw [Disk.collected_eq, List.mem_filter, Disk.mem_reached_iff] at h
  cases h.1 with
  | root hkind =>
      rw [hlink] at hkind
      cases hkind
  | below hunder =>
      have hlonger : root.steps.length < root.steps.length := hunder.length_steps_lt hfolded
      exact Nat.lt_irrefl _ hlonger

/-- A link and the directory that it leads to are not scanned alike: the directory is among those
that a scan from it collects, the link is not. So rules without conditions find from the link what
they find from the directory, in the same order and by the same names, but for what they name in
the directory itself. -/
theorem found_scan_dry_of_link {disk : Disk} {start link root other : Path} {place : Place}
    {rules : List Rule} (hplain : ∀ rule ∈ rules, rule.condition = none)
    (hroot : disk.absolutize start = root) (hother : disk.absolutize link = other)
    (hkind : disk.ownKind root = .ok .directory) (hlists : disk.lists root = true)
    (hlink : disk.ownKind other = .ok .link)
    (hplace : disk.resolve .user .reach root = .ok place)
    (hleads : disk.resolve .user .reach other = .ok place)
    (hshort : ∀ names, disk.at? (place ++ names) ≠ none →
      (root.descend names).length < pathLimit ∧ (other.descend names).length < pathLimit) :
    (root ∈ disk.collected root ∧ other ∉ disk.collected other) ∧
      (scan .idle .dry disk start rules).found = (rules.flatMap fun rule =>
        disk.namedBelow rule.target root ++ disk.namedWithin root rule.target).map root.descend ∧
      (scan .idle .dry disk link rules).found = (rules.flatMap fun rule =>
        disk.namedWithin root rule.target).map other.descend ∧
      ((scan .idle .dry disk start rules).found.map root.stepsBelow =
          (scan .idle .dry disk link rules).found.map other.stepsBelow ↔
        ∀ rule ∈ rules, disk.named rule.target root = []) := by
  have hfolded : root.IsFolded := hroot ▸ Path.isFolded_fold _
  have hfoldedOther : other.IsFolded := hother ▸ Path.isFolded_fold _
  have hrooted : ∀ {path : Path}, disk.resolve .user .reach (disk.absolutize path) = .ok place →
      (disk.absolutize path).rooted = true := by
    intro path h
    obtain ⟨here, left, hstart, -⟩ := resolve_eq_ok_iff.1 h
    exact rooted_of_start_absolutize hstart
  have hp : disk.Stands root place :=
    ⟨⟨hfolded, hroot ▸ hrooted (hroot ▸ hplace)⟩, hplace, fun names h => (hshort names h).1⟩
  have hq : disk.Stands other place :=
    ⟨⟨hfoldedOther, hother ▸ hrooted (hother ▸ hleads)⟩, hleads, fun names h => (hshort names h).2⟩
  have hcollected : disk.collected root =
      root :: (disk.innerDirectories root).map root.descend := by
    rw [Disk.collected_eq_inner, if_pos hkind, List.filter_singleton, hlists]
    rfl
  have hinner : disk.collected other = (disk.innerDirectories other).map other.descend := by
    rw [Disk.collected_eq_inner, if_neg (by simp [hlink])]
    rfl
  have hfound : (scan .idle .dry disk start rules).found = (rules.flatMap fun rule =>
      disk.namedBelow rule.target root ++ disk.namedWithin root rule.target).map root.descend := by
    rw [found_scan_dry_plain disk start hplain, hroot, hcollected, List.map_flatMap]
    apply List.flatMap_congr
    intro rule _
    rw [List.flatMap_cons, List.map_append, Disk.map_descend_namedBelow,
      Disk.map_descend_namedWithin]
  have hfoundOther : (scan .idle .dry disk link rules).found = (rules.flatMap fun rule =>
      disk.namedWithin root rule.target).map other.descend := by
    rw [found_scan_dry_plain disk link hplain, hother, hinner, List.map_flatMap]
    apply List.flatMap_congr
    intro rule _
    rw [hp.namedWithin_eq hq, Disk.map_descend_namedWithin]
  refine ⟨⟨?_, Disk.not_mem_collected_of_link hfoldedOther hlink⟩, hfound, hfoundOther, ?_⟩
  · rw [hcollected]
    exact List.mem_cons_self
  · have hinjective : Function.Injective fun names : Place => names.map (·.bytes) :=
      fun _ _ h => map_bytes_injective h
    have hnothing : ∀ rule : Rule,
        disk.namedBelow rule.target root = [] ↔ disk.named rule.target root = [] := by
      intro rule
      rw [← Disk.map_descend_namedBelow, List.map_eq_nil_iff]
    rw [hfound, hfoundOther, hfolded.map_stepsBelow, hfoldedOther.map_stepsBelow,
      hinjective.list_map.eq_iff, flatMap_append_eq_iff]
    simp only [hnothing]

/-- A disk with a directory `/w` that holds a directory `d` with a file `x`, and a link `l` to
`d`. -/
def linkedDisk : Disk :=
  .ofLeaves [("/w/d/x", .ofContent ""), ("/w/l", .link (Path.ofText "d").bytes)]

theorem names_of_linkedDisk {names : Place}
    (h : linkedDisk.at? (.ofText "/w/d" ++ names) ≠ none) :
    names = [] ∨ names = .ofText "x" := by
  have hplace : linkedDisk.at? (.ofText "/w/d") =
      some (.directory .ofDirectory [(.ofText "x", .ofContent "")]) := by rfl
  rw [Disk.at?] at h hplace
  rw [Node.at?_append, hplace] at h
  cases names with
  | nil => exact Or.inl rfl
  | cons name rest =>
      by_cases hname : name = .ofText "x"
      · subst hname
        cases rest with
        | nil => exact Or.inr rfl
        | cons other more => simp [Node.entry?, List.lookup, Node.ofContent] at h
      · have hother : (name == .ofText "x") = false := beq_eq_false_iff_ne.2 hname
        simp [Node.entry?, List.lookup, hother] at h

/-- A scan for `x` from `/w/d` finds it, and one from the link `/w/l` finds nothing. -/
theorem found_scan_dry_of_link_of_file :
    (scan .idle .dry linkedDisk (Path.ofText "/w/d") [⟨.delete, ⟨"x"⟩, none⟩]).found =
        [Path.ofText "/w/d/x"] ∧
      (scan .idle .dry linkedDisk (Path.ofText "/w/l") [⟨.delete, ⟨"x"⟩, none⟩]).found = [] ∧
      Path.ofText "/w/d" ∈ linkedDisk.collected (Path.ofText "/w/d") ∧
      Path.ofText "/w/l" ∉ linkedDisk.collected (Path.ofText "/w/l") := by
  have hplain : ∀ rule ∈ [(⟨.delete, ⟨"x"⟩, none⟩ : Rule)], rule.condition = none := by
    intro rule hrule
    rw [List.mem_singleton.1 hrule]
  have hroot : linkedDisk.absolutize (Path.ofText "/w/d") = Path.ofText "/w/d" := by cbv
  have hother : linkedDisk.absolutize (Path.ofText "/w/l") = Path.ofText "/w/l" := by cbv
  have hplace : linkedDisk.resolve .user .reach (Path.ofText "/w/d") =
      .ok (.ofText "/w/d") := by cbv
  have hleads : linkedDisk.resolve .user .reach (Path.ofText "/w/l") =
      .ok (.ofText "/w/d") := by cbv
  have hshort : ∀ names, linkedDisk.at? (.ofText "/w/d" ++ names) ≠ none →
      ((Path.ofText "/w/d").descend names).length < pathLimit ∧
        ((Path.ofText "/w/l").descend names).length < pathLimit := by
    intro names hthere
    rcases names_of_linkedDisk hthere with hnil | hfile
    · rw [hnil]
      decide
    · rw [hfile]
      decide
  have hlinked := found_scan_dry_of_link hplain hroot hother (by cbv) (by cbv) (by cbv) hplace
    hleads hshort
  refine ⟨?_, ?_, hlinked.1⟩
  · simp only [scan_eq_scanToDepth]
    cbv
  · simp only [scan_eq_scanToDepth]
    cbv

end Sweep
