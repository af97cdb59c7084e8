import Mathlib.Data.Set.Card
import Sweep.Proofs.Scan.Collected
/-!
# What a dry scan finds, exactly

A *finding* is a rule, a directory in which it applies, and a path that its target names there. A dry
scan comes upon each finding once: rule by rule, in each rule directory by directory, and in each
directory path by path, where directories and paths stand in the order of their steps. So how often
it finds a path is how many rules name the path from how many directories.

## Main results

* `Disk.pairwise_named` — what a target names stands in order.
* `mem_findings_iff`, `pairwise_findings` — the findings, each once and in order.
* `found_scan_dry_exactly` — a dry scan changes nothing and reports the paths of the findings.
-/

namespace Sweep

open Disk

/-- A path that a rule names in a directory. -/
structure Finding where
  /-- The place of the rule among the rules. -/
  rule : Nat
  directory : Path
  path : Path
deriving DecidableEq

/-- Findings are ordered by rule, then by directory, then by path. -/
def Finding.Before (a b : Finding) : Prop :=
  a.rule < b.rule ∨ a.rule = b.rule ∧
    (a.directory.Before b.directory ∨ a.directory = b.directory ∧ a.path.Before b.path)

theorem Finding.ne_of_before {a b : Finding} (h : a.Before b) : a ≠ b := by
  intro heq
  subst heq
  rcases h with h | ⟨-, h | ⟨-, h⟩⟩
  · exact Nat.lt_irrefl a.rule h
  · exact a.directory.not_before_self h
  · exact a.path.not_before_self h

/-- There is such a finding: the rule exists, the directory is one of those that a scan collects at
and below the root, the rule applies in it, and its target names the path there. -/
def Disk.Finds (disk : Disk) (root : Path) (rules : List Rule) (finding : Finding) : Prop :=
  ∃ rule kind, rules[finding.rule]? = some rule ∧ finding.directory ∈ disk.collected root ∧
    applies disk finding.directory rule.condition = true ∧
    disk.Named rule.target finding.directory finding.path kind

/-- The findings of a rule in a directory. -/
def Disk.findingsIn (disk : Disk) (rule : Rule) (number : Nat) (directory : Path) : List Finding :=
  (disk.yield rule directory).map fun path => ⟨number, directory, path⟩

/-- The findings of rules at and below a root. -/
def Disk.findings (disk : Disk) (root : Path) (rules : List Rule) : List Finding :=
  rules.zipIdx.flatMap fun numbered =>
    (disk.collected root).flatMap (disk.findingsIn numbered.1 numbered.2)

/-- The paths of the findings are what the rules name. -/
theorem map_path_findings (disk : Disk) (root : Path) (rules : List Rule) :
    (disk.findings root rules).map (·.path) = disk.harvest (disk.collected root) rules := by
  have hin : ∀ rule number directory,
      (disk.findingsIn rule number directory).map (·.path) = disk.yield rule directory := by
    intro rule number directory
    simp [Disk.findingsIn, Function.comp_def]
  have hrule : ∀ numbered : Rule × Nat,
      ((disk.collected root).flatMap (disk.findingsIn numbered.1 numbered.2)).map (·.path) =
        (disk.collected root).flatMap (disk.yield numbered.1) := by
    intro numbered
    simp only [List.map_flatMap, hin]
  have hnumbered : rules.zipIdx.map Prod.fst = rules := List.zipIdx_map_fst 0 rules
  calc (disk.findings root rules).map (·.path)
      = rules.zipIdx.flatMap fun numbered =>
          (disk.collected root).flatMap (disk.yield numbered.1) := by
        simp only [Disk.findings, List.map_flatMap, ← hrule]
    _ = (rules.zipIdx.map Prod.fst).flatMap fun rule =>
          (disk.collected root).flatMap (disk.yield rule) := by
        rw [List.flatMap_map]
    _ = disk.harvest (disk.collected root) rules := by rw [hnumbered, Disk.harvest]

theorem mem_findingsIn_iff {disk : Disk} {rule : Rule} {number : Nat} {directory : Path}
    {finding : Finding} :
    finding ∈ disk.findingsIn rule number directory ↔
      finding.rule = number ∧ finding.directory = directory ∧
        applies disk directory rule.condition = true ∧
        ∃ kind, disk.Named rule.target directory finding.path kind := by
  obtain ⟨at?, place, path⟩ := finding
  cases happlies : applies disk directory rule.condition with
  | false => simp [Disk.findingsIn, Disk.yield, happlies]
  | true =>
      simp only [Disk.findingsIn, Disk.yield, happlies, if_true, List.mem_map, Disk.mem_named_iff,
        Finding.mk.injEq]
      constructor
      · intro h
        obtain ⟨other, hnamed, rfl, rfl, rfl⟩ := h
        exact ⟨rfl, rfl, trivial, hnamed⟩
      · intro h
        obtain ⟨rfl, rfl, -, hnamed⟩ := h
        exact ⟨path, hnamed, rfl, rfl, rfl⟩

/-- The list holds the findings. -/
theorem mem_findings_iff {disk : Disk} {root : Path} {rules : List Rule} {finding : Finding} :
    finding ∈ disk.findings root rules ↔ disk.Finds root rules finding := by
  simp only [Disk.findings, List.mem_flatMap, mem_findingsIn_iff, List.mem_zipIdx_iff_getElem?]
  constructor
  · intro h
    obtain ⟨⟨rule, number⟩, hrule, directory, hdirectory, rfl, rfl, happlies, kind, hnamed⟩ := h
    exact ⟨rule, kind, hrule, hdirectory, happlies, hnamed⟩
  · intro h
    obtain ⟨rule, kind, hrule, hdirectory, happlies, hnamed⟩ := h
    exact ⟨(rule, finding.rule), hrule, finding.directory, hdirectory, rfl, rfl, happlies, kind,
      hnamed⟩

/-! ## The order of findings -/

/-- What a target names in a directory stands in order. -/
theorem Disk.pairwise_named {directory : Path} (hfolded : directory.IsFolded) (disk : Disk)
    (target : Glob) : (disk.named target directory).Pairwise Path.Before := by
  unfold Disk.named
  split
  · rw [List.pairwise_map]
    exact (Disk.pairwise_allBelow hfolded disk).filter _
  · rw [Glob.pick, List.pairwise_map]
    apply List.Pairwise.filter
    exact (pairwise_entries disk directory).imp fun hbefore => hfolded.before_child hbefore

theorem pairwise_findingsIn {disk : Disk} {directory : Path} (hfolded : directory.IsFolded)
    (rule : Rule) (number : Nat) :
    (disk.findingsIn rule number directory).Pairwise Finding.Before := by
  rw [Disk.findingsIn, List.pairwise_map, Disk.yield]
  split
  · apply (Disk.pairwise_named hfolded disk rule.target).imp
    intro path other hbefore
    exact Or.inr ⟨rfl, Or.inr ⟨rfl, hbefore⟩⟩
  · exact .nil

theorem pairwise_lt_zipIdx {α : Type} (xs : List α) (start : Nat) :
    (xs.zipIdx start).Pairwise fun a b => a.2 < b.2 := by
  induction xs generalizing start with
  | nil => exact .nil
  | cons x xs ih =>
      rw [List.zipIdx_cons, List.pairwise_cons]
      constructor
      · intro later hlater
        exact List.le_snd_of_mem_zipIdx hlater
      · exact ih (start + 1)

/-- The findings stand in order. -/
theorem pairwise_findings (disk : Disk) (root : Path) (rules : List Rule) :
    (disk.findings (disk.absolutize root) rules).Pairwise Finding.Before := by
  have hroot : (disk.absolutize root).IsFolded := Path.isFolded_fold _
  have hfolded : ∀ directory ∈ disk.collected (disk.absolutize root), directory.IsFolded :=
    fun directory hdirectory => (scanned_of_mem_snapshot hdirectory).isNormal.folded
  rw [Disk.findings, List.pairwise_flatMap]
  constructor
  · intro numbered _
    rw [List.pairwise_flatMap]
    constructor
    · intro directory hdirectory
      exact pairwise_findingsIn (hfolded directory hdirectory) numbered.1 numbered.2
    · apply (Disk.pairwise_collected hroot disk).imp
      intro directory other hbefore first hfirst second hsecond
      obtain ⟨hrule, hdirectory, -⟩ := mem_findingsIn_iff.1 hfirst
      obtain ⟨hsame, hother, -⟩ := mem_findingsIn_iff.1 hsecond
      refine Or.inr ⟨hrule.trans hsame.symm, Or.inl ?_⟩
      rw [hdirectory, hother]
      exact hbefore
  · apply (pairwise_lt_zipIdx rules 0).imp
    intro numbered later hlt first hfirst second hsecond
    obtain ⟨directory, -, hfirst⟩ := List.mem_flatMap.1 hfirst
    obtain ⟨other, -, hsecond⟩ := List.mem_flatMap.1 hsecond
    have hrule := (mem_findingsIn_iff.1 hfirst).1
    have hother := (mem_findingsIn_iff.1 hsecond).1
    exact Or.inl (by omega)

theorem nodup_findings (disk : Disk) (root : Path) (rules : List Rule) :
    (disk.findings (disk.absolutize root) rules).Nodup :=
  (pairwise_findings disk root rules).imp Finding.ne_of_before

/-! ## How often a path is found -/

/-- The rules and directories that a path is found by. -/
def sourcesOf (findings : List Finding) (path : Path) : List (Nat × Path) :=
  (findings.filter (·.path = path)).map fun finding => (finding.rule, finding.directory)

theorem mem_sourcesOf_iff {findings : List Finding} {path : Path} {source : Nat × Path} :
    source ∈ sourcesOf findings path ↔ ⟨source.1, source.2, path⟩ ∈ findings := by
  obtain ⟨rule, directory⟩ := source
  simp only [sourcesOf, List.mem_map, List.mem_filter, decide_eq_true_eq, Prod.mk.injEq]
  constructor
  · intro hmem
    obtain ⟨finding, ⟨hfinding, rfl⟩, rfl, rfl⟩ := hmem
    exact hfinding
  · intro hmem
    exact ⟨⟨rule, directory, path⟩, ⟨hmem, rfl⟩, rfl, rfl⟩

theorem nodup_sourcesOf {findings : List Finding} (h : findings.Nodup) (path : Path) :
    (sourcesOf findings path).Nodup := by
  apply List.Nodup.map_on
  · intro a ha b hb hsame
    have hpath : a.path = path := by simpa using (List.mem_filter.1 ha).2
    have hother : b.path = path := by simpa using (List.mem_filter.1 hb).2
    cases a
    cases b
    simp_all
  · exact h.filter _

theorem length_sourcesOf (findings : List Finding) (path : Path) :
    (sourcesOf findings path).length = (findings.map (·.path)).count path := by
  rw [sourcesOf, List.length_map, ← List.countP_eq_length_filter, List.count, List.countP_map]
  apply List.countP_congr
  intro finding _
  simp

/-- A path is among the findings once for each rule and directory that name it. -/
theorem count_path_of_nodup {findings : List Finding} (h : findings.Nodup) (path : Path) :
    (findings.map (·.path)).count path =
      {source : Nat × Path | ⟨source.1, source.2, path⟩ ∈ findings}.ncard := by
  have hset : {source : Nat × Path | ⟨source.1, source.2, path⟩ ∈ findings} =
      ((sourcesOf findings path).toFinset : Set (Nat × Path)) := by
    ext source
    simp [mem_sourcesOf_iff]
  rw [hset, Set.ncard_coe_finset, List.toFinset_card_of_nodup (nodup_sourcesOf h path),
    length_sourcesOf]

/-- A dry scan leaves the disk as it is and reports the paths of all findings: each finding once, and
in their order. So a path is reported once for each rule and directory that name it. -/
theorem found_scan_dry_exactly (disk : Disk) (root : Path) (rules : List Rule) :
    (scan .idle .dry disk root rules).disk = disk ∧
      (∃ findings : List Finding,
        (scan .idle .dry disk root rules).found = findings.map (·.path) ∧
        (∀ finding, finding ∈ findings ↔ disk.Finds (disk.absolutize root) rules finding) ∧
        findings.Nodup ∧ findings.Pairwise Finding.Before) ∧
      ∀ path, (scan .idle .dry disk root rules).found.count path =
        {source : Nat × Path |
          disk.Finds (disk.absolutize root) rules ⟨source.1, source.2, path⟩}.ncard := by
  have hfound : (scan .idle .dry disk root rules).found =
      (disk.findings (disk.absolutize root) rules).map (·.path) := by
    rw [found_scan_dry, map_path_findings]
  have hnodup := nodup_findings disk root rules
  refine ⟨disk_scan_dry disk root rules, ⟨_, hfound, fun finding => mem_findings_iff, hnodup,
    pairwise_findings disk root rules⟩, ?_⟩
  intro path
  rw [hfound, count_path_of_nodup hnodup]
  simp only [mem_findings_iff]

end Sweep
