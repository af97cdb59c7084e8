import Sweep.Proofs.Condition
import Sweep.Proofs.Scan.Harvest
/-!
# A dry scan as a preview

A dry scan finds everything that a rule names in a scanned directory in which it applies. A live
scan asks its conditions of a disk from which matches have been removed already. A steady rule
applies there only if it applied from the start, so what it removes was in the preview. A rule that
asks for a no may come to apply through a removal; its lenient form, where these questions are
answered no, then applied from the start.

## Main results

* `previewed_of_named` — what a rule names where it applies is in the preview.
* `scan_live_within_preview` — what a live scan removes is covered by the dry scan of the lenient
  rules.
-/

namespace Sweep

open Disk

/-! ## What a live scan removes -/

/-- A path is listed by the dry scan of the rules in their lenient form. -/
def Previewed (disk : Disk) (root : Path) (rules : List Rule) (path : Path) : Prop :=
  path ∈ (scan .idle .dry disk root (rules.map Rule.lenient)).found

/-- What is listed for the lenient rules is listed for the rules as they are, or for the lenient form
of a single rule that asks for a no. -/
theorem Previewed.listed {disk : Disk} {root path : Path} {rules : List Rule}
    (h : Previewed disk root rules path) :
    path ∈ (scan .idle .dry disk root rules).found ∨
      ∃ rule ∈ rules, rule.isSteady = false ∧
        path ∈ (scan .idle .dry disk root [rule.lenient]).found := by
  obtain ⟨lenient, hmem, directory, kind, hdirectory, happlies, hnamed⟩ := mem_found_scan_dry_iff.1 h
  obtain ⟨rule, hrule, rfl⟩ := List.mem_map.1 hmem
  cases hsteady : rule.isSteady with
  | true =>
      rw [Rule.lenient_of_isSteady hsteady] at happlies hnamed
      exact Or.inl (mem_found_scan_dry_iff.2
        ⟨rule, hrule, directory, kind, hdirectory, happlies, hnamed⟩)
  | false =>
      have halone : rule.lenient ∈ [rule.lenient] := List.mem_singleton_self _
      exact Or.inr ⟨rule, hrule, hsteady, mem_found_scan_dry_iff.2
        ⟨rule.lenient, halone, directory, kind, hdirectory, happlies, hnamed⟩⟩

/-- What a rule names where it applies on a pruned disk is in the preview. -/
theorem previewed_of_named {p : Place → Prop} {disk now : Disk} {root directory path : Path}
    {rules : List Rule} {rule : Rule} {kind : Kind} (hpruned : PrunedWithin p disk now)
    (hrule : rule ∈ rules) (hdirectory : disk.Scanned (disk.absolutize root) directory)
    (happlies : applies now directory rule.condition = true)
    (hnamed : disk.Named rule.target directory path kind) : Previewed disk root rules path := by
  have hbefore := Rule.applies_lenient_of_prunedWithin hpruned hdirectory.rooted happlies
  exact mem_found_scan_dry_iff.2 ⟨rule.lenient, List.mem_map_of_mem hrule, directory, kind,
    hdirectory, hbefore, hnamed⟩

/-- What a live scan removes is covered by what the dry scan of the lenient rules lists. -/
theorem scan_live_within_preview (disk : Disk) (root : Path) (rules : List Rule) :
    PrunedWithin (fun place => ∃ path, Previewed disk root rules path ∧ disk.Covers path place) disk
      (scan .idle .live disk root rules).disk := by
  obtain ⟨progress, hwithin, hscan⟩ := scan_keeps disk .live
    (fun progress => PrunedWithin
      (fun place => ∃ path, Previewed disk root rules path ∧ disk.Covers path place) disk
      progress.disk)
    (fun path _ => Previewed disk root rules path ∧
      ∃ steps, ∃ name : Name, path.steps = steps ++ [name.bytes])
    (fun progress path kind ⟨hpreview, steps, name, hsteps⟩ hpruned hwithin => by
      have htaken := progress.take_prunedWithin hsteps .live (kind = .directory)
      exact hwithin.trans (htaken.mono fun place hplace => ⟨path, hpreview, hpruned.covers hplace⟩))
    (fun _ _ _ hwithin => hwithin) root rules
    (fun rule hrule directory hdirectory progress hpruned _ happlies path kind hnamed =>
      ⟨previewed_of_named hpruned hrule hdirectory happlies hnamed, hnamed.steps⟩)
    (.refl _ _)
  rw [hscan]
  exact hwithin

end Sweep
