import Mathlib
import Sweep.Proofs.Command.Configuration
/-!
# Putting the default configuration in place

Resetting the configuration, or making one to begin with, saves the default one whatever the file
holds: the command's own work does not look at it. But every command begins with loading the
configuration and fails with it, and these two are no exception. So the file is repaired exactly if
it was sound before; one that is not is left as it is, and every further attempt fails in the same
way.

## Main results

* `Config.load_of_content` — what is loaded, by what the file holds.
* `Invocation.repairs_iff` — when the default configuration is put in place.
-/

namespace Sweep

open Disk

/-- The configuration that the content of a file stands for. -/
def Config.ofContent? (content : Bytes) : Option Config :=
  (Text.Utf8.decode? content).bind fun cs => ofText? (String.ofList cs)

/-- Why the content of a file stands for no configuration: it is no text, or the text is not a
document with the settings in it. -/
def Config.contentFailure (path : Path) (content : Bytes) : Failure :=
  match Text.Utf8.decode? content with
  | none => .unreadableConfig path .notText
  | some _ => .malformedConfig path

/-- What is loaded from a file that can be read is the configuration that it holds. -/
theorem Config.load_of_content {disk : Disk} {path : Path} {content : Bytes}
    (h : disk.read path = .ok content) :
    Config.load disk path =
      match Config.ofContent? content with
      | some config => .ok config
      | none => .error (Config.contentFailure path content) := by
  rw [Config.load, if_pos (Disk.holds_of_read h), Disk.readText, h, Config.ofContent?,
    Config.contentFailure]
  cases hdecode : Text.Utf8.decode? content with
  | none => simp only [hdecode, Option.bind_none]
  | some cs =>
      simp only [hdecode, Option.bind_some]
      cases Config.ofText? (String.ofList cs) with
      | none => simp only
      | some config => simp only

/-- An action that puts the default configuration in place. -/
def ConfigAction.Restores (action : ConfigAction) : Prop :=
  action = .reset ∨ action = .init

/-- The work of such an action puts the default configuration in place, whatever was there. -/
theorem ConfigAction.Restores.performConfig {env : Environment} {disk : Disk} {action : ConfigAction}
    (h : action.Restores) (hwritable : disk.IsWritable env.configPath) (view : View)
    (config : Config) :
    (performConfig env view config disk action).failure = none ∧
      Config.load (performConfig env view config disk action).disk env.configPath = .ok {} := by
  rcases h with rfl | rfl
  · obtain ⟨hfailure, hconfigured⟩ := performSave_configured hwritable view {}
      "Configuration reset to defaults"
    exact ⟨hfailure, hconfigured.loads⟩
  · obtain ⟨hfailure, hconfigured⟩ := performSave_configured hwritable view {}
      ("TidyRules initialized at " ++ displayPath env.home env.configPath)
    exact ⟨hfailure, hconfigured.loads⟩

/-- Resetting the configuration, or making one, succeeds and leaves the default one to be loaded
exactly if the file held a configuration already. Otherwise the command fails for what is wrong with
the file, and the disk stays as it is. The work of the command, without the loading before it, would
put the default configuration in place in any case. -/
theorem Invocation.repairs_iff {env : Environment} {disk : Disk} {content : Bytes}
    {invocation : Invocation} {action : ConfigAction} (input : Bytes)
    (hcommand : invocation.command = .config action) (haction : action.Restores)
    (hread : disk.read env.configPath = .ok content)
    (hwritable : disk.IsWritable env.configPath) :
    (((invocation.perform env disk).answered input).failure = none ∧
        Config.load ((invocation.perform env disk).answered input).disk env.configPath = .ok {} ↔
      ∃ config, Config.ofContent? content = some config) ∧
    (Config.ofContent? content = none →
      (invocation.perform env disk).answered input =
        .ofFailure disk {} (Config.contentFailure env.configPath content)) ∧
    ∀ view config, (performConfig env view config disk action).failure = none ∧
      Config.load (performConfig env view config disk action).disk env.configPath = .ok {} := by
  have hwork := haction.performConfig hwritable
  have hload := Config.load_of_content hread
  cases hcontent : Config.ofContent? content with
  | none =>
      rw [hcontent] at hload
      have hends : (invocation.perform env disk).answered input =
          .ofFailure disk {} (Config.contentFailure env.configPath content) := by
        rw [Invocation.perform_of_load_error hload, Talk.answered_ends]
      refine ⟨?_, fun _ => hends, hwork⟩
      rw [hends]
      constructor
      · intro hrepaired
        cases hrepaired.1
      · intro hsound
        obtain ⟨config, hconfig⟩ := hsound
        cases hconfig
  | some config =>
      rw [hcontent] at hload
      have hends : (invocation.perform env disk).answered input =
          performConfig env (invocation.view env config) config disk action :=
        ConfigCall.perform_eq hload input ⟨invocation, action, hcommand⟩
      refine ⟨?_, fun hnone => absurd hnone (Option.some_ne_none config), hwork⟩
      rw [hends]
      exact iff_of_true (hwork _ config) ⟨config, rfl⟩

/-- A disk with a file `/d/config.toml` that holds a bracket which is not closed. -/
def brokenDisk : Disk :=
  .ofLeaves [("/d/config.toml", .ofContent "[")]

theorem isWritable_brokenDisk : brokenDisk.IsWritable newcomer.configPath := by
  have hparent : newcomer.configPath.parent? = some (Path.ofText "/d") := by cbv
  have hleads : brokenDisk.leadsToDirectory .user (Path.ofText "/d") = true := by cbv
  have hlocate : brokenDisk.locate .user .write newcomer.configPath =
      .ok (.found (.ofText "/d/config.toml")) := by cbv
  refine ⟨brokenDisk, ?_, .found hlocate rfl rfl rfl⟩
  rw [Disk.MakesRoom, hparent]
  exact makeDirectories_of_leads (Or.inr hleads)

/-- A reset, with nothing else on the command line. -/
def resetInvocation : Invocation :=
  ⟨.config .reset, none, false, false, false⟩

/-- Such a file is not repaired by a reset. -/
theorem Invocation.not_repairs_bracket :
    brokenDisk.read newcomer.configPath = .ok (Text.Utf8.encode "[".toList) ∧
      brokenDisk.IsWritable newcomer.configPath ∧
      (resetInvocation.perform newcomer brokenDisk).answered [] =
        .ofFailure brokenDisk {} (.malformedConfig newcomer.configPath) ∧
      ¬ (((resetInvocation.perform newcomer brokenDisk).answered []).failure = none ∧
        Config.load ((resetInvocation.perform newcomer brokenDisk).answered []).disk
          newcomer.configPath = .ok {}) := by
  have hread : brokenDisk.read newcomer.configPath = .ok (Text.Utf8.encode "[".toList) := by cbv
  have hcontent : Config.ofContent? (Text.Utf8.encode "[".toList) = none := by cbv
  have hfailure : Config.contentFailure newcomer.configPath (Text.Utf8.encode "[".toList) =
      .malformedConfig newcomer.configPath := by cbv
  obtain ⟨hiff, hfails, -⟩ := Invocation.repairs_iff [] (rfl : resetInvocation.command = _)
    (Or.inl rfl) hread isWritable_brokenDisk
  refine ⟨hread, isWritable_brokenDisk, hfailure ▸ hfails hcontent, ?_⟩
  rw [hiff, hcontent]
  simp

end Sweep
