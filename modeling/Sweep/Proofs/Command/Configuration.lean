import Mathlib
import Sweep.Command.Perform
import Sweep.Proofs.Config.Stored
import Sweep.Proofs.Disk.Spelled
/-!
# The configuration over a history of commands

Each command about the configuration loads it, and shows it, changes it or puts the default one in
its place; what has changed is saved. A disk is *configured* if it has a configuration that can be
loaded, in a place that can be written. One command keeps a disk configured, and so does any history
of commands, in which the configuration is what the commands that succeeded make of it.

## Main results

* `Disk.Configured.performConfig` — what one command does to the configuration.
* `ConfigCall.load_after_turns` — what a history of commands does to it.
-/

namespace Sweep

open Disk

/-- What a command makes of the configuration. -/
def ConfigAction.apply (config : Config) : ConfigAction → Except SettingFault Config
  | .display => .ok config
  | .reset => .ok {}
  | .init => .ok {}
  | .set name value => config.set name value

/-- A disk with a configuration that can be loaded, in a place that can be written. -/
structure Disk.Configured (disk : Disk) (path : Path) (config : Config) : Prop where
  loads : Config.load disk path = .ok config
  writable : disk.IsWritable path

/-! ## One command -/

theorem performSave_configured {env : Environment} {disk : Disk}
    (h : disk.IsWritable env.configPath) (view : View) (config : Config) (news : String) :
    (performSave env view disk config news).failure = none ∧
      (performSave env view disk config news).disk.Configured env.configPath config := by
  obtain ⟨after, hsave, hload, hwritable⟩ := Config.load_save h config
  unfold performSave
  rw [hsave]
  exact ⟨rfl, hload, hwritable⟩

/-- One command keeps a disk configured, with what it makes of the configuration. If it makes nothing
of it, it fails and leaves the disk as it is. -/
theorem Disk.Configured.performConfig {env : Environment} {disk : Disk} {config : Config}
    (h : disk.Configured env.configPath config) (view : View) (action : ConfigAction) :
    match action.apply config with
    | .ok changed => (performConfig env view config disk action).failure = none ∧
        (performConfig env view config disk action).disk.Configured env.configPath changed
    | .error fault => performConfig env view config disk action =
        .ofFailure disk {} (.badSetting env.configPath fault) := by
  cases action with
  | display => exact ⟨rfl, h⟩
  | reset => exact performSave_configured h.writable view {} _
  | init => exact performSave_configured h.writable view {} _
  | set name value =>
      have happly : ConfigAction.apply config (.set name value) = config.set name value := rfl
      unfold Sweep.performConfig
      cases hset : config.set name value with
      | error fault => simp only [happly, hset]
      | ok changed =>
          simp only [happly, hset]
          exact performSave_configured h.writable view changed _

/-! ## A history of commands -/

/-- An invocation that is about the configuration. -/
structure ConfigCall where
  invocation : Invocation
  action : ConfigAction
  isConfig : invocation.command = .config action

/-- A command that has been carried out. -/
structure ConfigTurn where
  call : ConfigCall
  /-- The disk that it met. -/
  disk : Disk
  ending : Ending

def ConfigTurn.succeeded (turn : ConfigTurn) : Bool :=
  turn.ending.failure.isNone

/-- A turn does what its command makes of a configuration, or fails and leaves the disk as it is. -/
def ConfigTurn.Heeds (turn : ConfigTurn) (path : Path) (config : Config) : Prop :=
  match turn.call.action.apply config with
  | .ok changed => turn.ending.failure = none ∧ Config.load turn.ending.disk path = .ok changed
  | .error fault =>
    turn.ending.failure = some (.badSetting path fault) ∧ turn.ending.disk = turn.disk

/-- Carries out commands one after the other. -/
def ConfigCall.turns (env : Environment) (input : Bytes) (disk : Disk) :
    List ConfigCall → List ConfigTurn
  | [] => []
  | call :: rest =>
    let ending := (call.invocation.perform env disk).answered input
    ⟨call, disk, ending⟩ :: turns env input ending.disk rest

/-- The disk when commands have been carried out. -/
def Disk.afterTurns (disk : Disk) (turns : List ConfigTurn) : Disk :=
  turns.foldl (fun _ turn => turn.ending.disk) disk

theorem ConfigCall.perform_eq {env : Environment} {disk : Disk} {config : Config}
    (hload : Config.load disk env.configPath = .ok config) (input : Bytes) (call : ConfigCall) :
    (call.invocation.perform env disk).answered input =
      performConfig env (call.invocation.view env config) config disk call.action := by
  unfold Invocation.perform
  rw [hload]
  simp only [call.isConfig, Talk.answered_ends]

/-- What one command of a history does. -/
theorem Disk.Configured.perform {env : Environment} {disk : Disk} {config : Config}
    (h : disk.Configured env.configPath config) (input : Bytes) (call : ConfigCall) :
    ∃ next, ((call.invocation.perform env disk).answered input).disk.Configured env.configPath next ∧
      (⟨call, disk, (call.invocation.perform env disk).answered input⟩ : ConfigTurn).Heeds
        env.configPath config ∧
      (((call.invocation.perform env disk).answered input).failure = none ∧
          call.action.apply config = .ok next ∨
        ((call.invocation.perform env disk).answered input).failure ≠ none ∧ next = config) := by
  have hdone := h.performConfig (call.invocation.view env config) call.action
  rw [call.perform_eq h.loads input]
  unfold ConfigTurn.Heeds
  cases happly : call.action.apply config with
  | ok changed =>
      rw [happly] at hdone
      exact ⟨changed, hdone.2, ⟨hdone.1, hdone.2.loads⟩, Or.inl ⟨hdone.1, rfl⟩⟩
  | error fault =>
      rw [happly] at hdone
      simp only at hdone
      rw [hdone]
      exact ⟨config, h, ⟨rfl, rfl⟩, Or.inr ⟨by simp [Ending.ofFailure], rfl⟩⟩

/-- After any history of commands the configuration is what the commands that succeeded make of
it, one after the other. -/
theorem Disk.Configured.turns {env : Environment} {disk : Disk} {config : Config}
    (h : disk.Configured env.configPath config) (input : Bytes) (calls : List ConfigCall) :
    (∃ final, (disk.afterTurns (ConfigCall.turns env input disk calls)).Configured env.configPath
        final ∧
      ((ConfigCall.turns env input disk calls).filter (·.succeeded)).foldlM
        (fun current turn => turn.call.action.apply current) config = .ok final) ∧
      ∀ turn ∈ ConfigCall.turns env input disk calls, ∃ current,
        Config.load turn.disk env.configPath = .ok current ∧
          turn.Heeds env.configPath current := by
  induction calls generalizing disk config with
  | nil =>
      refine ⟨⟨config, h, rfl⟩, ?_⟩
      intro turn hturn
      cases hturn
  | cons call rest ih =>
      obtain ⟨next, hnext, hheeds, hwhich⟩ := h.perform input call
      obtain ⟨⟨final, hfinal, hfold⟩, hrest⟩ := ih hnext
      refine ⟨⟨final, hfinal, ?_⟩, ?_⟩
      · rw [ConfigCall.turns]
        rcases hwhich with ⟨hsuccess, happly⟩ | ⟨hfailure, rfl⟩
        · rw [List.filter_cons_of_pos (by simp [ConfigTurn.succeeded, hsuccess]), List.foldlM_cons,
            happly]
          exact hfold
        · rw [List.filter_cons_of_neg (by simp [ConfigTurn.succeeded, hfailure])]
          exact hfold
      · intro turn hturn
        rcases List.mem_cons.1 hturn with rfl | hlater
        · exact ⟨config, h.loads, hheeds⟩
        · exact hrest turn hlater

/-- The configuration survives any history of commands, and any configuration survives being saved
and loaded. From one that can be loaded, in a place that can be written, each command makes of it
what it should or fails and leaves the disk as it is, and in the end it is what the commands that
succeeded made of it. A setting is changed to a text that it can have, and no other one is. -/
theorem ConfigCall.load_after_turns {env : Environment} {disk : Disk} {config : Config}
    (input : Bytes) (calls : List ConfigCall)
    (hload : Config.load disk env.configPath = .ok config)
    (hwritable : disk.IsWritable env.configPath) :
    (∃ final, Config.load (disk.afterTurns (ConfigCall.turns env input disk calls)) env.configPath =
        .ok final ∧
      ((ConfigCall.turns env input disk calls).filter (·.succeeded)).foldlM
        (fun current turn => turn.call.action.apply current) config = .ok final) ∧
      (∀ turn ∈ ConfigCall.turns env input disk calls, ∃ current,
        Config.load turn.disk env.configPath = .ok current ∧ turn.Heeds env.configPath current) ∧
      (∀ (current changed : Config) (name value : String),
        current.set name value = .ok changed ↔ ∃ setting : Setting, setting.word = name ∧
          changed.value = Function.update current.value setting value) ∧
      ∀ (saved : Config) (place : Disk) (path : Path), place.IsWritable path →
        ∃ after, saved.save place path = (after, none) ∧ Config.load after path = .ok saved := by
  obtain ⟨⟨final, hfinal, hfold⟩, hturns⟩ :=
    Disk.Configured.turns ⟨hload, hwritable⟩ input calls
  refine ⟨⟨final, hfinal.loads, hfold⟩, hturns, fun _ _ _ _ => Config.set_eq_ok_iff, ?_⟩
  intro saved place path hplace
  obtain ⟨after, hsave, hloads, -⟩ := Config.load_save hplace saved
  exact ⟨after, hsave, hloads⟩

/-- A user whose data is in `/d`. -/
def newcomer : Environment where
  home := none
  dataHome := some (Path.ofText "/d")
  rulesFile := none
  forcesColor := false

def emptyDisk : Disk := ⟨.directory .ofDirectory [], []⟩

theorem isWritable_emptyDisk : emptyDisk.IsWritable newcomer.configPath := by
  have hparent : newcomer.configPath.parent? = some (Path.ofText "/d") := by cbv
  have hlocate : (Disk.ofLeaves [("/d", .empty)]).locate .user .write newcomer.configPath =
      .ok (.vacant (.ofText "/d") (.ofText "config.toml")) := by cbv
  refine ⟨_, ?_, .vacant hlocate rfl rfl rfl⟩
  rw [Disk.MakesRoom, hparent]
  simp only
  rw [makeDirectories]
  cbv

/-- A rule file with both kinds of quotes in its name, and then a truth that is none. -/
def quotesThenMaybe : List ConfigCall :=
  [⟨⟨.config (.set "default_rules_file" "a'\""), none, false, false, false⟩, _, rfl⟩,
    ⟨⟨.config (.set "dry_run" "maybe"), none, false, false, false⟩, _, rfl⟩]

/-- The first of two changes succeeds and the second one fails. -/
theorem ConfigCall.load_after_turns_of_quotes :
    Config.load (emptyDisk.afterTurns (ConfigCall.turns newcomer [] emptyDisk quotesThenMaybe))
      newcomer.configPath = .ok { rulesFile := "a'\"" } := by
  have hmissing : Config.load emptyDisk newcomer.configPath = .ok {} :=
    Config.load_of_missing (by cbv)
  obtain ⟨-, hturns, -, -⟩ :=
    ConfigCall.load_after_turns [] quotesThenMaybe hmissing isWritable_emptyDisk
  obtain ⟨current, hcurrent, hfirst⟩ := hturns _ List.mem_cons_self
  obtain ⟨later, hlater, hsecond⟩ := hturns _ (List.mem_cons_of_mem _ List.mem_cons_self)
  cases hcurrent.symm.trans hmissing
  obtain ⟨-, hquotes⟩ := hfirst
  cases hlater.symm.trans hquotes
  obtain ⟨-, hsame⟩ := hsecond
  rw [← hquotes]
  exact congrArg (Config.load · newcomer.configPath) hsame

end Sweep
