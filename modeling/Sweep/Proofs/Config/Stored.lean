import Mathlib.Logic.Function.Basic
import Sweep.Config.Stored
import Sweep.Proofs.Config.Document
import Sweep.Proofs.Disk.Written
import Sweep.Proofs.Utf8
/-!
# The configuration on disk read back

A configuration that is saved in a place where a file can be written is the one that is loaded from
there, and the place can be written again.

A setting is changed by its name. What a configuration holds is given by the texts of its settings,
so a change is an update of one of these.

## Main results

* `Config.load_save` — what is saved is loaded.
* `Config.set_eq_ok_iff` — a change is an update of the setting that it names.
-/

namespace Sweep

open Disk

/-! ## Saving and loading -/

/-- The directories above a path are there or can be made; `made` is the disk with them. -/
def Disk.MakesRoom (disk : Disk) (path : Path) (made : Disk) : Prop :=
  match path.parent? with
  | none => made = disk
  | some directory => disk.makeDirectories .user directory = (made, none)

/-- A place where the user can write a file, with all directories above it, and read it again. -/
def Disk.IsWritable (disk : Disk) (path : Path) : Prop :=
  ∃ made, disk.MakesRoom path made ∧ made.Takes path

/-- Directories that have been made need not be made again. -/
theorem Disk.MakesRoom.again {disk made after : Disk} {path : Path} (h : disk.MakesRoom path made)
    (hkeeps : made.Keeps after) : after.MakesRoom path after := by
  unfold Disk.MakesRoom at h ⊢
  split at h
  · rfl
  · exact makeDirectories_of_leads ((makeDirectories_keeps h).2.imp id hkeeps.leadsToDirectory)

theorem Disk.holds_of_read {disk : Disk} {path : Path} {content : Bytes}
    (h : disk.read path = .ok content) : disk.holds path = true := by
  unfold Disk.read at h
  cases hnode : disk.node .user .reach path with
  | error fault => simp [hnode] at h
  | ok node => simp [Disk.holds, Disk.kind, hnode, Except.map, Except.toOption]

theorem Config.load_of_read {disk : Disk} {path : Path} {config : Config}
    (h : disk.read path = .ok (Text.Utf8.encode config.text.toList)) :
    Config.load disk path = .ok config := by
  have htext : disk.readText path = .ok config.text := by
    rw [Disk.readText, h]
    simp only [Text.Utf8.decode?_encode, String.ofList_toList]
  rw [Config.load, if_pos (Disk.holds_of_read h), htext]
  simp only [Config.ofText?_text]

/-- What is saved in a writable place is loaded, and the place stays writable. -/
theorem Config.load_save {disk : Disk} {path : Path} (h : disk.IsWritable path) (config : Config) :
    ∃ after, config.save disk path = (after, none) ∧ Config.load after path = .ok config ∧
      after.IsWritable path := by
  obtain ⟨made, hroom, htakes⟩ := h
  obtain ⟨after, hwrite, hkeeps, hagain, hread⟩ :=
    write_of_takes htakes (Text.Utf8.encode config.text.toList)
  refine ⟨after, ?_, Config.load_of_read hread, after, hroom.again hkeeps, hagain⟩
  unfold Disk.MakesRoom at hroom
  cases hparent : path.parent? with
  | none =>
      rw [hparent] at hroom
      obtain rfl : made = disk := hroom
      rw [Config.save, hparent]
      simp only [hwrite]
  | some directory =>
      rw [hparent] at hroom
      have hmade : disk.makeDirectories .user directory = (made, none) := hroom
      rw [Config.save, hparent]
      simp only [hmade, hwrite, Option.map_none]

/-! ## Changing a setting -/

/-- The text of a setting, as it is given to change it. -/
def Config.value (config : Config) : Setting → String
  | .rulesFile => config.rulesFile
  | .dryRun => truthText config.dryRun
  | .confirm => truthText config.confirm
  | .format => config.format.word

theorem truthText_injective {a b : Bool} (h : truthText a = truthText b) : a = b := by
  have hread := congrArg truthOfText? h
  rw [truthOfText?_truthText, truthOfText?_truthText] at hread
  exact Option.some.inj hread

theorem truthText_of_truthOfText? {text : String} {truth : Bool}
    (h : truthOfText? text = some truth) : truthText truth = text := by
  unfold truthOfText? at h
  split at h
  · rename_i htrue
    cases h
    exact htrue.symm
  · split at h
    · rename_i hfalse
      cases h
      exact hfalse.symm
    · cases h

theorem Format.word_injective {a b : Format} (h : a.word = b.word) : a = b := by
  have hread := congrArg Format.ofWord? h
  rw [Format.ofWord?_word, Format.ofWord?_word] at hread
  exact Option.some.inj hread

theorem Format.word_of_ofWord? {word : String} {format : Format}
    (h : Format.ofWord? word = some format) : format.word = word := by
  have hfound := List.find?_some h
  exact of_decide_eq_true hfound

theorem Setting.word_of_ofWord? {word : String} {setting : Setting}
    (h : Setting.ofWord? word = some setting) : setting.word = word := by
  have hfound := List.find?_some h
  exact of_decide_eq_true hfound

/-- A configuration is given by the texts of its settings. -/
theorem Config.value_injective {a b : Config} (h : a.value = b.value) : a = b := by
  have hfile : a.rulesFile = b.rulesFile := congrFun h .rulesFile
  have hdry : a.dryRun = b.dryRun := truthText_injective (congrFun h .dryRun)
  have hconfirm : a.confirm = b.confirm := truthText_injective (congrFun h .confirm)
  have hformat : a.format = b.format := Format.word_injective (congrFun h .format)
  cases a
  cases b
  simp_all

/-- What a change that succeeds does to the texts of the settings. -/
theorem Config.value_of_set {config changed : Config} {setting : Setting} {name value : String}
    (hname : Setting.ofWord? name = some setting) (h : config.set name value = .ok changed) :
    changed.value = Function.update config.value setting value := by
  unfold Config.set at h
  rw [hname] at h
  funext other
  cases setting with
  | rulesFile =>
      cases h
      cases other <;> rfl
  | dryRun =>
      cases htruth : truthOfText? value with
      | none => simp [htruth] at h
      | some truth =>
          simp only [htruth, Except.ok.injEq] at h
          rw [← truthText_of_truthOfText? htruth, ← h]
          cases other <;> rfl
  | confirm =>
      cases htruth : truthOfText? value with
      | none => simp [htruth] at h
      | some truth =>
          simp only [htruth, Except.ok.injEq] at h
          rw [← truthText_of_truthOfText? htruth, ← h]
          cases other <;> rfl
  | format =>
      cases hformat : Format.ofWord? value with
      | none => simp [hformat] at h
      | some format =>
          simp only [hformat, Except.ok.injEq] at h
          rw [← Format.word_of_ofWord? hformat, ← h]
          cases other <;> rfl

/-- A text that a setting can have is one that it can be given. -/
theorem Config.set_word_of_value {config changed : Config} {setting : Setting} {value : String}
    (h : changed.value = Function.update config.value setting value) :
    ∃ given, config.set setting.word value = .ok given := by
  have hvalue : changed.value setting = value := by
    rw [h, Function.update_self]
  unfold Config.set
  rw [Setting.ofWord?_word]
  cases setting with
  | rulesFile => exact ⟨_, rfl⟩
  | dryRun =>
      have htruth : truthOfText? value = some changed.dryRun := by
        rw [← hvalue]
        exact truthOfText?_truthText changed.dryRun
      simp only [htruth]
      exact ⟨_, rfl⟩
  | confirm =>
      have htruth : truthOfText? value = some changed.confirm := by
        rw [← hvalue]
        exact truthOfText?_truthText changed.confirm
      simp only [htruth]
      exact ⟨_, rfl⟩
  | format =>
      have hformat : Format.ofWord? value = some changed.format := by
        rw [← hvalue]
        exact Format.ofWord?_word changed.format
      simp only [hformat]
      exact ⟨_, rfl⟩

/-- Changing a setting updates its text to the one that is given, and leaves the others as they are.
It fails if there is no setting of that name, or none of its values has that text. -/
theorem Config.set_eq_ok_iff {config changed : Config} {name value : String} :
    config.set name value = .ok changed ↔
      ∃ setting : Setting, setting.word = name ∧
        changed.value = Function.update config.value setting value := by
  constructor
  · intro h
    cases hname : Setting.ofWord? name with
    | none => simp [Config.set, hname] at h
    | some setting => exact ⟨setting, Setting.word_of_ofWord? hname, Config.value_of_set hname h⟩
  · intro h
    obtain ⟨setting, rfl, hvalue⟩ := h
    obtain ⟨given, hgiven⟩ := Config.set_word_of_value hvalue
    have hsame := Config.value_of_set (Setting.ofWord?_word setting) hgiven
    rw [hgiven, Config.value_injective (hsame.trans hvalue.symm)]

end Sweep
