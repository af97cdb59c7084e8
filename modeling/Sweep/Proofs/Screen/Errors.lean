import Mathlib
import Sweep.Proofs.Scan.Evaluated
import Sweep.Proofs.Spelling
import Sweep.Proofs.Stripped
import Sweep.Proofs.Utf8
import Sweep.Screen.Listing
/-!
# Errors that people read

The report of a scan holds its errors, but the screen shows them only below the matches. A report
without matches is cut short before: it says that all is tidy, and what could not be walked is lost.
No removal can fail without a match, so an error of a removal is never lost.

That an error is nowhere on the screen has to be told from what the screen does show there, and the
root is a path of any spelling. A letter is counted for that. Each error holds it twice in its own
words and as often again as its path spells it, which begins with the root; of the other words on
the screen only a duration can hold it, and only once, where it is infinite.

## Main results

* `weight_headLines_le`, `lt_weight_errorText` — how often the letter stands in a report and in an
  error.
* `shows_errorLines` — the errors stand below the matches.
* `ofReport_shows_errors` — a report shows each error of its scan if and only if something matched.
-/

namespace Sweep

open Disk

namespace Screen

/-! ## Texts on the screen -/

/-- A text stands on the screen. -/
def Shows (screen text : String) : Prop :=
  text.toList <:+: screen.toList

theorem Shows.trans {screen line text : String} (h : Shows screen line) (h' : Shows line text) :
    Shows screen text :=
  List.IsInfix.trans h' h

theorem shows_append (front text back : String) : Shows (front ++ text ++ back) text :=
  ⟨front.toList, back.toList, by simp⟩

theorem ofLines_append (lines more : List String) :
    ofLines (lines ++ more) = ofLines lines ++ ofLines more := by
  simp [ofLines]

theorem shows_of_mem {line : String} {lines : List String} (h : line ∈ lines) :
    Shows (ofLines lines) line := by
  obtain ⟨front, back, rfl⟩ := List.append_of_mem h
  have hsplit : ofLines (front ++ line :: back) = ofLines front ++ line ++ ("\n" ++ ofLines back) := by
    rw [ofLines_append, String.append_assoc]
    simp [ofLines, String.append_assoc]
  rw [hsplit]
  exact shows_append ..

/-! ## A letter on the screen -/

/-- How often a text holds the letter that all errors hold. -/
def weight (text : String) : Nat :=
  text.toList.count 'f'

@[simp] theorem weight_append (text more : String) :
    weight (text ++ more) = weight text + weight more := by
  simp [weight]

/-- A heavier text is nowhere on the screen. -/
theorem not_shows_of_weight_lt {screen text : String} (h : weight screen < weight text) :
    ¬ Shows screen text := by
  intro hshows
  have hle : weight text ≤ weight screen := List.Sublist.count_le 'f' hshows.sublist
  omega

@[simp] theorem weight_ofLines (lines : List String) :
    weight (ofLines lines) = (lines.map weight).sum := by
  induction lines with
  | nil => rfl
  | cons line rest ih =>
      have hcons : ofLines (line :: rest) = line ++ "\n" ++ ofLines rest := by simp [ofLines]
      have hend : weight "\n" = 0 := by decide
      rw [hcons, weight_append, weight_append, hend, ih, List.map_cons, List.sum_cons]
      rfl

/-- No whole number holds the letter. -/
@[simp] theorem weight_toString (n : Nat) : weight (toString n) = 0 := by
  apply List.count_eq_zero.2
  intro hmem
  rw [Nat.toString_eq_repr, Nat.toList_repr] at hmem
  exact absurd (Nat.isDigit_of_mem_toDigits (by decide) (by decide) hmem) (by decide)

theorem weight_pointed (places n : ℕ) : weight (Number.Binary64.pointed places n) = 0 := by
  have hpoint : weight "." = 0 := by decide
  have hzeros : ∀ count, weight (String.ofList (List.replicate count '0')) = 0 := by
    intro count
    rw [weight, String.toList_ofList, List.count_replicate]
    rfl
  unfold Number.Binary64.pointed
  split
  · exact weight_toString n
  · simp only [weight_append, weight_toString, hpoint, hzeros]

/-- Of the numbers with a fixed number of decimal places only an infinity holds the letter. -/
theorem weight_toFixed_le (places : ℕ) (x : Number.Binary64) : weight (x.toFixed places) ≤ 1 := by
  cases x with
  | nan =>
      have hnan : weight "NaN" = 0 := by decide
      rw [Number.Binary64.toFixed, hnan]
      omega
  | infinite negative =>
      show weight (if negative then "-inf" else "inf") ≤ 1
      cases negative <;> decide
  | finite negative m e =>
      have hsign : weight (if negative then "-" else "") = 0 := by cases negative <;> decide
      rw [Number.Binary64.toFixed, weight_append, hsign, weight_pointed]
      omega

theorem weight_displayDuration_le (seconds : Number.Binary64) :
    weight (displayDuration seconds) ≤ 1 := by
  have hunits : weight "ms" = 0 ∧ weight "s" = 0 ∧ weight "m " = 0 := by decide
  obtain ⟨hmillis, hseconds, hminutes⟩ := hunits
  unfold displayDuration
  split
  · have hle := weight_toFixed_le 0 (seconds.mulNat 1000)
    rw [weight_append, hmillis]
    omega
  · split
    · have hle := weight_toFixed_le 1 seconds
      rw [weight_append, hseconds]
      omega
    · simp only [weight_append, weight_toString, hminutes, hseconds, Nat.zero_add, Nat.add_zero]
      exact weight_toFixed_le 0 _

theorem count_renew {code : List Char} (hcode : code.count 'f' = 0) (text : List Char) :
    (Style.renew code text).count 'f' = text.count 'f' := by
  fun_induction Style.renew code text with
  | case1 rest ih =>
      have hreset : Style.reset.toList.count 'f' = 0 := by decide
      simp [List.count_append, hreset, hcode, ih]
  | case2 c rest hc ih => simp [List.count_cons, ih]
  | case3 => rfl

/-- No code of a style holds the letter. -/
@[simp] theorem weight_paint (colored : Bool) (style : Style) (text : String) :
    weight (paint colored style text) = weight text := by
  cases colored with
  | false => rfl
  | true =>
      have hcode : style.code.toList.count 'f' = 0 := by cases style <;> decide
      have hreset : weight Style.reset = 0 := by decide
      have hbegin : weight style.code = 0 := hcode
      have htext : weight (String.ofList (Style.renew style.code.toList text.toList)) =
          weight text := by
        rw [weight, String.toList_ofList]
        exact count_renew hcode text.toList
      rw [paint, if_pos rfl, weight_append, weight_append, htext, hbegin, hreset]
      omega

/-! ## The letter in paths -/

/-- How often the steps of a path spell the letter. -/
def pathWeight (path : Path) : Nat :=
  path.steps.flatten.count 0x66

theorem count_join (steps : List Bytes) :
    (Text.join [slash] steps).count 0x66 = steps.flatten.count 0x66 := by
  induction steps with
  | nil => rfl
  | cons step rest ih =>
      cases rest with
      | nil => simp [Text.join]
      | cons next rest =>
          have hslash : [slash].count 0x66 = 0 := by decide
          rw [Text.join, List.count_append, List.count_append, ih, hslash, Nat.add_zero,
            ← List.count_append, ← List.flatten_cons]

theorem weight_text (path : Path) : weight path.text = pathWeight path := by
  have hfront : (if path.rooted then [slash] else []).count 0x66 = 0 := by
    split <;> decide
  rw [weight, Path.text, String.toList_ofList, Text.Utf8.count_lossy (by decide) (by decide)]
  show path.bytes.count 0x66 = _
  rw [Path.bytes, List.count_append, hfront, count_join, pathWeight, Nat.zero_add]

theorem pathWeight_le_of_sublist {path other : Path} (h : path.steps.Sublist other.steps) :
    pathWeight path ≤ pathWeight other :=
  List.Sublist.count_le _ h.flatten

theorem pathWeight_le_of_contains {outer inner : Path} (h : outer.Contains inner) :
    pathWeight outer ≤ pathWeight inner :=
  pathWeight_le_of_sublist h.2.sublist

theorem pathWeight_trimEnd_le (path : Path) : pathWeight path.trimEnd ≤ pathWeight path := by
  unfold Path.trimEnd
  simp only
  split
  · exact Nat.zero_le _
  · exact pathWeight_le_of_sublist (Path.dropIdleEnd_prefix path.steps).sublist

theorem pathWeight_stripFront_le {path base rest : Path} (h : path.stripFront? base = some rest) :
    pathWeight rest ≤ pathWeight path := by
  unfold Path.stripFront? at h
  simp only at h
  split at h
  · split at h
    · cases h
      exact pathWeight_trimEnd_le path
    · cases h
      exact pathWeight_le_of_sublist
        ((Path.dropIdleEnd_prefix _).sublist.trans (Path.dropCounting_sublist _ _))
  · cases h

/-- A path is shown with no more than it spells. -/
theorem weight_displayPath_le (home : Option Path) (path : Path) :
    weight (displayPath home path) ≤ pathWeight path := by
  unfold displayPath
  split
  · exact Nat.le_of_eq (weight_text path)
  · split
    · exact Nat.le_of_eq (weight_text path)
    · rename_i rest hstrip
      have htilde : weight "~/" = 0 := by decide
      have hle := pathWeight_stripFront_le hstrip
      rw [weight_append, htilde, weight_text]
      omega

/-! ## The letter in reports -/

/-- Above the matches, only the root and the duration may hold the letter. -/
theorem weight_headLines_le (colored : Bool) (home : Option Path) (report : Report) :
    weight (ofLines (headLines colored home report)) ≤ pathWeight report.root + 1 := by
  have hruler : weight (rulerLine colored) = 0 := by
    rw [rulerLine, weight_paint, weight, String.toList_ofList, List.count_replicate]
    decide
  have htitle : weight ("🧹  " ++
      if report.dryRun then "TidyRules Dry Run" else "TidyRules Cleanup") = 0 := by
    cases report.dryRun <;> decide
  have hduration := weight_displayDuration_le report.seconds
  have hwords : weight "" = 0 ∧ weight "  " = 0 ∧ weight "  •  " = 0 ∧ weight " rules" = 0 ∧
      weight " checks" = 0 := by decide
  obtain ⟨hnone, hspaces, hdot, hrules, hchecks⟩ := hwords
  rw [headLines, weight_ofLines]
  simp only [List.map_cons, List.map_nil, List.sum_cons, List.sum_nil, htitle, hruler, hnone,
    weight_append, weight_paint, weight_toString, hspaces, hdot, hrules, hchecks]
  have hpath := weight_displayPath_le home report.root
  omega

theorem message_walking (path : Path) (fault : Fault) :
    (Trouble.walking path fault).message =
      "IO error for operation on " ++ path.text ++ ": " ++ fault.message := rfl

/-- An error of the walk holds the letter twice more than its path. -/
theorem lt_weight_errorText (home : Option Path) (phase : Phase) (path : Path) (fault : Fault) :
    pathWeight path + 1 < weight (Report.errorText home phase path (.walking path fault)) := by
  have hfailed : weight " failed for " = 2 := by decide
  rw [Report.errorText, message_walking]
  simp only [weight_append, weight_text, hfailed]
  omega

/-- What stands on the screen of a report without matches holds no more than its root and its
duration. -/
theorem weight_ofReport_le {report : Report} (hnone : report.paths = []) (colored detailed : Bool)
    (home : Option Path) :
    weight (ofReport colored detailed home report) ≤ pathWeight report.root + 1 := by
  have hempty : report.paths.isEmpty = true := by rw [hnone, List.isEmpty_nil]
  have hhead := weight_headLines_le colored home report
  have htidy : weight "  ✨ Nothing matched. Already tidy!" = 0 := by decide
  have hnothing : weight "" = 0 := by decide
  rw [ofReport, if_pos hempty, ofLines_append, weight_append]
  simp only [weight_ofLines ["  ✨ Nothing matched. Already tidy!", ""], List.map_cons, List.map_nil,
    List.sum_cons, List.sum_nil, htidy, hnothing]
  omega

/-! ## Errors below the matches -/

theorem shows_of_mem_errorLines {colored : Bool} {report : Report} {error : String}
    (h : error ∈ report.errors) :
    Shows (ofLines (errorLines colored report)) (paint colored .dimmed error) := by
  have hne : report.errors.isEmpty = false := by
    rw [List.isEmpty_eq_false_iff]
    exact List.ne_nil_of_mem h
  have hline : "    " ++ paint colored .dimmed "→" ++ " " ++ paint colored .dimmed error ∈
      errorLines colored report := by
    rw [errorLines, hne]
    apply List.mem_cons_of_mem
    apply List.mem_append_left
    exact List.mem_map_of_mem h
  apply (shows_of_mem hline).trans
  have hend := shows_append ("    " ++ paint colored .dimmed "→" ++ " ")
    (paint colored .dimmed error) ""
  rwa [String.append_empty] at hend

/-- Where something matched, the errors stand below the matches. -/
theorem shows_errorLines {report : Report} (hsome : report.paths ≠ []) (colored detailed : Bool)
    (home : Option Path) :
    Shows (ofReport colored detailed home report) (ofLines (errorLines colored report)) := by
  have hne : report.paths.isEmpty = false := by simpa using hsome
  have hparts : ofReport colored detailed home report =
      ofLines (headLines colored home report ++ pathLines colored detailed home report) ++
        ofLines (errorLines colored report) ++ ofLines (tailLines colored report) := by
    rw [ofReport, hne]
    simp only [Bool.false_eq_true, if_false, ofLines_append, String.append_assoc]
  rw [hparts]
  exact shows_append ..

end Screen

/-! ## Errors of a scan -/

section Scan

variable (observer : Observer) (mode : Mode) (disk : Disk) (root : Path) (rules : List Rule)

/-- Where nothing matched each error is too heavy for the screen. -/
theorem weight_lt_of_mem_errors (hnone : (scan observer mode disk root rules).found = [])
    (home : Option Path) (dryRun colored detailed : Bool) (seconds : Number.Binary64) {error : String}
    (h : error ∈ (Report.ofEvents home dryRun (scan observer mode disk root rules).events).errors) :
    Screen.weight (Screen.ofReport colored detailed home
      { Report.ofEvents home dryRun (scan observer mode disk root rules).events with
        seconds := seconds }) < Screen.weight error := by
  obtain ⟨report, hreport⟩ : ∃ report : Report, report =
      { Report.ofEvents home dryRun (scan observer mode disk root rules).events with
        seconds := seconds } := ⟨_, rfl⟩
  have hpaths : report.paths = [] := by
    rw [hreport, ← hnone]
    exact paths_ofEvents_observed observer mode disk root rules home dryRun
  have hroot : report.root = disk.absolutize root := by
    rw [hreport]
    exact root_ofEvents_scan observer mode disk root rules home dryRun
  have hscreen := Screen.weight_ofReport_le hpaths colored detailed home
  rw [hroot] at hscreen
  rw [← hreport]
  obtain ⟨phase, path, trouble, hevent, rfl⟩ := Report.mem_errors_iff.1 h
  rcases failed_mem_events_scan observer mode disk root rules hevent with
    ⟨-, fault, rfl⟩ | ⟨-, hfound⟩
  · have hbelow : (disk.absolutize root).Contains path :=
      ((scan_within observer mode disk root rules).1 _ hevent).contains (Path.isFolded_fold _)
    have hpath := Screen.pathWeight_le_of_contains hbelow
    have herror := Screen.lt_weight_errorText home phase path fault
    omega
  · rw [hnone] at hfound
    cases hfound

/-- A report for people shows each error of its scan if and only if something matched, however long the
scan took. Then the errors
stand below the matches, as many as there are. Where nothing matched no error is on the screen, in
whatever style, although the directories that could not be walked may hold matches. An error of a
removal is always shown. -/
theorem ofReport_shows_errors (home : Option Path) (dryRun colored detailed : Bool)
    (seconds : Number.Binary64) :
    let outcome := scan observer mode disk root rules
    let report := { Report.ofEvents home dryRun outcome.events with seconds := seconds }
    let screen := Screen.ofReport colored detailed home report
    (∀ error ∈ report.errors,
      (Screen.Shows screen (paint colored .dimmed error) ↔ outcome.found ≠ []) ∧
        (outcome.found = [] → ¬ Screen.Shows screen error)) ∧
      (outcome.found ≠ [] →
        Screen.Shows screen (Screen.ofLines (Screen.errorLines colored report))) ∧
      ∀ path trouble, .failed .deletion path trouble ∈ outcome.events →
        Screen.Shows screen
          (paint colored .dimmed (Report.errorText home .deletion path trouble)) := by
  intro outcome report screen
  have hpaths : report.paths = outcome.found :=
    paths_ofEvents_observed observer mode disk root rules home dryRun
  have hheavy : outcome.found = [] → ∀ error ∈ report.errors,
      Screen.weight screen < Screen.weight error := fun hnone error herror =>
    weight_lt_of_mem_errors observer mode disk root rules hnone home dryRun colored detailed seconds
      herror
  have hblock : outcome.found ≠ [] →
      Screen.Shows screen (Screen.ofLines (Screen.errorLines colored report)) := fun hsome =>
    Screen.shows_errorLines (hpaths ▸ hsome) colored detailed home
  have hshown : outcome.found ≠ [] → ∀ error ∈ report.errors,
      Screen.Shows screen (paint colored .dimmed error) := fun hsome error herror =>
    (hblock hsome).trans (Screen.shows_of_mem_errorLines herror)
  refine ⟨?_, hblock, ?_⟩
  · intro error herror
    refine ⟨⟨?_, fun hsome => hshown hsome error herror⟩, ?_⟩
    · intro hshows hnone
      have hlt := hheavy hnone error herror
      rw [← Screen.weight_paint colored .dimmed error] at hlt
      exact Screen.not_shows_of_weight_lt hlt hshows
    · intro hnone
      exact Screen.not_shows_of_weight_lt (hheavy hnone error herror)
  · intro path trouble hevent
    rcases failed_mem_events_scan observer mode disk root rules hevent with ⟨h, -⟩ | ⟨-, hfound⟩
    · cases h
    · have herror : Report.errorText home .deletion path trouble ∈ report.errors :=
        Report.mem_errors_iff.2 ⟨.deletion, path, trouble, hevent, rfl⟩
      exact hshown (List.ne_nil_of_mem hfound) _ herror

end Scan

/-- A disk with a directory `/w/d` that nobody may read, with a file `x` in it. -/
def sealedDisk : Disk :=
  .ofLeaves [("/w/d", .directory ⟨false, false, false⟩ []), ("/w/d/x", .ofContent "")]

/-- A dry scan for `x` tells that it could not look there, and finds nothing. -/
example :
    let outcome := scan .idle .dry sealedDisk (Path.ofText "/w") [⟨.delete, ⟨"x"⟩, none⟩]
    outcome.found = [] ∧
      outcome.events = [.started (Path.ofText "/w") 1,
        .failed .traversal (Path.ofText "/w/d") (.walking (Path.ofText "/w/d") .denied),
        .entered (Path.ofText "/w"), .finished (Path.ofText "/w") 0] := by
  simp only [scan_eq_scanToDepth]
  constructor <;> cbv

end Sweep
