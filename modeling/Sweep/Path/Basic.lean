import Sweep.Text.Split
import Sweep.Text.Utf8
/-!
# Paths as they are written

A path is kept as it was spelled: whether it begins at the root, and the *steps* between its
slashes, empty ones included. So nothing is lost by reading a path, and the spelling can be shown
again. Paths are compared by their *components*: empty steps and `.` do not count, except for a `.`
at the very front of a path that does not begin at the root.

A `Path` is only a spelling. What it leads to on a disk is a matter of `Sweep.Disk`.

## Main results

* `bytes_ofBytes` — a path is its spelling.
* `length_bytes_child` — the path of an entry is longer than that of its directory.
* `length_parent?_lt` — a path above a path has fewer steps, so there are finitely many of them.
-/

namespace Sweep

/-- Bytes of a name or of a path. -/
abbrev Bytes := List UInt8

/-- The byte that separates steps. -/
def slash : UInt8 := 0x2F

/-- The step that stays where it is. -/
def dot : Bytes := [0x2E]

/-- The step that leads one directory up. -/
def dotDot : Bytes := [0x2E, 0x2E]

/-- A path as it is spelled. -/
structure Path where
  /-- Whether it begins with a slash. -/
  rooted : Bool
  /-- What stands between the slashes that follow; no steps if nothing follows. -/
  steps : List Bytes
deriving DecidableEq, Repr, Inhabited

namespace Path

/-- The path at the root. -/
def root : Path := ⟨true, []⟩

/-- The path that spells nothing. -/
def empty : Path := ⟨false, []⟩

/-- Reads steps: nothing has none. -/
def stepsOfBytes (bytes : Bytes) : List Bytes :=
  if bytes = [] then [] else Text.split (· == slash) bytes

/-- Reads a path. -/
def ofBytes : Bytes → Path
  | [] => empty
  | byte :: rest =>
    if byte = slash then ⟨true, stepsOfBytes rest⟩ else ⟨false, stepsOfBytes (byte :: rest)⟩

/-- The spelling of a path. -/
def bytes (path : Path) : Bytes :=
  (if path.rooted then [slash] else []) ++ Text.join [slash] path.steps

/-- Reads a path from text. -/
def ofText (text : String) : Path :=
  ofBytes (Text.Utf8.encode text.toList)

/-- A path as text, with replacement characters where it is not UTF-8. -/
def text (path : Path) : String :=
  String.ofList (Text.Utf8.lossy path.bytes)

/-- A path as text, if it is UTF-8. -/
def text? (path : Path) : Option String :=
  (Text.Utf8.decode? path.bytes).map String.ofList

theorem join_stepsOfBytes (bytes : Bytes) : Text.join [slash] (stepsOfBytes bytes) = bytes := by
  unfold stepsOfBytes
  split
  · simp_all [Text.join]
  · exact Text.join_split slash bytes

/-- A path is its spelling. -/
@[simp] theorem bytes_ofBytes (bytes : Bytes) : (ofBytes bytes).bytes = bytes := by
  cases bytes with
  | nil => rfl
  | cons byte rest =>
    rw [ofBytes]
    split
    · simp_all [Path.bytes, join_stepsOfBytes]
    · simp [Path.bytes, join_stepsOfBytes]

/-- How many bytes the spelling has. -/
def length (path : Path) : Nat :=
  path.bytes.length

/-! ## Longer paths -/

/-- Steps with one more at the end; it takes the place of an empty last step. -/
def pushStep (steps : List Bytes) (step : Bytes) : List Bytes :=
  if steps.getLast? = some [] then steps.dropLast ++ [step] else steps ++ [step]

/-- The path of the entry with a given name in the directory at a path. -/
def child (path : Path) (name : Bytes) : Path :=
  { path with steps := pushStep path.steps name }

theorem join_append_singleton {α : Type} (sep : List α) {xs : List (List α)} (h : xs ≠ [])
    (x : List α) : Text.join sep (xs ++ [x]) = Text.join sep xs ++ sep ++ x := by
  induction xs with
  | nil => exact absurd rfl h
  | cons y ys ih =>
    cases ys with
    | nil => simp [Text.join]
    | cons z zs => simpa [Text.join] using ih (by simp)

/-- The path of an entry is longer than that of its directory. -/
theorem length_bytes_child (path : Path) {name : Bytes} (h : name ≠ []) :
    path.length < (path.child name).length := by
  have hname : 0 < name.length := List.length_pos_iff.2 h
  simp only [length, bytes, child, pushStep, List.length_append]
  refine Nat.add_lt_add_left ?_ _
  split
  · rename_i hlast
    have hsteps : path.steps = path.steps.dropLast ++ [[]] := by
      obtain ⟨init, hinit⟩ := List.getLast?_eq_some_iff.1 hlast
      simp [hinit]
    by_cases hinit : path.steps.dropLast = []
    · rw [hsteps, hinit]
      simpa [Text.join] using hname
    · rw [hsteps]
      simp only [List.dropLast_concat]
      rw [join_append_singleton _ hinit, join_append_singleton _ hinit]
      simpa using hname
  · by_cases hsteps : path.steps = []
    · simpa [hsteps, Text.join] using hname
    · rw [join_append_singleton _ hsteps]
      simp [slash]

/-- The path that a path leads to when it is taken from the directory at `base`: itself if it begins
at the root, and otherwise its spelling after that of `base`, with one slash between. -/
def join (base path : Path) : Path :=
  if path.rooted then path
  else if base = empty then path
  else if base.steps.getLast? = some [] || base.steps = [] then
    { base with steps := base.steps.dropLast ++
        (if path.steps = [] && base.steps ≠ [] then [[]] else path.steps) }
  else { base with steps := base.steps ++ (if path.steps = [] then [[]] else path.steps) }

/-! ## Components -/

/-- What a path is made of when it is compared. -/
inductive Component where
  /-- The slash at the front. -/
  | root
  /-- A dot at the front of a path that does not begin at the root. -/
  | current
  | up
  | name (bytes : Bytes)
deriving DecidableEq, Repr

/-- Whether a step counts as no component. -/
def isIdle (step : Bytes) : Bool :=
  step = [] || step = dot

/-- The component of a step that counts. -/
def componentOfStep (step : Bytes) : Component :=
  if step = dotDot then .up else .name step

/-- Whether a path begins with a dot that counts. -/
def beginsCurrent (path : Path) : Bool :=
  !path.rooted && path.steps.head? = some dot

/-- The component at the front that no step after it gives. -/
def head (path : Path) : List Component :=
  if path.rooted then [.root] else if path.beginsCurrent then [.current] else []

def components (path : Path) : List Component :=
  path.head ++ (path.steps.filter (!isIdle ·)).map componentOfStep

/-- Whether two paths are the same but for idle steps. -/
def sameAs (a b : Path) : Bool :=
  a.components = b.components

/-! ## Shorter paths -/

/-- Whether a path ends with a slash after some step. -/
def endsSlash (path : Path) : Bool :=
  path.steps.getLast? = some []

/-- Steps without the empty ones at the end. -/
def dropSlashEnd (steps : List Bytes) : List Bytes :=
  (steps.reverse.dropWhile (· = [])).reverse

/-- Steps without the idle ones at the end. -/
def dropIdleEnd (steps : List Bytes) : List Bytes :=
  (steps.reverse.dropWhile isIdle).reverse

/-- A path without the idle steps at its end; a dot at the front stays. -/
def trimEnd (path : Path) : Path :=
  let steps := dropIdleEnd path.steps
  if steps = [] && path.beginsCurrent then { path with steps := [dot] }
  else { path with steps := steps }

/-- The path without its last component, if that is not the root. -/
def parent? (path : Path) : Option Path :=
  let steps := dropIdleEnd path.steps
  if steps = [] then
    if path.beginsCurrent then some empty else none
  else some ({ path with steps := steps.dropLast } : Path).trimEnd

/-- The last component, if it is a name. -/
def fileName? (path : Path) : Option Bytes :=
  match (dropIdleEnd path.steps).getLast? with
  | none => none
  | some step => if step = dotDot then none else some step

theorem length_dropIdleEnd_le (steps : List Bytes) :
    (dropIdleEnd steps).length ≤ steps.length := by
  simpa [dropIdleEnd] using (List.dropWhile_sublist isIdle (l := steps.reverse)).length_le

theorem length_trimEnd_le (path : Path) : path.trimEnd.steps.length ≤ path.steps.length := by
  unfold trimEnd
  simp only
  split
  · rename_i h
    simp only [beginsCurrent, Bool.and_eq_true, decide_eq_true_eq] at h
    obtain ⟨-, -, hhead⟩ := h
    cases hsteps : path.steps with
    | nil => simp [hsteps] at hhead
    | cons step rest => simp
  · exact length_dropIdleEnd_le path.steps

/-- A path above a path has fewer steps. -/
theorem length_parent?_lt {path parent : Path} (h : path.parent? = some parent) :
    parent.steps.length < path.steps.length := by
  unfold parent? at h
  simp only at h
  split at h
  · split at h
    · rename_i hcurrent
      simp only [Option.some.injEq] at h
      subst h
      simp only [beginsCurrent, Bool.and_eq_true, decide_eq_true_eq] at hcurrent
      cases hsteps : path.steps with
      | nil => simp [hsteps] at hcurrent
      | cons step rest => simp [empty]
    · simp at h
  · rename_i hne
    simp only [Option.some.injEq] at h
    subst h
    refine Nat.lt_of_le_of_lt (length_trimEnd_le _) ?_
    have hle := length_dropIdleEnd_le path.steps
    have hpos := List.length_pos_iff.2 hne
    simp only [List.length_dropLast]
    omega

/-- All paths above a path, nearest first. -/
def above (path : Path) : List Path :=
  match _h : path.parent? with
  | none => []
  | some parent => parent :: above parent
termination_by path.steps.length
decreasing_by exact length_parent?_lt _h

/-- Steps without the first `n` that count, and without the idle ones before what is left. -/
def dropCounting : Nat → List Bytes → List Bytes
  | _, [] => []
  | 0, step :: rest => if isIdle step then dropCounting 0 rest else step :: rest
  | n + 1, step :: rest => if isIdle step then dropCounting (n + 1) rest else dropCounting n rest

/-- What follows `base` in a path that begins with the components of `base`. -/
def stripFront? (path base : Path) : Option Path :=
  if base.components.isPrefixOf path.components then
    if base.components = [] then some path.trimEnd
    else
      let counting := base.components.length - path.head.length
      some ⟨false, dropIdleEnd (dropCounting counting path.steps)⟩
  else none

end Path

end Sweep
