import Sweep.Number.Binary64
import Sweep.Path.Basic
/-!
# How things are shown

Counts, durations, texts that are too long, and paths below the home directory.

## Main results

* `length_truncate` — a shortened text has exactly the length that was asked for.
* `displayCount_one` — one path is singular.
-/

namespace Sweep

open Number

/-- A number of paths. -/
def displayCount (count : Nat) : String :=
  if count = 1 then "1 path" else toString count ++ " paths"

theorem displayCount_one : displayCount 1 = "1 path" := rfl

/-- The greatest number of minutes that is shown. -/
def minuteLimit : Nat := Nat.pow 2 64 - 1

/-- A duration given in seconds: in milliseconds below one second, in seconds with one decimal place
below one minute, and else in minutes and seconds. The unit is chosen before anything is rounded. -/
def displayDuration (seconds : Binary64) : String :=
  if seconds.ltNat 1 then (seconds.mulNat 1000).toFixed 0 ++ "ms"
  else if seconds.ltNat 60 then seconds.toFixed 1 ++ "s"
  else
    let minutes := (seconds.divNat 60).wholePart minuteLimit
    let rest := seconds.sub ((Binary64.ofNat minutes).mulNat 60)
    toString minutes ++ "m " ++ rest.toFixed 0 ++ "s"

/-- A text cut to a length: its end after three dots, or only dots where nothing else fits. -/
def truncate (limit : Nat) (text : List Char) : List Char :=
  if text.length ≤ limit then text
  else if limit ≤ 3 then List.replicate limit '.'
  else '.' :: '.' :: '.' :: text.drop (text.length - (limit - 3))

/-- A shortened text has exactly the length that was asked for. -/
theorem length_truncate (limit : Nat) (text : List Char) :
    (truncate limit text).length = min text.length limit := by
  unfold truncate
  split
  · omega
  · split
    · simp only [List.length_replicate]
      omega
    · simp only [List.length_cons, List.length_drop]
      omega

/-- A path, with a tilde in place of the home directory at its front. -/
def displayPath (home : Option Path) (path : Path) : String :=
  match home with
  | none => path.text
  | some home =>
    match path.stripFront? home with
    | none => path.text
    | some rest => "~/" ++ rest.text

end Sweep
