import Sweep.Disk.Locate
import Sweep.Failure
import Sweep.Text.Blank
/-!
# Talking to the user

A command writes to two streams, may ask one question on the way, and ends with an exit code and
with the disk as it has become. A question is answered by the first line of the input.

## Main results

* `answered_ends` — a command that asks nothing does not depend on the input.
* `disk_ofFailure` — a failure by itself leaves the disk alone.
-/

namespace Sweep

/-- What has been written. -/
structure Written where
  /-- To the stream for results. -/
  out : String := ""
  /-- To the stream for messages. -/
  err : String := ""
deriving DecidableEq, Repr

def Written.append (first second : Written) : Written :=
  ⟨first.out ++ second.out, first.err ++ second.err⟩

instance : Append Written := ⟨Written.append⟩

/-- A text for the stream for results. -/
def Written.ofOut (text : String) : Written :=
  { out := text }

/-- A text for the stream for messages. -/
def Written.ofErr (text : String) : Written :=
  { err := text }

/-- How a command ends. -/
structure Ending where
  disk : Disk
  written : Written
  failure : Option Failure

namespace Ending

def code (ending : Ending) : Nat :=
  if ending.failure.isSome then 1 else 0

/-- A command that did what it should. -/
def ofSuccess (disk : Disk) (written : Written) : Ending :=
  ⟨disk, written, none⟩

/-- A command that fails, after some writing. -/
def ofFailure (disk : Disk) (written : Written) (failure : Failure) : Ending :=
  ⟨disk, written ++ .ofErr failure.told, some failure⟩

/-- A failure by itself leaves the disk alone. -/
@[simp] theorem disk_ofFailure (disk : Disk) (written : Written) (failure : Failure) :
    (ofFailure disk written failure).disk = disk := rfl

end Ending

/-- A command as it goes. -/
inductive Talk where
  | ends (ending : Ending)
  /-- It has written something, and goes on with the line that it is answered. -/
  | asks (written : Written) (resume : Except Disk.Fault String → Ending)

namespace Talk

/-- The first line of an input with its end. -/
def firstLine (input : Bytes) : Except Disk.Fault String :=
  let line := input.takeWhile (· ≠ 0x0A)
  match Text.Utf8.decode? (input.take (line.length + 1)) with
  | none => .error .notText
  | some cs => .ok (String.ofList cs)

/-- Whether a line says yes. -/
def isYes (line : String) : Bool :=
  let answer := Text.trim line.toList
  answer = ['y'] || answer = ['Y']

/-- How a command ends when its input is known. -/
def answered (input : Bytes) : Talk → Ending
  | ends ending => ending
  | asks _ resume => resume (firstLine input)

/-- A command that asks nothing does not depend on the input. -/
@[simp] theorem answered_ends (input : Bytes) (ending : Ending) :
    (ends ending).answered input = ending := rfl

end Talk

end Sweep
