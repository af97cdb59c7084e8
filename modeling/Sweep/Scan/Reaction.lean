import Sweep.Scan.Basic
/-!
# Reactions

An observer can be given as a list of *reactions*: each waits for an event of some kind at some path
and then makes its changes to the disk, once.
-/

namespace Sweep

inductive EventKind where
  | started
  | entered
  | found
  | deleted
  | failed
  | finished
deriving DecidableEq, Repr

def Event.kind : Event → EventKind
  | started .. => .started
  | entered _ => .entered
  | found _ => .found
  | deleted .. => .deleted
  | failed .. => .failed
  | finished .. => .finished

def Event.path : Event → Path
  | started root _ => root
  | entered directory => directory
  | found path => path
  | deleted path _ => path
  | failed _ path _ => path
  | finished root _ => root

/-- Changes to be made at the first event of a kind at a path. -/
structure Reaction where
  kind : EventKind
  path : String
  /-- What is changed then. -/
  changes : List Disk.Change

/-- Whether a reaction waits for events like this one. -/
def Reaction.answers (reaction : Reaction) (event : Event) : Bool :=
  event.kind = reaction.kind && event.path.text = reaction.path

/-- The observer that makes the changes of reactions, each at the first event that it answers. -/
def Observer.ofReactions (reactions : List Reaction) : Observer :=
  fun event earlier disk =>
    reactions.foldl (fun disk reaction =>
      if reaction.answers event && !earlier.any reaction.answers then
        reaction.changes.foldl Disk.attempt disk
      else disk) disk

end Sweep
