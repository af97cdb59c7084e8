import Sweep.Disk.Fault
import Sweep.Path.Basic
/-!
# What a scan tells

A scan reports what it does as it goes, in events. An error carries what went wrong, as a message
that stands on its own: for a directory that could not be walked it names the path again.
-/

namespace Sweep

/-- In which part of a scan an error arose. -/
inductive Phase where
  /-- While the directories were collected. -/
  | traversal
  /-- While a match was removed. -/
  | deletion
deriving DecidableEq, Repr

def Phase.word : Phase → String
  | traversal => "traversal"
  | deletion => "deletion"

/-- What went wrong. -/
inductive Trouble where
  | plain (fault : Disk.Fault)
  /-- The walk could not look up or list a path. -/
  | walking (path : Path) (fault : Disk.Fault)
deriving DecidableEq, Repr

def Trouble.fault : Trouble → Disk.Fault
  | plain fault => fault
  | walking _ fault => fault

def Trouble.message : Trouble → String
  | plain fault => fault.message
  | walking path fault => "IO error for operation on " ++ path.text ++ ": " ++ fault.message

/-- What a scan tells. -/
inductive Event where
  /-- The scan begins, at a folded root and with so many rules. -/
  | started (root : Path) (rules : Nat)
  /-- A rule is applied in a directory. -/
  | entered (directory : Path)
  /-- The target of a rule matches a path. -/
  | found (path : Path)
  | deleted (path : Path) (isDirectory : Bool)
  /-- Something went wrong; the scan goes on. -/
  | failed (phase : Phase) (path : Path) (trouble : Trouble)
  /-- The scan is over, with so many matches. -/
  | finished (root : Path) (found : Nat)
deriving DecidableEq, Repr

end Sweep
