import Sweep.Path.Basic
import Sweep.Scan.Basic
/-!
# Protected roots

A live scan must not start at a directory of the system, at the home directory or at one of a few
directories in it. Paths are compared by their components, as they are spelled: a `..` is a
component like any other here.

## Main results

* `mayStart_dry` — a dry scan may start anywhere.
-/

namespace Sweep

/-- Directories of the system. -/
def systemDirectories : List String :=
  ["/", "/bin", "/boot", "/dev", "/etc", "/lib", "/opt", "/proc", "/sbin", "/sys", "/usr", "/var",
   "/System", "/Applications", "/Library", "/Users", "/home"]

/-- Directories in the home directory. -/
def personalDirectories : List String :=
  ["Desktop", "Documents", "Downloads", ".ssh", ".gnupg"]

/-- The paths at which no live scan may start. -/
def protectedPaths (home : Option Path) : List Path :=
  systemDirectories.map Path.ofText ++
    match home with
    | none => []
    | some home => home :: personalDirectories.map fun name => home.join (Path.ofText name)

/-- Whether a path is protected. -/
def isProtected (home : Option Path) (path : Path) : Bool :=
  (protectedPaths home).any (path.sameAs ·)

/-- Whether a scan may start at a root. -/
def mayStart (home : Option Path) (mode : Mode) (root : Path) : Bool :=
  mode = .dry || !isProtected home root

theorem mayStart_dry (home : Option Path) (root : Path) : mayStart home .dry root = true := rfl

end Sweep
