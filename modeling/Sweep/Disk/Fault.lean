/-!
# Why a disk refuses

The causes for which reading or changing a disk fails, each with its message.
-/

namespace Sweep.Disk

/-- Why an operation on a disk fails. -/
inductive Fault where
  /-- A step of the path names nothing. -/
  | notFound
  | denied
  | taken
  /-- A step of the path leads through something that is no directory. -/
  | notDirectory
  | isDirectory
  | tooLong
  | notEmpty
  /-- A directory would be moved below itself. -/
  | intoItself
  /-- The path names no entry of a directory: it is the root, or ends in a dot or two. -/
  | unnamed
  /-- Too many symbolic links on the way. -/
  | linkLoop
  | zeroByte
  | notText
  /-- Any other cause, known by its message. -/
  | other (message : String)
deriving DecidableEq, Repr

def Fault.message : Fault → String
  | notFound => "No such file or directory (os error 2)"
  | denied => "Permission denied (os error 13)"
  | taken => "File exists (os error 17)"
  | notDirectory => "Not a directory (os error 20)"
  | isDirectory => "Is a directory (os error 21)"
  | unnamed => "Device or resource busy (os error 16)"
  | intoItself => "Invalid argument (os error 22)"
  | tooLong => "File name too long (os error 36)"
  | notEmpty => "Directory not empty (os error 39)"
  | linkLoop => "Too many levels of symbolic links (os error 40)"
  | zeroByte => "file name contained an unexpected NUL byte"
  | notText => "stream did not contain valid UTF-8"
  | other message => message

end Sweep.Disk
