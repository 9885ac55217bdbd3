/-!
# File faults

What can be wrong with a file that is to be read, and how it is said. Some faults show when the file
is opened, the others only when it is read.
-/

namespace SessionReplay

/-- Why a file could not be read. -/
inductive Fault
  /-- There is no such file. -/
  | missing
  /-- A part of its path is a file. -/
  | underFile
  /-- Its path, or a part of it, is too long. -/
  | tooLong
  /-- It may not be opened. -/
  | denied
  /-- It is a directory. -/
  | isDirectory
  /-- Its bytes are no text. -/
  | notText
deriving DecidableEq, Repr

namespace Fault

/-- The wording of a fault. -/
def message : Fault → String
  | .missing => "No such file or directory (os error 2)"
  | .underFile => "Not a directory (os error 20)"
  | .tooLong => "File name too long (os error 36)"
  | .denied => "Permission denied (os error 13)"
  | .isDirectory => "Is a directory (os error 21)"
  | .notText => "stream did not contain valid UTF-8"

/-- Whether a fault shows when the file is opened. -/
def isOnOpening : Fault → Bool
  | .missing | .underFile | .tooLong | .denied => true
  | .isDirectory | .notText => false

/-- Whether it means that there is nothing at the path. -/
def isAbsence : Fault → Bool
  | .missing | .underFile | .tooLong => true
  | _ => false

end Fault

end SessionReplay
