import SessionReplay.Command.Run
import Std.Time.DateTime.Timestamp

/-!
# The program

Reads the files that a command line looks at, the home directory and the clock, and writes what
`Command.run` says. A command that is to be carried out once more reads its log again, while the
settings stay as they were read first.
-/

namespace SessionReplay

/-- The fault that a failed access shows. -/
def Fault.ofError : IO.Error → Fault
  | .permissionDenied .. => .denied
  | .inappropriateType _ 21 _ => .isDirectory
  | .inappropriateType .. => .underFile
  | .invalidArgument .. => .tooLong
  | _ => .missing

/-- A file as it was found. -/
abbrev FoundFile := String × Except Fault (List UInt8)

/-- What is in the file at a path. -/
def readFile (path : String) : IO FoundFile := do
  try return (path, .ok (← IO.FS.readBinFile path).toList)
  catch e => return (path, .error (.ofError e))

/-- The present. -/
def presentInstant : IO Instant := do
  return .clamp (← Std.Time.Timestamp.now).toMillisecondsSinceUnixEpoch.val

/-- The files among those that were found. -/
def lookUp (files : List FoundFile) (path : String) : Except Fault (List UInt8) :=
  (files.lookup path).getD (.error .missing)

/-- Carries out a command line, as often as it asks for. -/
partial def carryOut (words : List String) (home : Option String) (settings : List FoundFile) :
    IO UInt32 := do
  let logs ← (Command.logFiles words).mapM readFile
  let outcome := Command.run ⟨lookUp (settings ++ logs), home, ← presentInstant⟩ words
  let output ← IO.getStdout
  (← IO.getStderr).putStr outcome.errors
  output.putStr outcome.output
  output.flush
  match outcome.again with
  | some interval =>
    IO.sleep (min interval (UInt32.size - 1)).toUInt32
    carryOut words home settings
  | none => return outcome.exit.toUInt32

end SessionReplay

open SessionReplay in
def main (words : List String) : IO UInt32 := do
  let home ← match ← IO.getEnv "HOME" with
    | some home => pure (some home)
    | none => IO.getEnv "USERPROFILE"
  carryOut words home (← (Command.settingsFiles home words).mapM readFile)
