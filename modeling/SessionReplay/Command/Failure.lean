import SessionReplay.Fault
import SessionReplay.SessionChoice

/-!
# Failures

Why a command could not do what it was asked to, and how it is said: what could not be done first,
then the reasons for it.
-/

namespace SessionReplay

/-- Why a command failed. -/
inductive Failure
  | cannotOpen (path : String) (fault : Fault)
  | cannotReadEvents (path : String) (fault : Fault)
  | noSession (path : String) (why : NoSession)
  | cannotReadSettings (path : String) (fault : Fault)
  /-- The settings file is no document. -/
  | cannotParseSettings (path : String)
  /-- A setting has a wrong type. -/
  | invalidSettings (path : String)
  /-- The home directory is not known. -/
  | noHome
deriving DecidableEq, Repr

namespace Failure

/-- What could not be done. -/
def headline : Failure → String
  | cannotOpen path _ => "Failed to open " ++ path
  | cannotReadEvents path _ => "Failed to read events from " ++ path
  | noSession path why => why.message path
  | cannotReadSettings path _ => "Failed to read config at " ++ path
  | cannotParseSettings path => "Failed to parse config at " ++ path
  | invalidSettings path => "Invalid config at " ++ path
  | noHome => "Could not determine home directory"

/-- The reasons. -/
def reasons : Failure → List String
  | cannotOpen _ fault => [fault.message]
  | cannotReadEvents _ fault => ["IO error: " ++ fault.message, fault.message]
  | cannotReadSettings _ fault => [fault.message]
  | noHome => ["environment variable not found"]
  | _ => []

/-- The wording of a failure. -/
def message (f : Failure) : String := ": ".intercalate (f.headline :: f.reasons)

end Failure

end SessionReplay
