import SessionReplay.Instant.Basic

/-!
# Delegations

A delegation is work that one agent hands to another by a tool call. It is known by the call from
the start, and by an identifier of its own from the moment its request is paired with the call.
-/

namespace SessionReplay

/-- How far a delegation is. -/
inductive Status
  | inProgress
  | completed
  | failed
deriving DecidableEq, Repr

namespace Status

/-- Whether nothing more can happen. -/
def isTerminal : Status → Bool
  | .inProgress => false
  | _ => true

/-- The word for a status. -/
def word : Status → String
  | .inProgress => "in_progress"
  | .completed => "completed"
  | .failed => "failed"

/-- The status that a word names. -/
def ofWord? : String → Option Status
  | "in_progress" => some .inProgress
  | "completed" => some .completed
  | "failed" => some .failed
  | _ => none

end Status

/-- How a delegation ended, by one report of it. -/
structure Ending where
  status : Status
  time : Instant
  /-- A summary of what was done, or the text of an error. -/
  outcome : Option String
deriving DecidableEq, Repr

/-- A delegation. -/
structure Delegation where
  /-- The tool call that delegates. -/
  call : String
  /-- The agent that delegates. -/
  agent : String
  /-- The delegation's own identifier, once its request is paired with the call. -/
  delegation : Option String
  /-- The agent that is to do the work. -/
  target : Option String
  objective : Option String
  /-- The session in which the work is done. -/
  child : Option String
  status : Status
  start : Instant
  stop : Option Instant
  outcome : Option String
  /-- The depth of the row of the call. -/
  depth : Nat
deriving DecidableEq, Repr

namespace Delegation

/-- Whether the work is not done yet. -/
def isInProgress (d : Delegation) : Bool := d.status == .inProgress

/-- Ends a delegation. It ends once: later reports, and reports of no end, change nothing. -/
def finish (d : Delegation) (e : Ending) : Delegation :=
  if d.status.isTerminal || !e.status.isTerminal then d
  else { d with status := e.status, stop := some e.time, outcome := e.outcome.or d.outcome }

theorem finish_of_isTerminal {d : Delegation} (e : Ending) (h : d.status.isTerminal = true) :
    d.finish e = d := by simp [finish, h]

end Delegation

end SessionReplay
