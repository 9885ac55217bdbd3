import SessionReplay.EventStore

/-!
# Choosing a session

A log may hold many sessions. Unless one is asked for, the one to show is a root: the first session
that no fork names as a child. If forks run in a circle and every session is a child, the first
session is shown.
-/

namespace SessionReplay

/-- Why no session can be shown. -/
inductive NoSession
  /-- The session that was asked for has no events. -/
  | withoutEvents (session : String)
  /-- There are no events at all. -/
  | emptyLog
deriving DecidableEq, Repr

/-- The wording of why no session of a file can be shown. -/
def NoSession.message (path : String) : NoSession → String
  | withoutEvents session => "session " ++ session ++ " has no events in " ++ path
  | emptyLog => "no events in " ++ path

namespace EventStore

/-- The first session that no fork names as a child, else the first session. -/
def root? (s : EventStore) : Option String :=
  let children := forkedSessions s.allEvents
  (s.sessions.find? fun session ↦ !children.contains session).or s.sessions.head?

/-- The session to show. -/
def choose (s : EventStore) (requested : Option String) : Except NoSession String :=
  match requested with
  | some session =>
    if (s.events session).isEmpty then .error (.withoutEvents session) else .ok session
  | none =>
    match s.root? with
    | some session => .ok session
    | none => .error .emptyLog

end EventStore

end SessionReplay
