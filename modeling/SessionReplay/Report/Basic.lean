import SessionReplay.Json.Printer
import SessionReplay.Report.Text

/-!
# Reports

A report shows one subject of a view, as text for people or as JSON for programs.
-/

namespace SessionReplay.Report

/-- What a report shows. -/
inductive Subject
  | rows
  | turns
  | groups
  | timers
deriving DecidableEq, Repr

/-- How a report is written. -/
inductive Format
  | text
  | json
deriving DecidableEq, Repr

/-- A group and its turn as a record, in order of names. -/
def groupJson (v : SessionView) (g : Group) : Json :=
  (Json.object [("group", g.toJson),
    ("turn", .orNull Turn.toJson (v.delegationTurn? g.call))]).ordered

/-- The readings of a session's timers as a record, in order of names. -/
def timersJson (v : SessionView) (now : Instant) : Json :=
  (Json.object [
    ("session_id", .string v.session), ("now_ms", .instant now),
    ("global_elapsed_ms", .instant (v.timers.elapsed now)),
    ("agent_elapsed_ms", (v.timers.agentElapsed now).toJson .instant),
    ("is_session_active", .bool v.isActive), ("running", .bool v.needsTick)]).ordered

/-- The entries of a text report. -/
def entries (v : SessionView) (now : Instant) : Subject → List String
  | .rows => rowEntries v
  | .turns => v.turns.flatMap turnEntries
  | .groups => groupsEntries v
  | .timers => [timersLine v now]

/-- The value of a JSON report. -/
def value (v : SessionView) (now : Instant) : Subject → Json
  | .rows => rowsJson v.rows
  | .turns => turnsJson v.turns
  | .groups => .array (v.groups.values.map (groupJson v))
  | .timers => timersJson v now

/-- The text of a report. -/
def render (v : SessionView) (now : Instant) (subject : Subject) : Format → String
  | .text => page (entries v now subject)
  | .json => page [(value v now subject).pretty]

end SessionReplay.Report
