import SessionReplay.Report.Duration
import SessionReplay.Report.Record

/-!
# Text reports

A text report is a list of entries, each ended by a line end. Texts from the session are cut to the
start of their first line; names and identifiers are written as they are.
-/

namespace SessionReplay.Report

/-- A text of entries, each ended by a line end. -/
def page (entries : List String) : String := String.join (entries.map fun e ↦ e ++ "\n")

/-- The first line of a text, trimmed, and cut after so many characters. -/
def preview (limit : Nat) (text : String) : String :=
  let line := Text.trimChars (text.toList.takeWhile (· != '\n'))
  if limit < line.length then String.ofList (line.take limit) ++ "…" else String.ofList line

/-- How many characters of a text are shown in its own row. -/
def rowLimit : Nat := 80

/-- How many characters of a text are shown under a heading. -/
def noteLimit : Nat := 100

/-- The text of a number. -/
def number (n : Nat) : String := String.ofList (Nat.toDigits 10 n)

/-- The time between two instants, or the word for one that has not ended. -/
def spanText (start : Instant) : Option Instant → String
  | some stop => durationText (Instant.since start stop)
  | none => "open"

/-! ## Rows -/

/-- The word for how far a tool call is. -/
def callState : Option ToolResult → String
  | none => "running"
  | some result => if result.isError then "error" else "done"

/-- What a row says. -/
def rowLabel (r : Row) : String :=
  match r.body with
  | .prompt text => "user: " ++ preview rowLimit text
  | .message content _ _ isLive =>
    r.agent ++ (if isLive then " (streaming)" else "") ++ ": " ++ preview rowLimit content
  | .tool t =>
    r.agent ++ ": " ++ t.name.getD "?" ++ (if t.delegates then " [delegate]" else "") ++
      " (" ++ callState t.result ++ ")"
  | .error text => "error: " ++ preview rowLimit text

/-- A row, indented by its depth. -/
def rowLine (r : Row) : String := String.ofList (List.replicate (2 * r.depth) ' ') ++ rowLabel r

/-- The rows, one entry each. -/
def rowEntries (v : SessionView) : List String := v.rows.map rowLine

/-! ## Turns -/

/-- The words for what is special about a turn. -/
def turnFlags (t : Turn) : List String :=
  (if t.isActive then ["active"] else []) ++ (if t.errored then ["errored"] else [])

/-- The heading of a turn. -/
def turnSummary (t : Turn) : String :=
  let model := (t.model.map fun m ↦ " [" ++ m.provider ++ "/" ++ m.model ++ "]").getD ""
  let flags := turnFlags t
  t.id ++ model ++ " " ++ spanText t.start t.stop ++ ": " ++
    number t.messages.length ++ " message(s), " ++
    number t.toolCalls.length ++ " tool call(s), " ++
    number t.delegations.length ++ " delegation(s)" ++
    (if flags.isEmpty then "" else " (" ++ ", ".intercalate flags ++ ")")

/-- A turn: its heading, its prompt, its messages and its errors. -/
def turnEntries (t : Turn) : List String :=
  turnSummary t ::
    (t.prompt.toList.map fun r ↦ "  > " ++ preview noteLimit r.content) ++
    (t.messages.map fun r ↦ "  " ++ r.agent ++ ": " ++ preview noteLimit r.content) ++
    (t.errors.map fun r ↦ "  ! " ++ preview noteLimit r.content)

/-! ## Groups -/

/-- The child session of a group. -/
def childNote (g : Group) : String :=
  match g.child with
  | some child => ", session " ++ child ++ (if g.hydrated then " (hydrated)" else "")
  | none => ""

/-- A text under the heading of a group. -/
def groupNote (name : String) (text : Option String) : List String :=
  text.toList.map fun t ↦ "  " ++ name ++ ": " ++ preview noteLimit t

/-- A group: its heading, its objective and its outcome. -/
def groupEntries (g : Group) : List String :=
  (g.call ++ " " ++ g.agent ++ " -> " ++ g.target.getD "?" ++ " [" ++ g.status.word ++ "] " ++
    spanText g.start g.stop ++ ", " ++ number g.rows.length ++ " child row(s)" ++ childNote g) ::
    groupNote "objective" g.objective ++ groupNote "outcome" g.outcome

/-- The groups, or that there are none. -/
def groupsEntries (v : SessionView) : List String :=
  if v.groups.isEmpty then ["No delegations."] else v.groups.values.flatMap groupEntries

/-! ## Timers -/

/-- The timers of a session on one line. -/
def timersLine (v : SessionView) (now : Instant) : String :=
  let agents := (v.timers.agentElapsed now).entries.map fun a ↦ a.1 ++ " " ++ durationText a.2
  "session " ++ v.session ++ " [" ++ (if v.needsTick then "running" else "paused") ++ "]: total " ++
    durationText (v.timers.elapsed now) ++ (if agents.isEmpty then "" else " | ") ++
    ", ".intercalate agents

end SessionReplay.Report
