import SessionReplay.Row.Builder
import SessionReplay.Timer
import SessionReplay.Turn

/-!
# Views

The view of a session is all there is to show of it: its rows, its delegations, its turns, its
timers and who is at work. It is a function of the events, so showing a session again after a crash
or a second delivery shows the same.

## Trees

The work of a delegation may have been done in a session of its own, a child. The tree of a session
fills the groups of its delegations with the rows of their child sessions, and adds the groups of
the children. Forks may lead in circles, so a child is entered only while it is not on the way to
itself: `RowSet.tree` carries the sessions that may still be entered, and entering one removes it.
-/

namespace SessionReplay

/-- All there is to show of a session. -/
structure SessionView where
  session : String
  rows : List Row
  groups : Table Group
  turns : List Turn
  timers : SessionTimers
  activity : Activity
  /-- The number of the last event. -/
  highWater : Option UInt64

/-- The rows of a session. -/
def RowSet.ofTimeline (session : String) (timeline : List Entry) (options : Options) : RowSet :=
  ofTranscript session options (Transcript.ofTimeline timeline)

/-- The rows of a session's events. -/
def RowSet.ofEvents (session : String) (events : List Event) (options : Options) : RowSet :=
  ofTimeline session (Timeline.ofEvents session events options) options

/-! ## Trees of rows -/

/-- The child sessions of a session's delegations, each once. -/
def RowSet.children (set : RowSet) : List String :=
  (set.groups.values.filterMap fun g ↦ g.child).eraseDups

/-- Sessions without one of them. -/
def otherSessions (sessions : List String) (session : String) : List String :=
  sessions.filter (· != session)

theorem length_otherSessions_lt {sessions : List String} {session : String}
    (h : session ∈ sessions) : (otherSessions sessions session).length < sessions.length := by
  refine List.length_filter_lt_length_iff_exists.2 ⟨_, h, ?_⟩
  simp

/-- Rows with the rows of child sessions in their groups, and with the children's own groups. -/
def RowSet.graft (set : RowSet) (subtrees : List (String × RowSet)) : RowSet where
  rows := set.rows
  groups := subtrees.foldl (fun groups s ↦ groups.union s.2.groups)
    (set.groups.map (Group.hydrate (subtrees.map fun s ↦ (s.1, s.2.rows))))

/-- The rows of a session and of its children, children's children and so on, as far as they may be
entered. -/
def RowSet.tree (events : List Event) (options : Options) (enterable : List String)
    (session : String) : RowSet :=
  let set := RowSet.ofEvents session events options
  set.graft ((set.children.filter enterable.contains).attach.map fun child ↦
    (child.1, tree events options (otherSessions enterable child.1) child.1))
termination_by enterable.length
decreasing_by
  exact length_otherSessions_lt (by simpa using (List.mem_filter.1 child.2).2)

namespace SessionView

/-- The view of a session with a timeline and rows. Who is at work is as reported, or as the
timeline has it. -/
def ofParts (session : String) (timeline : List Entry) (set : RowSet) (activity : Option Activity) :
    SessionView :=
  let activity := activity.getD (.ofTimeline timeline)
  { session
    rows := set.rows
    groups := set.groups
    turns := Turn.ofRows set (ModelChange.ofTimeline timeline) activity
    timers := .ofTimeline timeline
    activity
    highWater := timeline.getLast?.map Entry.sequence }

/-- The view of a session alone. -/
def ofEvents (session : String) (events : List Event) (activity : Option Activity)
    (options : Options) : SessionView :=
  let timeline := Timeline.ofEvents session events options
  ofParts session timeline (.ofTimeline session timeline options) activity

/-- The view of a session with its children. -/
def treeOfEvents (session : String) (events : List Event) (options : Options) : SessionView :=
  ofParts session (Timeline.ofEvents session events options)
    (.tree events options (otherSessions (forkedSessions events) session) session) none

/-- The turns of all delegations. -/
def delegationTurns (v : SessionView) : List Turn := v.groups.values.map (Turn.ofGroup v.groups)

/-- The turn of a delegation. -/
def delegationTurn? (v : SessionView) (group : String) : Option Turn :=
  (v.groups.get? group).map (Turn.ofGroup v.groups)

/-- Whether the session is at work. -/
def isActive (v : SessionView) : Bool := v.activity.isActive

/-- Whether a reading of the timers would change with time. -/
def needsTick (v : SessionView) : Bool := v.timers.needsTick

end SessionView

end SessionReplay
