import SessionReplay.Event.Basic
import SessionReplay.Table

/-!
# The event store

The events of many sessions, committed one after another. An event is committed if its number is
above the high-water mark of its session; nothing committed is ever changed. The generation counts
commits, so a view made at one generation is still right as long as the generation stands.

An event that is not above the mark is looked up by binary search, for the history of a session is
in the order of the numbers.
-/

namespace SessionReplay

/-- Whether an event has a lower number than another. -/
def Event.isLower (a b : Event) : Bool := a.sequence < b.sequence

/-- Committed events of many sessions. -/
structure EventStore where
  /-- The events of each session, the last one first. -/
  histories : Table (List Event)
  /-- The highest number committed for each session. -/
  marks : Table UInt64
  /-- How many events were committed. -/
  generation : Nat

namespace EventStore

/-- What becomes of an offered event. -/
inductive Outcome
  | applied
  /-- An event with its number is committed already. -/
  | duplicate
  /-- Its number was passed over before. -/
  | stale
deriving DecidableEq, Repr

/-- The store without events. -/
def empty : EventStore := ⟨.empty, .empty, 0⟩

/-- The events of a session, in the order in which they were committed. -/
def events (s : EventStore) (session : String) : List Event :=
  ((s.histories.get? session).getD []).reverse

/-- The highest number committed for a session. -/
def highWater (s : EventStore) (session : String) : Option UInt64 := s.marks.get? session

/-- The sessions, in the order of their names. -/
def sessions (s : EventStore) : List String := s.histories.keys

/-- Every committed event, session by session. -/
def allEvents (s : EventStore) : List Event := s.histories.values.flatMap List.reverse

/-- Commits an event. -/
def commit (s : EventStore) (e : Event) : EventStore where
  histories := s.histories.insert e.session (e :: (s.histories.get? e.session).getD [])
  marks := s.marks.insert e.session e.sequence
  generation := s.generation + 1

/-- What would become of an event. -/
def outcome (s : EventStore) (e : Event) : Outcome :=
  match s.highWater e.session with
  | none => .applied
  | some high =>
    if high < e.sequence then .applied
    else if (s.events e.session).toArray.binSearchContains e Event.isLower then .duplicate
    else .stale

/-- Offers an event: it is committed, or the store stays as it is. -/
def ingest (s : EventStore) (e : Event) : EventStore × Outcome :=
  let o := s.outcome e
  (if o = .applied then s.commit e else s, o)

/-- Whether an event comes no later than another in a batch: session by session, and within a
session by number. -/
def comesFirst (a b : Event) : Bool :=
  a.session < b.session || (a.session == b.session && a.sequence ≤ b.sequence)

/-- Offers events one after another; also how many of them are committed. -/
def ingestAll (s : EventStore) (batch : List Event) : EventStore × Nat :=
  batch.foldl (fun (s, count) e ↦
    let (s, o) := s.ingest e
    (s, if o = .applied then count + 1 else count)) (s, 0)

/-- Offers a batch, sorted first; also how many of its events are committed. -/
def ingestBatch (s : EventStore) (batch : List Event) : EventStore × Nat :=
  s.ingestAll (batch.mergeSort comesFirst)

/-- The store of a log's events. -/
def ofBatch (batch : List Event) : EventStore := (empty.ingestBatch batch).1

end EventStore

end SessionReplay
