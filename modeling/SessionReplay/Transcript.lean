import SessionReplay.Table
import SessionReplay.Timeline

/-!
# Transcripts

An assistant's message may arrive in pieces and then once more as a whole. The transcript of a
timeline has one message in place of all events that belong to it, where the first of them stood;
every other event passes through.

## How pieces find their message

A piece that names a stream belongs to the message of that stream. A piece without a stream belongs
to the message to which its agent last added something, as long as that is live. The stored form
closes a message: that of its stream, or else the agent's live one, which it takes over only if the
two do not name different streams. A closed message takes no more pieces.
-/

namespace SessionReplay

/-- An assistant's message, perhaps still live. -/
structure Message where
  agent : String
  /-- The number of the first event of the message. -/
  sequence : UInt64
  /-- The time of the first event of the message. -/
  time : Instant
  stream : Option String
  content : String
  thinking : String
  /-- Whether the stored form is still to come. -/
  isLive : Bool
  /-- How many pieces the message was made of. -/
  deltas : Nat

/-- One thing in a transcript: an event that is no part of a message, or a message. -/
inductive Item
  | event (e : Entry)
  | message (m : Message)

namespace Message

/-- The part of a message that a piece belongs to. -/
inductive Part
  | content
  | thinking

/-- A message with one more piece. -/
def grow (m : Message) (part : Part) (delta : String) : Message :=
  match part with
  | .content => { m with content := m.content ++ delta, deltas := m.deltas + 1 }
  | .thinking => { m with thinking := m.thinking ++ delta, deltas := m.deltas + 1 }

/-- A message closed by its stored form: a stored content that is not empty replaces the pieces, a
stored thinking only fills a gap. -/
def close (m : Message) (stream : Option String) (content : String) (thinking : Option String) :
    Message :=
  { m with
    content := if content = "" then m.content else content
    thinking := if m.thinking = "" then thinking.getD "" else m.thinking
    stream := m.stream.or stream
    isLive := false }

end Message

/-- A transcript in the making. -/
structure Transcript where
  items : Array Item
  /-- Where the message of a stream stands. -/
  byStream : Table Nat
  /-- Where the message stands to which an agent last added a piece. -/
  liveBy : Table Nat
  /-- The number of the last stored form. -/
  lastStored : Option UInt64

namespace Transcript

/-- The transcript of nothing. -/
def empty : Transcript := ⟨#[], .empty, .empty, none⟩

/-- The message at a place. -/
def message? (t : Transcript) (place : Nat) : Option Message :=
  match t.items[place]? with
  | some (.message m) => some m
  | _ => none

/-- Puts a message in the place of an older state of it. -/
def replace (t : Transcript) (place : Nat) (m : Message) : Transcript :=
  { t with items := t.items.setIfInBounds place (.message m) }

/-- Adds an event that is no part of a message. -/
def pass (t : Transcript) (e : Entry) : Transcript := { t with items := t.items.push (.event e) }

/-- Adds a message. -/
def add (t : Transcript) (m : Message) : Transcript :=
  { t with
    items := t.items.push (.message m)
    byStream := match m.stream with
      | some id => t.byStream.insert id t.items.size
      | none => t.byStream }

/-- Notes that an agent has added a piece to the message at a place. -/
def touch (t : Transcript) (agent : String) (place : Nat) : Transcript :=
  { t with liveBy := t.liveBy.insert agent place }

/-- Where a piece belongs. -/
def placeOfDelta (t : Transcript) (e : Entry) (stream : Option String) : Option Nat :=
  match stream with
  | some id => t.byStream.get? id
  | none => t.liveBy.get? e.agent

/-- Takes in a piece. -/
def delta (t : Transcript) (e : Entry) (stream : Option String) (part : Message.Part)
    (text : String) : Transcript :=
  match t.placeOfDelta e stream with
  | some place =>
    match t.message? place with
    | some m => if m.isLive then (t.replace place (m.grow part text)).touch e.agent place else t
    | none => t
  | none =>
    let m : Message := ⟨e.agent, e.sequence, e.time, stream, "", "", true, 0⟩
    (t.add (m.grow part text)).touch e.agent t.items.size

/-- Where a stored form belongs: to the message of its stream, else to the live message of its agent
unless both name streams. -/
def placeOfStored (t : Transcript) (e : Entry) (stream : Option String) : Option Nat :=
  (stream.bind t.byStream.get?).or
    ((t.liveBy.get? e.agent).bind fun place ↦
      match t.message? place with
      | some m => if stream.isNone || m.stream.isNone then some place else none
      | none => none)

/-- Whether a stored form without a message comes too late: its number is not above that of the last
stored form. -/
def isPassed (t : Transcript) (n : UInt64) : Bool :=
  match t.lastStored with
  | some last => n ≤ last
  | none => false

/-- Takes in a stored form. -/
def stored (t : Transcript) (e : Entry) (stream : Option String) (content : String)
    (thinking : Option String) : Transcript :=
  match t.placeOfStored e stream with
  | some place =>
    match t.message? place with
    | some m =>
      let closed := if m.isLive then t.replace place (m.close stream content thinking) else t
      { closed with
        liveBy := if t.liveBy.get? e.agent = some place then t.liveBy.erase e.agent else t.liveBy
        lastStored := some e.sequence }
    | none => t
  | none =>
    if t.isPassed e.sequence then t
    else { t.add ⟨e.agent, e.sequence, e.time, stream, content, thinking.getD "", false, 0⟩ with
      lastStored := some e.sequence }

/-- Takes in an entry. -/
def step (t : Transcript) (e : Entry) : Transcript :=
  match e.payload with
  | .contentDelta stream text => t.delta e stream .content text
  | .thinkingDelta stream text => t.delta e stream .thinking text
  | .assistantMessage stream content thinking => t.stored e stream content thinking
  | _ => t.pass e

/-- The transcript of a timeline. -/
def ofTimeline (timeline : List Entry) : List Item := (timeline.foldl step empty).items.toList

end Transcript

end SessionReplay
