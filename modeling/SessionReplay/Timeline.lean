import SessionReplay.Event.Basic
import SessionReplay.Options

/-!
# Timelines

Transports deliver events at least once and in any order. The timeline of a session is its events
in the order of their numbers, each number once, with the gaps filled: an event without an agent
gets the sentinel, an event without a time gets the time of the event before it.

## Why a gate and not a search

After sorting, an event that was delivered before is one whose number is not above the highest one
already let in. So one number, the high-water mark, is all the gate has to remember.

Main statement: `pairwise_rising` — the numbers let through the gate rise strictly.
-/

namespace SessionReplay

/-- An event with its gaps filled. -/
structure Entry where
  event : Event
  /-- The event's agent, or the sentinel. -/
  agent : String
  /-- The event's time, or that of the entry before it. -/
  time : Instant

namespace Entry

/-- The number of an entry's event. -/
def sequence (e : Entry) : UInt64 := e.event.sequence

/-- What an entry's event says. -/
def payload (e : Entry) : Payload := e.event.payload

/-- Whether the event names its agent, rather than having been given the sentinel. -/
def namesAgent (e : Entry) : Bool := (e.event.agent.bind Text.nonBlank?).isSome

end Entry

namespace Timeline

/-- Whether a number is above the high-water mark. -/
def isAbove (mark : Option UInt64) (n : UInt64) : Bool :=
  match mark with
  | some high => high < n
  | none => true

/-- Events whose numbers are above the mark when their turn comes; each one let in raises it. -/
def rising (mark : Option UInt64) : List Event → List Event
  | [] => []
  | e :: rest =>
    if isAbove mark e.sequence then e :: rising (some e.sequence) rest else rising mark rest

/-- Events with their gaps filled, after an event at a given time. -/
def fill (options : Options) (before : Instant) : List Event → List Entry
  | [] => []
  | e :: rest =>
    let time := e.time.getD before
    ⟨e, options.agentKey e.agent, time⟩ :: fill options time rest

/-- The events of a session, in the order of their numbers, each number once: of several events with
one number, the one delivered first. -/
def admitted (session : String) (events : List Event) : List Event :=
  rising none
    ((events.filter fun e ↦ e.session == session).mergeSort fun a b ↦ a.sequence ≤ b.sequence)

/-- The timeline of a session. -/
def ofEvents (session : String) (events : List Event) (options : Options) : List Entry :=
  fill options 0 (admitted session events)

/-! ## The gate -/

private theorem isAbove_of_mem_rising {mark : Option UInt64} {events : List Event} {e : Event}
    (h : e ∈ rising mark events) : isAbove mark e.sequence = true := by
  induction events generalizing mark with
  | nil => cases h
  | cons x rest ih =>
    rw [rising] at h
    split at h
    · next hx =>
      rcases List.mem_cons.1 h with rfl | h
      · exact hx
      · have he := ih h
        cases mark with
        | none => rfl
        | some high =>
          simp only [isAbove, decide_eq_true_eq] at hx he ⊢
          exact UInt64.lt_trans hx he
    · exact ih h

theorem pairwise_rising (mark : Option UInt64) (events : List Event) :
    (rising mark events).Pairwise fun a b ↦ a.sequence < b.sequence := by
  induction events generalizing mark with
  | nil => exact List.Pairwise.nil
  | cons x rest ih =>
    rw [rising]
    split
    · exact List.pairwise_cons.2
        ⟨fun e he ↦ by simpa [isAbove] using isAbove_of_mem_rising he, ih _⟩
    · exact ih _

end Timeline

end SessionReplay
