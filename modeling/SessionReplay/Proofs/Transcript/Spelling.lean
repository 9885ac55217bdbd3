import SessionReplay.Proofs.Timeline
import SessionReplay.Proofs.Transcript.Order

/-!
# How the target of a request is spelled

A request names the agent that it wants, and agents' names arrive with stray blanks around them.
Events that differ in such blanks alone are spelled differently, `Respelled`: with the blanks
trimmed, and with no target where it is blank, they are the same events.

Until the rows are made nobody looks at a target. So timelines and transcripts of events with
changed targets are the old ones with the targets changed: `Timeline.ofEvents_respell`,
`Transcript.ofTimeline_respell`.
-/

namespace SessionReplay

variable {f : Option String → Option String}

/-! ## Changing targets -/

/-- A payload with the target changed, if it is a request. -/
def Payload.respell (f : Option String → Option String) : Payload → Payload
  | .delegationRequested id target objective => .delegationRequested id (f target) objective
  | p => p

/-- An event with the target of its request changed. -/
def Event.respell (f : Option String → Option String) (e : Event) : Event :=
  { e with payload := e.payload.respell f }

/-- An entry with the target of its request changed. -/
def Entry.respell (f : Option String → Option String) (e : Entry) : Entry :=
  { e with event := e.event.respell f }

/-- A thing of a transcript with the target of its request changed. -/
def Item.respell (f : Option String → Option String) : Item → Item
  | .event e => .event (e.respell f)
  | .message m => .message m

/-- A target without blanks around it; none if it is blank. -/
def cleanTarget (target : Option String) : Option String := target.bind Text.nonBlank?

/-- The events are the same but for blanks around the targets of requests. A blank target counts as
none. -/
def Respelled (events events' : List Event) : Prop :=
  events.map (Event.respell cleanTarget) = events'.map (Event.respell cleanTarget)

theorem Payload.respell_respell (f g : Option String → Option String) (p : Payload) :
    (p.respell f).respell g = p.respell (g ∘ f) := by
  cases p <;> rfl

theorem Event.respell_respell (f g : Option String → Option String) (e : Event) :
    (e.respell f).respell g = e.respell (g ∘ f) :=
  congrArg (fun p ↦ { e with payload := p }) (e.payload.respell_respell f g)

/-- A change of the spelling alone leads to events that are spelled differently. -/
theorem respelled_map (hf : ∀ target, cleanTarget (f target) = cleanTarget target)
    (events : List Event) : Respelled events (events.map (Event.respell f)) := by
  rw [Respelled, List.map_map]
  refine List.map_congr_left fun e _ ↦ ?_
  have hclean : cleanTarget ∘ f = cleanTarget := funext hf
  rw [Function.comp_apply, Event.respell_respell, hclean]

/-! ## Timelines -/

namespace Timeline

private theorem rising_respell (mark : Option UInt64) (events : List Event) :
    rising mark (events.map (Event.respell f)) = (rising mark events).map (Event.respell f) := by
  induction events generalizing mark with
  | nil => rfl
  | cons e rest ih =>
    have hsequence : (e.respell f).sequence = e.sequence := rfl
    rw [List.map_cons, rising, rising, hsequence]
    split
    · rw [ih, List.map_cons]
    · exact ih mark

private theorem fill_respell (options : Options) (before : Instant) (events : List Event) :
    fill options before (events.map (Event.respell f))
      = (fill options before events).map (Entry.respell f) := by
  induction events generalizing before with
  | nil => rfl
  | cons e rest ih =>
    rw [List.map_cons, fill, fill, List.map_cons, ← ih]
    rfl

theorem ofEvents_respell (f : Option String → Option String) (session : String)
    (events : List Event) (options : Options) :
    ofEvents session (events.map (Event.respell f)) options
      = (ofEvents session events options).map (Entry.respell f) := by
  have hsort : (((events.map (Event.respell f)).filter fun e ↦ e.session == session).mergeSort
      fun a b ↦ a.sequence ≤ b.sequence)
        = ((events.filter fun e ↦ e.session == session).mergeSort
            fun a b ↦ a.sequence ≤ b.sequence).map (Event.respell f) := by
    rw [List.filter_map]
    exact (List.map_mergeSort (f := Event.respell f) fun _ _ _ _ ↦ rfl).symm
  rw [ofEvents, admitted, hsort, rising_respell, fill_respell, ofEvents, admitted]

end Timeline

/-! ## Transcripts -/

/-- Only a request is changed. -/
theorem Entry.respell_eq_self {e : Entry}
    (h : ∀ id target objective, e.payload ≠ .delegationRequested id target objective) :
    e.respell f = e := by
  have hpayload : e.payload.respell f = e.payload := by
    cases hrequest : e.payload with
    | delegationRequested id target objective => exact absurd hrequest (h id target objective)
    | _ => rfl
  exact congrArg (fun p ↦ { e with event := { e.event with payload := p } }) hpayload

namespace Transcript

/-- A transcript with the targets of its requests changed. -/
def respell (f : Option String → Option String) (t : Transcript) : Transcript :=
  { t with items := t.items.map (Item.respell f) }

theorem message?_respell (t : Transcript) (place : Nat) :
    (t.respell f).message? place = t.message? place := by
  rw [message?, message?, respell, Array.getElem?_map]
  cases t.items[place]? with
  | none => rfl
  | some i => cases i <;> rfl

private theorem pass_respell (t : Transcript) (e : Entry) :
    (t.respell f).pass (e.respell f) = (t.pass e).respell f := by
  rw [pass, pass, respell, respell, Array.map_push]
  rfl

theorem replace_respell (t : Transcript) (place : Nat) (m : Message) :
    (t.respell f).replace place m = (t.replace place m).respell f := by
  rw [replace, replace, respell, respell, Array.map_setIfInBounds]
  rfl

theorem add_respell (t : Transcript) (m : Message) :
    (t.respell f).add m = (t.add m).respell f := by
  rw [add, add, respell, respell, Array.map_push, Array.size_map]
  rfl

private theorem delta_respell (t : Transcript) (e : Entry) (stream : Option String)
    (part : Message.Part) (text : String) :
    (t.respell f).delta e stream part text = (t.delta e stream part text).respell f := by
  have hplace : (t.respell f).placeOfDelta e stream = t.placeOfDelta e stream := rfl
  rw [delta, delta, hplace]
  cases t.placeOfDelta e stream with
  | none =>
    have hsize : (t.respell f).items.size = t.items.size := Array.size_map
    dsimp only
    rw [add_respell, hsize]
    rfl
  | some place =>
    dsimp only
    rw [message?_respell]
    cases t.message? place with
    | none => rfl
    | some m =>
      dsimp only
      split
      · rw [replace_respell]
        rfl
      · rfl

private theorem stored_respell (t : Transcript) (e : Entry) (stream : Option String)
    (content : String) (thinking : Option String) :
    (t.respell f).stored e stream content thinking
      = (t.stored e stream content thinking).respell f := by
  have hplace : (t.respell f).placeOfStored e stream = t.placeOfStored e stream := by
    rw [placeOfStored, placeOfStored]
    simp only [message?_respell]
    rfl
  have hpassed : (t.respell f).isPassed e.sequence = t.isPassed e.sequence := rfl
  rw [stored, stored, hplace, hpassed]
  cases t.placeOfStored e stream with
  | none =>
    dsimp only
    split
    · rfl
    · rw [add_respell]
      rfl
  | some place =>
    dsimp only
    rw [message?_respell]
    cases t.message? place with
    | none => rfl
    | some m =>
      dsimp only
      rw [replace_respell]
      split <;> rfl

/-- **One entry.** -/
theorem step_respell (t : Transcript) (e : Entry) :
    (t.respell f).step (e.respell f) = (t.step e).respell f := by
  by_cases hrequest : ∃ id target objective, e.payload = .delegationRequested id target objective
  · obtain ⟨id, target, objective, hrequest⟩ := hrequest
    have hpass : t.step e = t.pass e := by rw [step, hrequest]
    have hrespelled : (e.respell f).payload = .delegationRequested id (f target) objective :=
      congrArg (Payload.respell f) hrequest
    rw [hpass, ← pass_respell, step, hrespelled]
  · have hself : e.respell f = e :=
      Entry.respell_eq_self fun id target objective h ↦ hrequest ⟨id, target, objective, h⟩
    have hpass : (t.respell f).pass e = (t.pass e).respell f := by
      rw [← pass_respell, hself]
    rw [hself, step, step]
    split
    · exact t.delta_respell e _ _ _
    · exact t.delta_respell e _ _ _
    · exact t.stored_respell e _ _ _
    · exact hpass

/-- **Any number of entries.** -/
theorem ofTimeline_respell (f : Option String → Option String) (timeline : List Entry) :
    ofTimeline (timeline.map (Entry.respell f)) = (ofTimeline timeline).map (Item.respell f) := by
  have hfold : (timeline.map (Entry.respell f)).foldl step empty
      = (timeline.foldl step empty).respell f := by
    induction timeline using List.reverseRecOn with
    | nil => rw [List.map_nil, List.foldl_nil, respell, empty, Array.map_empty]
    | append_singleton before e ih =>
      rw [List.map_append, List.map_singleton, List.foldl_concat, ih, step_respell,
        List.foldl_concat]
  rw [ofTimeline, hfold, respell, Array.toList_map, ofTimeline]

end Transcript

end SessionReplay
