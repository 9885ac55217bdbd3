import SessionReplay.Proofs.Timeline

/-!
# What a timeline is

A timeline holds one entry for each number that an event of its session has, in the order of the
numbers, and the entry is made of the first event that was delivered with its number. An entry
without a time has that of the nearest entry before it that has one, and an entry without an agent
has the sentinel. This is `Timeline.Describes`, and it leaves no freedom: `Timeline.describes_iff`.

## Gaps

Times are carried from entry to entry, so what is carried into an entry is a matter of all entries
before it. `Timeline.eq_fill_iff` says without any carrying when the gaps of a list are filled: each
entry has the last time that is given up to it. A second delivery is no entry and cannot give one.
-/

namespace SessionReplay

namespace Options

variable {options : Options} {name : String}

theorem agentKey_of_named (h : Text.trim name ≠ "") :
    options.agentKey (some name) = Text.trim name := by
  simp [agentKey, Text.nonBlank?, h]

theorem agentKey_of_unnamed {agent : Option String}
    (h : ∀ name, agent = some name → Text.trim name = "") :
    options.agentKey agent = options.sentinel := by
  cases agent with
  | none => rfl
  | some name => simp [agentKey, Text.nonBlank?, h name rfl]

end Options

namespace Timeline

/-- The last time that events give. -/
def lastTime? (events : List Event) : Option Instant := events.reverse.findSome? Event.time

/-- A list of entries is the timeline of a session's events. -/
structure Describes (session : String) (events : List Event) (options : Options)
    (timeline : List Entry) : Prop where
  rising : timeline.Pairwise fun x y ↦ x.sequence < y.sequence
  /-- A number has an entry if an event of the session has it. -/
  exists_iff : ∀ n, (∃ x ∈ timeline, x.sequence = n) ↔
    ∃ e ∈ events, e.session = session ∧ e.sequence = n
  /-- An entry is made of the first event with its number. -/
  event_eq : ∀ x ∈ timeline, firstDelivered? session x.sequence events = some x.event
  /-- The time of an entry is the last one that is given by itself or an entry before it. -/
  time_eq : ∀ before x after, timeline = before ++ x :: after →
    x.time = (lastTime? ((before ++ [x]).map Entry.event)).getD 0
  agent_eq_of_named : ∀ x ∈ timeline, ∀ name, x.event.agent = some name → Text.trim name ≠ "" →
    x.agent = Text.trim name
  agent_eq_of_unnamed : ∀ x ∈ timeline,
    (∀ name, x.event.agent = some name → Text.trim name = "") → x.agent = options.sentinel

variable {session : String} {events : List Event} {options : Options} {timeline : List Entry}

/-! ## Times -/

private theorem lastTime?_cons_getD (e : Event) (events : List Event) (before : Instant) :
    (lastTime? (e :: events)).getD before = (lastTime? events).getD (e.time.getD before) := by
  rw [lastTime?, lastTime?, List.reverse_cons, List.findSome?_append]
  cases events.reverse.findSome? Event.time with
  | some time => rfl
  | none => cases htime : e.time <;> simp [htime]

/-- An entry has its gaps filled, after other events and a time before them. -/
def IsFilled (options : Options) (time : Instant) (before : List Event) (x : Entry) : Prop :=
  x.time = (lastTime? (before ++ [x.event])).getD time ∧ x.agent = options.agentKey x.event.agent

/-- Entries have their gaps filled exactly if each one does. -/
theorem eq_fill_iff {time : Instant} :
    timeline = fill options time (timeline.map Entry.event) ↔
      ∀ before x after, timeline = before ++ x :: after →
        IsFilled options time (before.map Entry.event) x := by
  induction timeline generalizing time with
  | nil => simp [fill]
  | cons x rest ih =>
    have hhead : x = ⟨x.event, options.agentKey x.event.agent, x.event.time.getD time⟩ ↔
        IsFilled options time [] x := by
      rw [IsFilled, List.nil_append, lastTime?_cons_getD]
      cases x
      simp [lastTime?, and_comm]
    -- what is carried into the rest is the time of the first entry
    have hcarried : ∀ before y, IsFilled options (x.event.time.getD time) before y ↔
        IsFilled options time (x.event :: before) y := by
      intro before y
      rw [IsFilled, IsFilled, List.cons_append, lastTime?_cons_getD]
    rw [List.map_cons, fill, List.cons.injEq, hhead, ih]
    constructor
    · rintro ⟨hx, hrest⟩ before y after hsplit
      cases before with
      | nil =>
        obtain ⟨rfl, -⟩ := List.cons.inj hsplit
        exact hx
      | cons z before =>
        obtain ⟨rfl, htail⟩ := List.cons.inj hsplit
        exact (hcarried _ y).mp (hrest before y after htail)
    · intro h
      refine ⟨h [] x rest rfl, fun before y after hsplit ↦ (hcarried _ y).mpr ?_⟩
      exact h (x :: before) y after (congrArg (x :: ·) hsplit)

/-! ## Timelines -/

private theorem isFilled_of_eq_append {before after : List Entry} {x : Entry}
    (h : ofEvents session events options = before ++ x :: after) :
    IsFilled options 0 (before.map Entry.event) x := by
  have hfill : ofEvents session events options
      = fill options 0 ((ofEvents session events options).map Entry.event) := by
    rw [ofEvents, map_event_fill]
  exact eq_fill_iff.mp hfill before x after h

private theorem exists_sequence_iff (session : String) (events : List Event) (options : Options)
    (n : UInt64) : (∃ x ∈ ofEvents session events options, x.sequence = n) ↔
      ∃ e ∈ events, e.session = session ∧ e.sequence = n := by
  constructor
  · rintro ⟨x, hx, rfl⟩
    obtain ⟨hmem, hsession⟩ := mem_of_mem_admitted (event_mem_admitted hx)
    exact ⟨x.event, hmem, hsession, rfl⟩
  · rintro ⟨e, he, hsession, hn⟩
    obtain ⟨first, hfirst⟩ : ∃ first, firstDelivered? session n events = some first := by
      rw [← Option.isSome_iff_exists, firstDelivered?, List.find?_isSome]
      exact ⟨e, he, by simp [hsession, hn]⟩
    obtain ⟨-, -, rfl⟩ := mem_of_firstDelivered? hfirst
    have hadmitted := mem_admitted_iff.mpr hfirst
    rw [← map_event_fill options 0 (admitted session events)] at hadmitted
    obtain ⟨x, hx, hevent⟩ := List.mem_map.mp hadmitted
    exact ⟨x, hx, congrArg Event.sequence hevent⟩

/-- The timeline of events is what it should be. -/
theorem describes_ofEvents (session : String) (events : List Event) (options : Options) :
    Describes session events options (ofEvents session events options) where
  rising := pairwise_ofEvents session events options
  exists_iff := exists_sequence_iff session events options
  event_eq x hx := mem_admitted_iff.mp (event_mem_admitted hx)
  time_eq before x after h := by
    rw [List.map_append, List.map_singleton]
    exact (isFilled_of_eq_append h).1
  agent_eq_of_named x hx name hname hnamed := by
    obtain ⟨before, after, h⟩ := List.append_of_mem hx
    rw [(isFilled_of_eq_append h).2, hname, Options.agentKey_of_named hnamed]
  agent_eq_of_unnamed x hx hunnamed := by
    obtain ⟨before, after, h⟩ := List.append_of_mem hx
    rw [(isFilled_of_eq_append h).2, Options.agentKey_of_unnamed hunnamed]

namespace Describes

variable (h : Describes session events options timeline)
include h

private theorem agent_eq {x : Entry} (hx : x ∈ timeline) :
    x.agent = options.agentKey x.event.agent := by
  cases hagent : x.event.agent with
  | none =>
    refine h.agent_eq_of_unnamed x hx fun name hname ↦ ?_
    rw [hagent] at hname
    cases hname
  | some name =>
    by_cases hnamed : Text.trim name = ""
    · have hunnamed : ∀ name', some name = some name' → Text.trim name' = "" := by
        rintro name' ⟨⟩
        exact hnamed
      rw [Options.agentKey_of_unnamed hunnamed]
      exact h.agent_eq_of_unnamed x hx (hagent ▸ hunnamed)
    · rw [Options.agentKey_of_named hnamed]
      exact h.agent_eq_of_named x hx name hagent hnamed

/-- The entries are made of the events that are admitted. -/
theorem map_event_eq : timeline.map Entry.event = admitted session events := by
  refine (admitted_eq_of_mem_iff (List.pairwise_map.mpr h.rising) fun e ↦ ?_).symm
  constructor
  · intro he
    obtain ⟨x, hx, rfl⟩ := List.mem_map.mp he
    exact h.event_eq x hx
  · intro hfirst
    obtain ⟨hmem, hsession, -⟩ := mem_of_firstDelivered? hfirst
    obtain ⟨x, hx, hn⟩ := (h.exists_iff e.sequence).mpr ⟨e, hmem, hsession, rfl⟩
    have hevent := h.event_eq x hx
    rw [hn, hfirst, Option.some_inj] at hevent
    exact hevent ▸ List.mem_map_of_mem hx

end Describes

/-- **Timelines.** The timeline of a session's events is the one list of entries that has an entry
for each number of the session, in their order, made of the first event with the number and with its
gaps filled. -/
theorem describes_iff (session : String) (events : List Event) (options : Options)
    (timeline : List Entry) :
    Describes session events options timeline ↔ timeline = ofEvents session events options := by
  constructor
  · intro h
    have hfill : timeline = fill options 0 (timeline.map Entry.event) := by
      refine eq_fill_iff.mpr fun before x after hsplit ↦ ⟨?_, ?_⟩
      · rw [h.time_eq before x after hsplit, List.map_append, List.map_singleton]
      · exact h.agent_eq (hsplit ▸ List.mem_append_right _ List.mem_cons_self)
    rw [hfill, h.map_event_eq, ofEvents]
  · rintro rfl
    exact describes_ofEvents session events options

end Timeline

end SessionReplay
