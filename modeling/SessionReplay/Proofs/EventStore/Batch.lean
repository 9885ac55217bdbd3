import Mathlib.Algebra.GroupWithZero.Nat
import Mathlib.Data.List.Dedup
import SessionReplay.Proofs.Delegation.Forks
import SessionReplay.Proofs.Delivery
import SessionReplay.Proofs.EventStore.Upkeep

/-!
# A store in place of a batch

What a new store keeps of a batch is as good as the batch. Its histories are the timelines of the
batch, and who puts the histories together again, session after session, shows the same views and
trees: `EventStore.standsFor_ofBatch`. The events may contradict each other, for both the store and
the timeline keep the first of those that were delivered with one number.

## Where the two differ

A batch may name children that no kept event names, in events that were dropped. So there are
sessions that the tree of the batch may enter and that of the store may not. No tree leads there,
since the children of a session are those its kept events name,
`RowSet.mem_forkedSessions_of_mem_children`.
-/

namespace SessionReplay

namespace EventStore

open Timeline (admitted)

/-- A store can take the place of a batch of which it has committed some events. -/
structure StandsFor (batch : List Event) (s : EventStore) (committed : Nat) : Prop where
  events_eq : ∀ session options,
    s.events session = (Timeline.ofEvents session batch options).map Entry.event
  committed_eq : ∀ options, committed = ((batch.map Event.session).dedup.map fun session ↦
    (Timeline.ofEvents session batch options).length).sum
  highWater_eq : ∀ session activity options,
    s.highWater session = (SessionView.ofEvents session batch activity options).highWater
  view_eq : ∀ session activity options,
    SessionView.ofEvents session s.allEvents activity options
      = SessionView.ofEvents session batch activity options
  tree_eq : ∀ session options,
    SessionView.treeOfEvents session s.allEvents options
      = SessionView.treeOfEvents session batch options

variable {s : EventStore} {e : Event} {session : String} {batch : List Event}

/-! ## All events of a store -/

theorem allEvents_eq_flatMap (s : EventStore) : s.allEvents = s.sessions.flatMap s.events := by
  rw [allEvents, sessions, Table.values, Table.keys, List.flatMap_map, List.flatMap_map]
  refine List.flatMap_congr fun entry hmem ↦ ?_
  obtain ⟨session, history⟩ := entry
  rw [events, Table.mem_entries_iff.mp hmem, Option.getD_some]

theorem NoneEmpty.mem_sessions_iff (h : s.NoneEmpty) :
    session ∈ s.sessions ↔ ∃ e, e ∈ s.events session := by
  rw [sessions, Table.mem_keys_iff, Table.contains_iff]
  constructor
  · rintro ⟨history, hhistory⟩
    obtain ⟨e, he⟩ := List.exists_mem_of_ne_nil history fun hnil ↦ h session (hnil ▸ hhistory)
    exact ⟨e, by rw [events, hhistory]; exact List.mem_reverse.mpr he⟩
  · rintro ⟨e, he⟩
    cases hhistory : s.histories.get? session with
    | none =>
      rw [events, hhistory] at he
      cases he
    | some history => exact ⟨history, rfl⟩

theorem Orderly.mem_allEvents_iff (h : s.Orderly) : e ∈ s.allEvents ↔ e ∈ s.events e.session := by
  rw [allEvents_eq_flatMap, List.mem_flatMap]
  constructor
  · rintro ⟨session, -, he⟩
    rwa [h.session_eq session e he]
  · intro he
    exact ⟨e.session, h.noneEmpty.mem_sessions_iff.mpr ⟨e, he⟩, he⟩

/-- A store keeps no contradictions. -/
theorem Orderly.unambiguous_allEvents (h : s.Orderly) : Delivery.Unambiguous s.allEvents := by
  intro a ha b hb hsession hsequence
  rw [h.mem_allEvents_iff] at ha hb
  have hnodup : ((s.events a.session).map Event.sequence).Nodup :=
    List.pairwise_map.mpr ((h.rising a.session).imp UInt64.ne_of_lt)
  exact List.inj_on_of_nodup_map hnodup ha (hsession ▸ hb) hsequence

/-- **A store admits what it has.** -/
theorem Orderly.admitted_allEvents (h : s.Orderly) (session : String) :
    admitted session s.allEvents = s.events session := by
  refine Timeline.admitted_eq_of_mem_iff (h.rising session) fun e ↦ ?_
  rw [h.unambiguous_allEvents.firstDelivered?_eq_some_iff, h.mem_allEvents_iff]
  constructor
  · intro he
    have hsession := h.session_eq session e he
    exact ⟨hsession ▸ he, hsession, rfl⟩
  · rintro ⟨he, hsession, -⟩
    rwa [hsession] at he

/-! ## How many events are committed -/

theorem ingestAll_concat (s : EventStore) (before : List Event) (e : Event) :
    s.ingestAll (before ++ [e]) = ((s.ingestAll before).1.offer e,
      if (s.ingestAll before).1.outcome e = .applied then (s.ingestAll before).2 + 1
      else (s.ingestAll before).2) := by
  rw [ingestAll, List.foldl_concat]
  rfl

/-- The count of a batch is by how much it raises the generation. -/
theorem generation_ingestAll (s : EventStore) (batch : List Event) :
    (s.ingestAll batch).1.generation = s.generation + (s.ingestAll batch).2 := by
  induction batch using List.reverseRecOn with
  | nil => rfl
  | append_singleton before e ih =>
    rw [ingestAll_concat, offer, ingest]
    dsimp only
    split
    · rw [commit, ih, Nat.add_assoc]
    · exact ih

theorem Orderly.generation_eq_sum (h : s.Orderly) :
    s.generation = (s.sessions.map fun session ↦ (s.events session).length).sum := by
  rw [h.generation_eq, allEvents_eq_flatMap, List.length_flatMap]

/-! ## A batch in a new store -/

theorem orderly_ofBatch (batch : List Event) : (ofBatch batch).Orderly :=
  orderly_run [.batch batch]

private theorem mem_sessions_ofBatch_iff :
    session ∈ (ofBatch batch).sessions ↔ session ∈ batch.map Event.session := by
  rw [(noneEmpty_ofBatch batch).mem_sessions_iff, List.mem_map, events_ofBatch]
  constructor
  · rintro ⟨e, he⟩
    exact ⟨e, Timeline.mem_of_mem_admitted he⟩
  · rintro ⟨e, he, rfl⟩
    -- if not this event, another one with its number is admitted
    have hfound : (firstDelivered? e.session e.sequence batch).isSome :=
      List.find?_isSome.mpr ⟨e, he, by simp⟩
    obtain ⟨x, hx⟩ := Option.isSome_iff_exists.mp hfound
    refine ⟨x, Timeline.mem_admitted_iff.mpr ?_⟩
    rwa [(Timeline.mem_of_firstDelivered? hx).2.2]

/-- As many events are committed as the timelines of all sessions have. -/
theorem committed_ingestBatch (batch : List Event) (options : Options) :
    (empty.ingestBatch batch).2 = ((batch.map Event.session).dedup.map fun session ↦
      (Timeline.ofEvents session batch options).length).sum := by
  have hcount : (ofBatch batch).generation = (empty.ingestBatch batch).2 :=
    (generation_ingestAll _ _).trans (Nat.zero_add _)
  have hsessions : (ofBatch batch).sessions.Perm (batch.map Event.session).dedup := by
    have hnodup : (ofBatch batch).sessions.Nodup := Table.nodup_keys _
    refine (List.perm_ext_iff_of_nodup hnodup (List.nodup_dedup _)).mpr fun session ↦ ?_
    rw [mem_sessions_ofBatch_iff, List.mem_dedup]
  rw [← hcount, (orderly_ofBatch batch).generation_eq_sum, (hsessions.map _).sum_nat]
  refine congrArg List.sum (List.map_congr_left fun session _ ↦ ?_)
  rw [events_ofBatch, Timeline.ofEvents, ← List.length_map Entry.event, Timeline.map_event_fill]

theorem timeline_allEvents_ofBatch (batch : List Event) (session : String) (options : Options) :
    Timeline.ofEvents session (ofBatch batch).allEvents options
      = Timeline.ofEvents session batch options := by
  rw [Timeline.ofEvents, (orderly_ofBatch batch).admitted_allEvents, events_ofBatch,
    Timeline.ofEvents]

private theorem highWater_ofEvents (batch : List Event) (session : String)
    (activity : Option Activity)
    (options : Options) : (SessionView.ofEvents session batch activity options).highWater
      = (admitted session batch).getLast?.map Event.sequence := by
  have hevents := Timeline.map_event_fill options 0 (admitted session batch)
  calc
    _ = (Timeline.ofEvents session batch options).getLast?.map Entry.sequence := rfl
    _ = ((Timeline.ofEvents session batch options).map Entry.event).getLast?.map
        Event.sequence := by
      rw [List.getLast?_map, Option.map_map]
      rfl
    _ = (admitted session batch).getLast?.map Event.sequence := by
      rw [Timeline.ofEvents, hevents]

private theorem mem_of_mem_allEvents_ofBatch (h : e ∈ (ofBatch batch).allEvents) : e ∈ batch := by
  rw [(orderly_ofBatch batch).mem_allEvents_iff, events_ofBatch] at h
  exact (Timeline.mem_of_mem_admitted h).1

private theorem mem_forkedSessions_of_subset {events₁ events₂ : List Event} {child : String}
    (h : ∀ e ∈ events₁, e ∈ events₂) (hchild : child ∈ forkedSessions events₁) :
    child ∈ forkedSessions events₂ := by
  obtain ⟨e, he, hforks⟩ := List.mem_filterMap.mp hchild
  exact List.mem_filterMap.mpr ⟨e, h e he, hforks⟩

private theorem tree_allEvents_ofBatch (batch : List Event) (session : String) (options : Options) :
    RowSet.tree (ofBatch batch).allEvents options
        (otherSessions (forkedSessions (ofBatch batch).allEvents) session) session
      = RowSet.tree batch options (otherSessions (forkedSessions batch) session) session := by
  apply RowSet.tree_congr_of_children (· ∈ forkedSessions (ofBatch batch).allEvents)
  · intro session
    rw [RowSet.ofEvents, timeline_allEvents_ofBatch, RowSet.ofEvents]
  · intro session child hchild
    exact mem_forkedSessions_of_subset (fun e he ↦ (Timeline.mem_of_mem_admitted he).1)
      (RowSet.mem_forkedSessions_of_mem_children hchild)
  · intro child hchild
    rw [mem_otherSessions, mem_otherSessions, and_congr_left_iff]
    intro _
    exact iff_of_true hchild
      (mem_forkedSessions_of_subset (fun e ↦ mem_of_mem_allEvents_ofBatch) hchild)

/-- **Refinement.** A new store that was given a batch can take its place. -/
theorem standsFor_ofBatch (batch : List Event) :
    (empty.ingestBatch batch).1.StandsFor batch (empty.ingestBatch batch).2 where
  events_eq session options := by
    rw [Timeline.ofEvents, Timeline.map_event_fill]
    exact events_ofBatch batch session
  committed_eq := committed_ingestBatch batch
  highWater_eq session activity options := by
    rw [highWater_ofEvents, ← events_ofBatch]
    exact (orderly_ofBatch batch).highWater_eq session
  view_eq session activity options := by
    rw [SessionView.ofEvents, SessionView.ofEvents]
    exact congrArg (fun timeline ↦ SessionView.ofParts session timeline
      (.ofTimeline session timeline options) activity)
      (timeline_allEvents_ofBatch batch session options)
  tree_eq session options := by
    rw [SessionView.treeOfEvents, SessionView.treeOfEvents]
    exact congrArg₂ (fun timeline set ↦ SessionView.ofParts session timeline set none)
      (timeline_allEvents_ofBatch batch session options)
      (tree_allEvents_ofBatch batch session options)

end EventStore

end SessionReplay
