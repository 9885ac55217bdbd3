import SessionReplay.Proofs.EventStore
import SessionReplay.Proofs.Tree

/-!
# Delivery

A transport may deliver events in any order and any number of times, mixed with those of other
sessions. All that counts is which events there are: `indistinguishable_of_mem_iff`. What the
transport must not do is give one number of a session to two different events.

The one place where the order of delivery could show is the choice among events with one number, and
there is nothing to choose: `firstDelivered?_eq_some_iff`.
-/

namespace SessionReplay

namespace Delivery

/-- A number of a session belongs to one event alone. -/
def Unambiguous (events : List Event) : Prop :=
  ∀ a ∈ events, ∀ b ∈ events, a.session = b.session → a.sequence = b.sequence → a = b

/-- Nothing that is made of events tells two deliveries apart. -/
structure Indistinguishable (events₁ events₂ : List Event) : Prop where
  view_eq : ∀ session activity options,
    SessionView.ofEvents session events₁ activity options
      = SessionView.ofEvents session events₂ activity options
  tree_eq : ∀ session options,
    SessionView.treeOfEvents session events₁ options
      = SessionView.treeOfEvents session events₂ options
  sessions_eq : (EventStore.ofBatch events₁).sessions = (EventStore.ofBatch events₂).sessions
  events_eq : ∀ session,
    (EventStore.ofBatch events₁).events session = (EventStore.ofBatch events₂).events session
  choose_eq : ∀ requested,
    (EventStore.ofBatch events₁).choose requested = (EventStore.ofBatch events₂).choose requested

variable {events₁ events₂ : List Event}

theorem Unambiguous.firstDelivered?_eq_some_iff {events : List Event} (h : Unambiguous events)
    {session : String} {n : UInt64} {e : Event} :
    firstDelivered? session n events = some e ↔
      e ∈ events ∧ e.session = session ∧ e.sequence = n := by
  refine ⟨Timeline.mem_of_firstDelivered?, fun ⟨hmem, hsession, hn⟩ ↦ ?_⟩
  cases hfind : firstDelivered? session n events with
  | some x =>
    obtain ⟨hx, hxsession, hxn⟩ := Timeline.mem_of_firstDelivered? hfind
    rw [h x hx e hmem (hxsession.trans hsession.symm) (hxn.trans hn.symm)]
  | none =>
    rw [firstDelivered?, List.find?_eq_none] at hfind
    exact absurd (hfind e hmem) (by simp [hsession, hn])

theorem Unambiguous.congr (h : Unambiguous events₁) (hmem : ∀ e, e ∈ events₁ ↔ e ∈ events₂) :
    Unambiguous events₂ := fun a ha b hb ↦ h a ((hmem a).mpr ha) b ((hmem b).mpr hb)

theorem admitted_eq (h : Unambiguous events₁) (hmem : ∀ e, e ∈ events₁ ↔ e ∈ events₂)
    (session : String) :
    Timeline.admitted session events₁ = Timeline.admitted session events₂ := by
  refine Timeline.admitted_eq_of_mem_iff (Timeline.pairwise_admitted _ _) fun e ↦ ?_
  rw [Timeline.mem_admitted_iff, (h.congr hmem).firstDelivered?_eq_some_iff,
    h.firstDelivered?_eq_some_iff, hmem]

theorem timeline_eq (h : Unambiguous events₁) (hmem : ∀ e, e ∈ events₁ ↔ e ∈ events₂)
    (session : String) (options : Options) :
    Timeline.ofEvents session events₁ options = Timeline.ofEvents session events₂ options := by
  rw [Timeline.ofEvents, Timeline.ofEvents, admitted_eq h hmem]

private theorem mem_forkedSessions_iff (hmem : ∀ e, e ∈ events₁ ↔ e ∈ events₂) (session : String) :
    session ∈ forkedSessions events₁ ↔ session ∈ forkedSessions events₂ := by
  simp only [forkedSessions, List.mem_filterMap, hmem]

theorem tree_eq (h : Unambiguous events₁) (hmem : ∀ e, e ∈ events₁ ↔ e ∈ events₂)
    (options : Options) (session : String) :
    RowSet.tree events₁ options (otherSessions (forkedSessions events₁) session) session
      = RowSet.tree events₂ options (otherSessions (forkedSessions events₂) session) session := by
  refine RowSet.tree_congr (fun s ↦ ?_) _ _ (fun s ↦ ?_) session
  · rw [RowSet.ofEvents, RowSet.ofEvents, timeline_eq h hmem]
  · rw [mem_otherSessions, mem_otherSessions, mem_forkedSessions_iff hmem]

theorem histories_eq (h : Unambiguous events₁) (hmem : ∀ e, e ∈ events₁ ↔ e ∈ events₂) :
    (EventStore.ofBatch events₁).histories = (EventStore.ofBatch events₂).histories := by
  refine (EventStore.noneEmpty_ofBatch _).histories_eq (EventStore.noneEmpty_ofBatch _) ?_
  intro session
  rw [EventStore.events_ofBatch, EventStore.events_ofBatch, admitted_eq h hmem]

/-- **Delivery does not matter.** Two deliveries of the same events, in whatever order and however
often each, show the same views and trees, fill a store alike and lead to the same session. -/
theorem indistinguishable_of_mem_iff (h : Unambiguous events₁)
    (hmem : ∀ e, e ∈ events₁ ↔ e ∈ events₂) : Indistinguishable events₁ events₂ where
  view_eq session activity options := by
    simp only [SessionView.ofEvents, timeline_eq h hmem]
  tree_eq session options := by
    rw [SessionView.treeOfEvents, SessionView.treeOfEvents, timeline_eq h hmem, tree_eq h hmem]
  sessions_eq := congrArg Table.keys (histories_eq h hmem)
  events_eq session := by
    rw [EventStore.events_ofBatch, EventStore.events_ofBatch, admitted_eq h hmem]
  choose_eq := EventStore.choose_eq_of_histories_eq (histories_eq h hmem)

/-- A prompt without an agent or a time. -/
def prompted : Event := ⟨1, "root", none, none, .userPrompt "go"⟩

/-- A fork of a child session. -/
def forked : Event := ⟨2, "root", some "main", some 20, .sessionForked "child" (some "d")⟩

/-- A message in the child session, with the number that the prompt has in its own. -/
def answered : Event := ⟨1, "child", some "worker", some 30, .assistantMessage none "done" none⟩

theorem indistinguishable_reversed_and_repeated :
    Unambiguous [prompted, forked, answered] ∧
      (∀ e, e ∈ [prompted, forked, answered] ↔ e ∈ [answered, forked, prompted, forked]) ∧
      Indistinguishable [prompted, forked, answered] [answered, forked, prompted, forked] := by
  have hunambiguous : Unambiguous [prompted, forked, answered] := by
    simp [Unambiguous, prompted, forked, answered]
  have hmem : ∀ e, e ∈ [prompted, forked, answered] ↔
      e ∈ [answered, forked, prompted, forked] := by
    intro e
    simp only [List.mem_cons, List.not_mem_nil, or_false]
    tauto
  exact ⟨hunambiguous, hmem, indistinguishable_of_mem_iff hunambiguous hmem⟩

end Delivery

end SessionReplay
