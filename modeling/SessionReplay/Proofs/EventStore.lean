import SessionReplay.EventStore
import SessionReplay.Proofs.Timeline
import SessionReplay.SessionChoice

/-!
# What a store holds

A store commits events of many sessions one at a time, a timeline is made of all events of one
session at once. Both let an event pass for the same reason, so each history of a store is the
gate's output on the events of its session: `events_foldl_offer`. For a whole batch in a new store
the history is the timeline's list of admitted events, `events_ofBatch`.

A session has a history only if an event of it was committed, so a store's histories are known from
what `EventStore.events` answers: `NoneEmpty.histories_eq`.
-/

namespace SessionReplay

namespace EventStore

open Timeline (rising isAbove admitted)

/-! ## One event -/

theorem outcome_eq_applied_iff {s : EventStore} {e : Event} :
    s.outcome e = .applied ↔ isAbove (s.highWater e.session) e.sequence = true := by
  rw [outcome]
  cases h : s.highWater e.session with
  | none => simp [isAbove]
  | some high =>
    simp only [isAbove, decide_eq_true_eq]
    split
    · next habove => simp [habove]
    · next habove => split <;> simp [habove]

theorem get?_histories_commit (s : EventStore) (e : Event) (session : String) :
    (s.commit e).histories.get? session
      = if session = e.session then some (e :: (s.histories.get? e.session).getD [])
        else s.histories.get? session :=
  Table.get?_insert _ _ _ _

theorem highWater_commit (s : EventStore) (e : Event) (session : String) :
    (s.commit e).highWater session
      = if session = e.session then some e.sequence else s.highWater session :=
  Table.get?_insert _ _ _ _

theorem events_commit (s : EventStore) (e : Event) (session : String) :
    (s.commit e).events session
      = if session = e.session then s.events session ++ [e] else s.events session := by
  rw [events, get?_histories_commit]
  split
  · next h => rw [h, Option.getD_some, List.reverse_cons, events]
  · rfl

/-- A store after an offer of an event. -/
def offer (s : EventStore) (e : Event) : EventStore := (s.ingest e).1

theorem offer_eq (s : EventStore) (e : Event) :
    s.offer e = if isAbove (s.highWater e.session) e.sequence = true then s.commit e else s := by
  rw [offer, ingest]
  exact if_congr outcome_eq_applied_iff rfl rfl

/-! ## Many events -/

theorem fst_ingestAll (s : EventStore) (batch : List Event) :
    (s.ingestAll batch).1 = batch.foldl offer s := by
  rw [ingestAll]
  generalize 0 = count
  induction batch generalizing s count with
  | nil => rfl
  | cons e rest ih => rw [List.foldl_cons, List.foldl_cons, ih, offer]

/-- **The gate of a store.** Each session has a gate of its own, and what stands in the history of a
session is what its gate let through. -/
theorem events_foldl_offer (s : EventStore) (batch : List Event) (session : String) :
    (batch.foldl offer s).events session = s.events session ++
      rising (s.highWater session) (batch.filter fun e ↦ e.session == session) := by
  induction batch generalizing s with
  | nil => simp [rising]
  | cons e rest ih =>
    rw [List.foldl_cons, ih, offer_eq]
    by_cases hs : e.session = session
    · rw [List.filter_cons_of_pos (by simpa using hs), rising, hs]
      split
      · next habove =>
        rw [events_commit, highWater_commit, if_pos hs.symm, if_pos hs.symm, List.append_assoc,
          List.singleton_append]
      · rfl
    · rw [List.filter_cons_of_neg (by simpa using hs)]
      split
      · rw [events_commit, highWater_commit, if_neg (Ne.symm hs), if_neg (Ne.symm hs)]
      · rfl

/-! ## A batch in a new store -/

theorem comesFirst_iff {a b : Event} : comesFirst a b = true ↔
    a.session < b.session ∨ a.session = b.session ∧ a.sequence ≤ b.sequence := by
  simp [comesFirst]

theorem comesFirst_trans (a b c : Event) (hab : comesFirst a b = true)
    (hbc : comesFirst b c = true) : comesFirst a c = true := by
  rw [comesFirst_iff] at *
  rcases hab with hab | ⟨hab, hab'⟩
  · rcases hbc with hbc | ⟨hbc, -⟩
    · exact Or.inl (String.lt_trans hab hbc)
    · exact Or.inl (hbc ▸ hab)
  · rcases hbc with hbc | ⟨hbc, hbc'⟩
    · exact Or.inl (hab ▸ hbc)
    · exact Or.inr ⟨hab.trans hbc, UInt64.le_trans hab' hbc'⟩

private theorem comesFirst_total (a b : Event) : (comesFirst a b || comesFirst b a) = true := by
  rw [Bool.or_eq_true, comesFirst_iff, comesFirst_iff]
  by_cases hab : a.session < b.session
  · exact Or.inl (Or.inl hab)
  · by_cases hba : b.session < a.session
    · exact Or.inr (Or.inl hba)
    · have heq : a.session = b.session :=
        String.le_antisymm (String.not_lt.mp hba) (String.not_lt.mp hab)
      rcases UInt64.le_total a.sequence b.sequence with h | h
      · exact Or.inl (Or.inr ⟨heq, h⟩)
      · exact Or.inr (Or.inr ⟨heq.symm, h⟩)

/-- The history of a session, for a batch in a new store, is what a timeline admits. -/
theorem events_ofBatch (batch : List Event) (session : String) :
    (ofBatch batch).events session = admitted session batch := by
  -- the store sorts by session first, but within one session that is the order of the timeline
  have hsort : ((batch.mergeSort comesFirst).filter fun e ↦ e.session == session).Pairwise
      fun a b ↦ Timeline.comesBefore a b = true := by
    refine ((List.pairwise_mergeSort comesFirst_trans comesFirst_total batch).filter _).imp_of_mem
      fun {a b} ha hb hab ↦ ?_
    have ha : a.session = session := by simpa using (List.mem_filter.mp ha).2
    have hb : b.session = session := by simpa using (List.mem_filter.mp hb).2
    rcases comesFirst_iff.mp hab with h | ⟨-, h⟩
    · exact absurd (hb ▸ ha ▸ h) (String.lt_irrefl _)
    · exact Timeline.comesBefore_iff.mpr h
  -- events with one session and number are equal to the sort, so it keeps the first one first
  have hfind : ∀ n, ((batch.mergeSort comesFirst).filter fun e ↦ e.session == session).find?
      (fun e ↦ e.sequence == n) = firstDelivered? session n batch := by
    intro n
    rw [Timeline.find?_filter_session, firstDelivered?, firstDelivered?, ← List.head?_filter,
      Timeline.filter_mergeSort _ comesFirst_trans comesFirst_total, List.head?_filter]
    intro a b ha hb
    rw [Bool.and_eq_true, beq_iff_eq, beq_iff_eq] at ha hb
    refine comesFirst_iff.mpr (Or.inr ⟨ha.1.trans hb.1.symm, ?_⟩)
    rw [ha.2, hb.2]
    exact UInt64.le_refl _
  rw [ofBatch, ingestBatch, fst_ingestAll, events_foldl_offer]
  refine (Timeline.admitted_eq_of_mem_iff (Timeline.pairwise_rising _ _) fun e ↦ ?_).symm
  rw [← hfind]
  exact (Timeline.mem_rising_iff hsort).trans (and_iff_right rfl)

/-! ## Histories -/

/-- No session has a history without events. -/
def NoneEmpty (s : EventStore) : Prop := ∀ session, s.histories.get? session ≠ some []

theorem noneEmpty_empty : empty.NoneEmpty := by
  intro session h
  rw [empty, Table.get?_empty] at h
  cases h

theorem NoneEmpty.offer {s : EventStore} (h : s.NoneEmpty) (e : Event) : (s.offer e).NoneEmpty := by
  intro session
  rw [offer_eq]
  split
  · rw [get?_histories_commit]
    split
    · simp
    · exact h session
  · exact h session

theorem noneEmpty_ofBatch (batch : List Event) : (ofBatch batch).NoneEmpty := by
  rw [ofBatch, ingestBatch, fst_ingestAll]
  generalize batch.mergeSort comesFirst = sorted
  suffices hs : ∀ s : EventStore, s.NoneEmpty → (sorted.foldl EventStore.offer s).NoneEmpty from
    hs empty noneEmpty_empty
  induction sorted with
  | nil => exact fun s hs ↦ hs
  | cons e rest ih => exact fun s hs ↦ ih _ (hs.offer e)

theorem NoneEmpty.histories_eq {s t : EventStore} (hs : s.NoneEmpty) (ht : t.NoneEmpty)
    (h : ∀ session, s.events session = t.events session) : s.histories = t.histories := by
  refine Table.ext_get? fun session ↦ ?_
  have h := congrArg List.reverse (h session)
  rw [events, events, List.reverse_reverse, List.reverse_reverse] at h
  have hs := hs session
  have ht := ht session
  cases hs' : s.histories.get? session with
  | none =>
    cases ht' : t.histories.get? session with
    | none => rfl
    | some history =>
      rw [hs', ht'] at h
      exact absurd (ht'.trans (congrArg some h.symm)) ht
  | some history =>
    cases ht' : t.histories.get? session with
    | none =>
      rw [hs', ht'] at h
      exact absurd (hs'.trans (congrArg some h)) hs
    | some history' =>
      rw [hs', ht'] at h
      exact congrArg some h

theorem choose_eq_of_histories_eq {s t : EventStore} (h : s.histories = t.histories)
    (requested : Option String) : s.choose requested = t.choose requested := by
  have hevents : s.events = t.events := funext fun session ↦ by rw [events, events, h]
  have hroot : s.root? = t.root? := by
    rw [root?, root?, sessions, sessions, allEvents, allEvents, h]
  simp only [choose, hevents, hroot]

end EventStore

end SessionReplay
