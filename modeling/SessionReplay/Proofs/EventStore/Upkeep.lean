import Mathlib.Data.List.Induction
import Mathlib.Data.List.Perm.Basic
import SessionReplay.Proofs.EventStore
import SessionReplay.Proofs.EventStore.Search
import SessionReplay.Proofs.Table

/-!
# What a store keeps to

A store is given events one by one and in batches. Whatever it was given, its histories are in the
order of their numbers, its marks are the numbers that they end with, and its generation counts what
is in them: `EventStore.Orderly`. So the outcome of an offer can be said of the history alone, and
the events that are committed are those above everything before them: `EventStore.keepsOrder_run`.

## Why the invariant comes first

A store asks its mark whether an event is late, and then a binary search whether it was there
before. Neither looks at the whole history. That they answer for the whole history is due to its
order, and to the mark standing at its end.
-/

namespace SessionReplay

namespace EventStore

open Timeline (isAbove)

/-- What a store may be given. -/
inductive Intake
  | event (e : Event)
  | batch (es : List Event)

/-- A store after an intake. -/
def take (s : EventStore) : Intake → EventStore
  | .event e => (s.ingest e).1
  | .batch es => (s.ingestBatch es).1

/-- A store after any number of intakes, from the start. -/
def run (intakes : List Intake) : EventStore := intakes.foldl take empty

/-- The events whose numbers are above those of all events before them. -/
def maxima : List Event → List Event
  | [] => []
  | e :: rest => e :: (maxima rest).filter e.isLower

/-- What becomes of an event that is offered, and of the store. -/
structure Answers (s : EventStore) (e : Event) : Prop where
  applied_iff : (s.ingest e).2 = .applied ↔ ∀ c ∈ s.events e.session, c.sequence < e.sequence
  duplicate_iff : (s.ingest e).2 = .duplicate ↔
    ∃ c ∈ s.events e.session, c.sequence = e.sequence
  stale_iff : (s.ingest e).2 = .stale ↔ (∃ c ∈ s.events e.session, e.sequence < c.sequence) ∧
    ∀ c ∈ s.events e.session, c.sequence ≠ e.sequence
  events_of_applied : (s.ingest e).2 = .applied → ∀ session, (s.ingest e).1.events session
    = if session = e.session then s.events session ++ [e] else s.events session
  eq_of_not_applied : (s.ingest e).2 ≠ .applied → (s.ingest e).1 = s

/-- What holds of a store, and of what it is given next. -/
structure KeepsOrder (s : EventStore) : Prop where
  rising : ∀ session, (s.events session).Pairwise fun a b ↦ a.sequence < b.sequence
  highWater_eq : ∀ session, s.highWater session = (s.events session).getLast?.map Event.sequence
  generation_eq : s.generation = s.allEvents.length
  answers : ∀ e, s.Answers e
  /-- Of events that are offered one after another, each history gets those above all before. -/
  events_offers : ∀ (es : List Event) (session : String), (es.foldl offer s).events session
    = maxima (s.events session ++ es.filter fun e ↦ e.session == session)
  /-- It does not matter how the events of different sessions are mixed. -/
  offers_eq : ∀ es es' : List Event, (∀ session, (es.filter fun e ↦ e.session == session)
    = es'.filter fun e ↦ e.session == session) → es.foldl offer s = es'.foldl offer s

/-! ## The invariant -/

/-- Histories, marks and generation belong together. -/
structure Orderly (s : EventStore) : Prop where
  noneEmpty : s.NoneEmpty
  session_eq : ∀ session, ∀ e ∈ s.events session, e.session = session
  rising : ∀ session, (s.events session).Pairwise fun a b ↦ a.sequence < b.sequence
  highWater_eq : ∀ session, s.highWater session = (s.events session).getLast?.map Event.sequence
  generation_eq : s.generation = s.allEvents.length

variable {s t : EventStore} {e : Event} {session : String} {n : UInt64}

theorem orderly_empty : empty.Orderly where
  noneEmpty := noneEmpty_empty
  session_eq _ _ h := by cases h
  rising _ := List.Pairwise.nil
  highWater_eq _ := rfl
  generation_eq := rfl

private theorem perm_allEvents_commit (s : EventStore) (e : Event) :
    (s.commit e).allEvents.Perm (e :: s.allEvents) := by
  have hreverse : ∀ histories : List (List Event),
      (histories.flatMap List.reverse).Perm histories.flatten := by
    intro histories
    induction histories with
    | nil => exact List.Perm.refl _
    | cons h rest ih => exact (List.reverse_perm h).append ih
  refine (hreverse _).trans (List.Perm.trans ?_ ((hreverse _).symm.cons e))
  cases hold : s.histories.get? e.session with
  | none =>
    refine (Table.perm_values_insert_of_eq_none hold _).flatten.trans ?_
    rw [hold]
    exact List.Perm.refl _
  | some history =>
    obtain ⟨rest, hvalues, hinsert⟩ := Table.exists_perm_values_insert hold (e :: history)
    rw [commit, hold]
    exact hinsert.flatten.trans (hvalues.flatten.symm.cons e)

theorem Orderly.isAbove_iff (h : s.Orderly) :
    isAbove (s.highWater session) n = true ↔ ∀ c ∈ s.events session, c.sequence < n := by
  have hrising := h.rising session
  rw [h.highWater_eq session]
  rcases List.eq_nil_or_concat (s.events session) with hnil | ⟨before, last, hconcat⟩
  · simp [hnil, isAbove]
  · rw [List.concat_eq_append] at hconcat
    rw [hconcat, List.pairwise_append] at hrising
    rw [hconcat, List.getLast?_concat, Option.map_some, isAbove, decide_eq_true_iff]
    -- the last number is the highest one
    constructor
    · intro hlast c hc
      rcases List.mem_append.mp hc with hc | hc
      · exact UInt64.lt_trans (hrising.2.2 c hc last List.mem_cons_self) hlast
      · rwa [List.mem_singleton.mp hc]
    · intro hall
      exact hall last (List.mem_append_right _ List.mem_cons_self)

theorem Orderly.commit (h : s.Orderly)
    (habove : ∀ c ∈ s.events e.session, c.sequence < e.sequence) :
    (s.commit e).Orderly where
  noneEmpty session := by
    rw [get?_histories_commit]
    split
    · simp
    · exact h.noneEmpty session
  session_eq session x hx := by
    rw [events_commit] at hx
    split at hx
    · next hsession =>
      rcases List.mem_append.mp hx with hx | hx
      · exact h.session_eq session x hx
      · rw [List.mem_singleton.mp hx, hsession]
    · exact h.session_eq session x hx
  rising session := by
    rw [events_commit]
    split
    · next hsession =>
      refine List.pairwise_append.mpr ⟨h.rising session, List.pairwise_singleton _ _, ?_⟩
      intro c hc x hx
      rw [List.mem_singleton.mp hx]
      exact habove c (hsession ▸ hc)
    · exact h.rising session
  highWater_eq session := by
    rw [highWater_commit, events_commit]
    split
    · rw [List.getLast?_concat, Option.map_some]
    · exact h.highWater_eq session
  generation_eq := by
    rw [(perm_allEvents_commit s e).length_eq, List.length_cons, ← h.generation_eq]
    rfl

/-- **One offer** commits an event above all of its session, and nothing else. -/
theorem Orderly.offer_eq (h : s.Orderly) (e : Event) : s.offer e
    = if ∀ c ∈ s.events e.session, c.sequence < e.sequence then s.commit e else s := by
  rw [EventStore.offer_eq]
  exact if_congr h.isAbove_iff rfl rfl

theorem Orderly.offer (h : s.Orderly) (e : Event) : (s.offer e).Orderly := by
  rw [h.offer_eq]
  split
  · next habove => exact h.commit habove
  · exact h

/-- **Any number of offers.** -/
theorem Orderly.foldl_offer (h : s.Orderly) (es : List Event) :
    (es.foldl EventStore.offer s).Orderly := by
  induction es generalizing s with
  | nil => exact h
  | cons e rest ih => exact ih (h.offer e)

theorem Orderly.take (h : s.Orderly) (intake : Intake) : (s.take intake).Orderly := by
  cases intake with
  | event e => exact h.offer e
  | batch es =>
    rw [EventStore.take, ingestBatch, fst_ingestAll]
    exact h.foldl_offer _

theorem orderly_run (intakes : List Intake) : (run intakes).Orderly := by
  induction intakes using List.reverseRecOn with
  | nil => exact orderly_empty
  | append_singleton before intake ih =>
    rw [run, List.foldl_concat]
    exact ih.take intake

/-- A store is known by its histories. -/
theorem Orderly.eq_of_events_eq (hs : s.Orderly) (ht : t.Orderly)
    (h : ∀ session, s.events session = t.events session) : s = t := by
  have hhistories : s.histories = t.histories := hs.noneEmpty.histories_eq ht.noneEmpty h
  have hmarks : s.marks = t.marks := by
    refine Table.ext_get? fun session ↦ ?_
    change s.highWater session = t.highWater session
    rw [hs.highWater_eq, ht.highWater_eq, h]
  have hgeneration : s.generation = t.generation := by
    rw [hs.generation_eq, ht.generation_eq, allEvents, allEvents, hhistories]
  cases s
  cases t
  cases hhistories
  cases hmarks
  cases hgeneration
  rfl

/-! ## Outcomes -/

theorem Orderly.outcome_eq_duplicate_iff (h : s.Orderly) :
    s.outcome e = .duplicate ↔ ∃ c ∈ s.events e.session, c.sequence = e.sequence := by
  have hfound : (s.events e.session).toArray.binSearchContains e Event.isLower = true ↔
      ∃ c ∈ s.events e.session, c.sequence = e.sequence := by
    have hrising : (s.events e.session).toArray.toList.Pairwise fun a b ↦ a.sequence < b.sequence :=
      h.rising e.session
    rw [Event.binSearchContains_iff hrising]
    simp
  have habove : isAbove (s.highWater e.session) e.sequence = true ↔
      ∀ c ∈ s.events e.session, c.sequence < e.sequence := h.isAbove_iff
  rw [outcome]
  cases hmark : s.highWater e.session with
  | none =>
    rw [hmark] at habove
    refine iff_of_false (by simp) ?_
    rintro ⟨c, hc, heq⟩
    exact UInt64.ne_of_lt (habove.mp rfl c hc) heq
  | some high =>
    rw [hmark, isAbove, decide_eq_true_iff] at habove
    dsimp only
    split
    · next hlt =>
      refine iff_of_false (by simp) ?_
      rintro ⟨c, hc, heq⟩
      exact UInt64.ne_of_lt (habove.mp hlt c hc) heq
    · rw [← hfound]
      split
      · next hmem => exact iff_of_true rfl hmem
      · next hmem => exact iff_of_false (by simp) hmem

theorem Orderly.answers (h : s.Orderly) (e : Event) : s.Answers e := by
  have happlied : s.outcome e = .applied ↔ ∀ c ∈ s.events e.session, c.sequence < e.sequence :=
    outcome_eq_applied_iff.trans h.isAbove_iff
  have hduplicate := h.outcome_eq_duplicate_iff (e := e)
  refine ⟨happlied, hduplicate, ?_, fun hout session ↦ ?_, fun hout ↦ if_neg hout⟩
  · -- what is neither above all numbers nor one of them is below one of them
    change s.outcome e = .stale ↔ _
    have hstale : s.outcome e = .stale ↔ s.outcome e ≠ .applied ∧ s.outcome e ≠ .duplicate := by
      cases s.outcome e <;> simp
    rw [hstale, ne_eq, ne_eq, happlied, hduplicate]
    push Not
    refine and_congr_left fun hne ↦ exists_congr fun c ↦ and_congr_right fun hc ↦ ?_
    exact ⟨fun hle ↦ UInt64.lt_of_le_of_ne (UInt64.not_lt.mp hle) (hne c hc).symm, UInt64.lt_asymm⟩
  · change (if s.outcome e = .applied then s.commit e else s).events session = _
    have hout : s.outcome e = .applied := hout
    rw [if_pos hout, events_commit]

/-! ## Offers -/

/-- One more event is a maximum if all events before it are below. -/
theorem maxima_concat (es : List Event) (e : Event) : maxima (es ++ [e])
    = maxima es ++ if ∀ x ∈ es, x.sequence < e.sequence then [e] else [] := by
  induction es with
  | nil => simp [maxima]
  | cons x rest ih =>
    rw [List.cons_append, maxima, maxima, ih, List.filter_append, List.cons_append]
    congr 2
    by_cases hall : ∀ y ∈ x :: rest, y.sequence < e.sequence
    · obtain ⟨hx, hrest⟩ := List.forall_mem_cons.mp hall
      rw [if_pos hrest, if_pos hall]
      exact List.filter_cons_of_pos (Event.isLower_iff.mpr hx)
    · rw [if_neg hall]
      split
      · next hrest =>
        -- only the first event can be in the way
        refine List.filter_cons_of_neg fun hx ↦ hall ?_
        exact List.forall_mem_cons.mpr ⟨Event.isLower_iff.mp hx, hrest⟩
      · rfl

/-- The maxima are below a number exactly if all events are. -/
theorem forall_maxima_lt_iff {es : List Event} :
    (∀ x ∈ maxima es, x.sequence < n) ↔ ∀ x ∈ es, x.sequence < n := by
  induction es using List.reverseRecOn with
  | nil => rfl
  | append_singleton before e ih =>
    rw [maxima_concat, List.forall_mem_append, List.forall_mem_append, ih]
    refine and_congr_right fun hbefore ↦ ?_
    split
    · rfl
    · next hnot =>
      -- an event that is no maximum is below one before it
      refine iff_of_true (fun x hx ↦ by cases hx) fun x hx ↦ ?_
      push Not at hnot
      obtain ⟨y, hy, hle⟩ := hnot
      rw [List.mem_singleton.mp hx]
      exact UInt64.lt_of_le_of_lt (UInt64.not_lt.mp hle) (hbefore y hy)

theorem maxima_eq_self {es : List Event} (h : es.Pairwise fun a b ↦ a.sequence < b.sequence) :
    maxima es = es := by
  induction es with
  | nil => rfl
  | cons e rest ih =>
    obtain ⟨hhead, hrest⟩ := List.pairwise_cons.mp h
    rw [maxima, ih hrest, List.filter_eq_self.mpr fun x hx ↦ Event.isLower_iff.mpr (hhead x hx)]

theorem Orderly.events_offer (h : s.Orderly) (e : Event) (session : String) :
    (s.offer e).events session = s.events session ++
      if e.session = session ∧ ∀ c ∈ s.events session, c.sequence < e.sequence then [e]
      else [] := by
  rw [h.offer_eq]
  by_cases hsession : e.session = session
  · subst hsession
    by_cases habove : ∀ c ∈ s.events e.session, c.sequence < e.sequence
    · rw [if_pos habove, if_pos ⟨rfl, habove⟩, events_commit, if_pos rfl]
    · rw [if_neg habove, if_neg (not_and.mpr fun _ ↦ habove), List.append_nil]
  · rw [if_neg (not_and_of_not_left _ hsession), List.append_nil]
    split
    · rw [events_commit, if_neg (Ne.symm hsession)]
    · rfl

/-- **A run of offers** leaves in each history what is above all that came before. -/
theorem Orderly.events_foldl_offer_eq_maxima (h : s.Orderly) (es : List Event) (session : String) :
    (es.foldl EventStore.offer s).events session
      = maxima (s.events session ++ es.filter fun e ↦ e.session == session) := by
  induction es using List.reverseRecOn with
  | nil => rw [List.filter_nil, List.append_nil, maxima_eq_self (h.rising session), List.foldl_nil]
  | append_singleton before e ih =>
    rw [List.foldl_concat, (h.foldl_offer before).events_offer, ih, List.filter_append]
    by_cases hsession : e.session = session
    · have hfilter : [e].filter (fun e ↦ e.session == session) = [e] := by simp [hsession]
      rw [hfilter, ← List.append_assoc, maxima_concat]
      simp only [forall_maxima_lt_iff, hsession, true_and]
    · have hfilter : [e].filter (fun e ↦ e.session == session) = [] := by simp [hsession]
      rw [hfilter, List.append_nil, if_neg (not_and_of_not_left _ hsession), List.append_nil]

theorem Orderly.foldl_offer_eq (h : s.Orderly) {es es' : List Event}
    (hsessions : ∀ session, (es.filter fun e ↦ e.session == session)
      = es'.filter fun e ↦ e.session == session) :
    es.foldl EventStore.offer s = es'.foldl EventStore.offer s := by
  refine (h.foldl_offer es).eq_of_events_eq (h.foldl_offer es') fun session ↦ ?_
  rw [h.events_foldl_offer_eq_maxima, h.events_foldl_offer_eq_maxima, hsessions]

/-- **Upkeep.** Whatever a store was given, its histories are in order, its marks and its generation
agree with them, and it says of each event what its history says. -/
theorem keepsOrder_run (intakes : List Intake) : (run intakes).KeepsOrder where
  rising := (orderly_run intakes).rising
  highWater_eq := (orderly_run intakes).highWater_eq
  generation_eq := (orderly_run intakes).generation_eq
  answers := (orderly_run intakes).answers
  events_offers := (orderly_run intakes).events_foldl_offer_eq_maxima
  offers_eq _ _ := (orderly_run intakes).foldl_offer_eq

end EventStore

end SessionReplay
