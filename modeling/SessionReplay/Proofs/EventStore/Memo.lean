import SessionReplay.Command.Run
import SessionReplay.Proofs.EventStore.Batch

/-!
# The generation as a key

Who shows a log again and again need not make the view anew each time. It is enough to keep the last
view with the generation of the store that it was made of, and to make a new one when the generation
is another one: `EventStore.isMemoKey_generation`.

## Two ways for a store to go on

A store that stays takes in more and more, and its generation counts what it commits. If the
generation stands, nothing was committed: `EventStore.foldl_offer_eq_self`.

A display has no store that stays. It fills a new one from the whole log each time, and an event at
the end of the log may come anywhere in the sorted batch, or have the number of an event before it.
But of several events with one number the first one in the log counts, so the new store has all
events of the old one, `EventStore.mem_allEvents_append`. The generation counts events, hence if it
stands there are no others.
-/

namespace SessionReplay

namespace EventStore

open Timeline (admitted)

variable {s : EventStore} {e : Event} {session : String} {events later : List Event}

/-- Two stores give the same answers. -/
structure Alike (s t : EventStore) : Prop where
  sessions_eq : s.sessions = t.sessions
  events_eq : ∀ session, s.events session = t.events session
  highWater_eq : ∀ session, s.highWater session = t.highWater session

theorem Orderly.alike_iff {t : EventStore} (hs : s.Orderly) (ht : t.Orderly) :
    s.Alike t ↔ s = t := by
  constructor
  · intro h
    exact hs.eq_of_events_eq ht h.events_eq
  · rintro rfl
    exact ⟨rfl, fun _ ↦ rfl, fun _ ↦ rfl⟩

/-! ## A store that stays -/

theorem offer_eq_self_or (s : EventStore) (e : Event) :
    s.offer e = s ∨ (s.offer e).generation = s.generation + 1 := by
  rw [offer_eq]
  split
  · exact Or.inr rfl
  · exact Or.inl rfl

private theorem generation_le_foldl_offer (s : EventStore) (es : List Event) :
    s.generation ≤ (es.foldl offer s).generation := by
  induction es generalizing s with
  | nil => exact Nat.le_refl _
  | cons e rest ih =>
    have hrest := ih (s.offer e)
    rw [List.foldl_cons]
    rcases s.offer_eq_self_or e with h | h
    · rwa [h] at hrest ⊢
    · omega

/-- **Any number of offers** change nothing if the generation stands. -/
theorem foldl_offer_eq_self {es : List Event}
    (h : (es.foldl offer s).generation = s.generation) : es.foldl offer s = s := by
  induction es generalizing s with
  | nil => rfl
  | cons e rest ih =>
    rw [List.foldl_cons] at h ⊢
    rcases s.offer_eq_self_or e with heq | hraised
    · rw [heq] at h ⊢
      exact ih h
    · have hrest := generation_le_foldl_offer (s.offer e) rest
      omega

/-- The events of an intake in the order in which they are offered. -/
def Intake.offers : Intake → List Event
  | .event e => [e]
  | .batch es => es.mergeSort comesFirst

private theorem take_eq_foldl_offer (s : EventStore) (intake : Intake) :
    s.take intake = intake.offers.foldl offer s := by
  cases intake with
  | event e => rfl
  | batch es => exact fst_ingestAll s _

private theorem run_append (before after : List Intake) :
    run (before ++ after) = (after.flatMap Intake.offers).foldl offer (run before) := by
  rw [run, List.foldl_append, ← run, List.foldl_flatMap]
  exact congrArg (fun f ↦ after.foldl f (run before)) (funext fun s ↦ funext s.take_eq_foldl_offer)

/-! ## A log that is read again -/

theorem Orderly.nodup_allEvents (h : s.Orderly) : s.allEvents.Nodup := by
  rw [allEvents_eq_flatMap, List.nodup_flatMap]
  refine ⟨fun session _ ↦ (h.rising session).imp fun hlt heq ↦ ?_, ?_⟩
  · exact UInt64.lt_irrefl _ (heq ▸ hlt)
  · refine (Table.nodup_keys s.histories).imp fun hne e he he' ↦ hne ?_
    exact (h.session_eq _ e he).symm.trans (h.session_eq _ e he')

theorem firstDelivered?_append (session : String) (n : UInt64) (events later : List Event) :
    firstDelivered? session n (events ++ later)
      = (firstDelivered? session n events).or (firstDelivered? session n later) :=
  List.find?_append

/-- What is committed from a log is committed from a longer one as well. -/
theorem mem_allEvents_append (later : List Event) (h : e ∈ (ofBatch events).allEvents) :
    e ∈ (ofBatch (events ++ later)).allEvents := by
  rw [(orderly_ofBatch _).mem_allEvents_iff, events_ofBatch, Timeline.mem_admitted_iff] at h ⊢
  rw [firstDelivered?_append, h, Option.some_or]

/-- **A longer log** fills a store alike if the generation stands. -/
theorem ofBatch_append_eq
    (h : (ofBatch (events ++ later)).generation = (ofBatch events).generation) :
    ofBatch (events ++ later) = ofBatch events := by
  have hold := orderly_ofBatch events
  have hnew := orderly_ofBatch (events ++ later)
  have hsub : (ofBatch events).allEvents.Subperm (ofBatch (events ++ later)).allEvents :=
    List.subperm_of_subset hold.nodup_allEvents fun e he ↦ mem_allEvents_append later he
  have hperm : (ofBatch events).allEvents.Perm (ofBatch (events ++ later)).allEvents := by
    refine hsub.perm_of_length_le ?_
    rw [← hnew.generation_eq, ← hold.generation_eq, h]
  refine hnew.eq_of_events_eq hold fun session ↦ ?_
  rw [← hnew.admitted_allEvents, ← hold.admitted_allEvents]
  exact (Delivery.admitted_eq hold.unambiguous_allEvents (fun e ↦ hperm.mem_iff) session).symm

/-- The generation stands exactly if every number at the end of a log was there before. -/
theorem ofBatch_append_eq_iff : ofBatch (events ++ later) = ofBatch events ↔
    ∀ x ∈ later, ∃ e ∈ events, e.session = x.session ∧ e.sequence = x.sequence := by
  constructor
  · intro h x hx
    have hfound : (firstDelivered? x.session x.sequence (events ++ later)).isSome :=
      List.find?_isSome.mpr ⟨x, List.mem_append_right _ hx, by simp⟩
    obtain ⟨y, hy⟩ := Option.isSome_iff_exists.mp hfound
    have hsequence := (Timeline.mem_of_firstDelivered? hy).2.2
    have hadmitted : y ∈ admitted x.session (events ++ later) :=
      Timeline.mem_admitted_iff.mpr (hsequence ▸ hy)
    rw [← events_ofBatch, h, events_ofBatch] at hadmitted
    obtain ⟨hmem, hsession⟩ := Timeline.mem_of_mem_admitted hadmitted
    exact ⟨y, hmem, hsession, hsequence⟩
  · intro h
    refine (orderly_ofBatch _).eq_of_events_eq (orderly_ofBatch _) fun session ↦ ?_
    rw [events_ofBatch, events_ofBatch]
    refine Timeline.admitted_eq_of_mem_iff (Timeline.pairwise_admitted _ _) fun e ↦ ?_
    rw [Timeline.mem_admitted_iff, firstDelivered?_append]
    cases hfind : firstDelivered? session e.sequence events with
    | some y => rw [Option.some_or]
    | none =>
      rw [Option.none_or]
      refine iff_of_false (Option.some_ne_none e).symm fun hlater ↦ ?_
      obtain ⟨hmem, hsession, -⟩ := Timeline.mem_of_firstDelivered? hlater
      obtain ⟨y, hy, hysession, hysequence⟩ := h e hmem
      exact List.find?_eq_none.mp hfind y hy (by simp [hysession, hsession, hysequence])

/-! ## A view that is kept -/

/-- The view of the session to show. -/
def shown (s : EventStore) (options : Options) (requested : Option String) :
    Except NoSession SessionView :=
  (s.choose requested).map fun session ↦ Command.view options false session s

end EventStore

/-- A view, and the key of the store that it was made of. -/
structure Memo where
  key : Nat
  view : SessionView

namespace Memo

variable (key : EventStore → Nat) (options : Options) (requested : Option String)

/-- The view to show of a log: the one that was kept if its key is that of the log's store, and else
a new one. -/
def refresh (kept : Option Memo) (log : List Event) : Except NoSession Memo :=
  let store := EventStore.ofBatch log
  (store.shown options requested).map fun view ↦
    (kept.filter fun memo ↦ memo.key == key store).getD ⟨key store, view⟩

/-- What is shown of a log that is read again and again, as long as something runs and there is a
session to show. The last view is kept. -/
def watch (kept : Option Memo) : List (List Event) → List (Except NoSession SessionView)
  | [] => []
  | log :: rest =>
    match refresh key options requested kept log with
    | .error why => [.error why]
    | .ok memo => .ok memo.view :: if memo.view.needsTick then watch (some memo) rest else []

/-- The same, with a new view each time. -/
def watchAnew : List (List Event) → List (Except NoSession SessionView)
  | [] => []
  | log :: rest =>
    match (EventStore.ofBatch log).shown options requested with
    | .error why => [.error why]
    | .ok view => .ok view :: if view.needsTick then watchAnew rest else []

end Memo

namespace EventStore

/-- A key that tells whether a store is still the same, be it that it has taken in more or that it
is filled anew from a longer log. So a view that is kept with its key is shown only while it is
right. -/
structure IsMemoKey (key : EventStore → Nat) : Prop where
  alike_run_iff : ∀ before after, key (run (before ++ after)) = key (run before) ↔
    (run (before ++ after)).Alike (run before)
  alike_ofBatch_iff : ∀ events later, key (ofBatch (events ++ later)) = key (ofBatch events) ↔
    (ofBatch (events ++ later)).Alike (ofBatch events)
  /-- The key stands exactly if no number is new. -/
  ofBatch_iff : ∀ events later, key (ofBatch (events ++ later)) = key (ofBatch events) ↔
    ∀ x ∈ later, ∃ e ∈ events, e.session = x.session ∧ e.sequence = x.sequence
  /-- Who keeps the last view shows the same as who makes a new one each time. -/
  watch_eq : ∀ options requested log (additions : List (List Event)),
    Memo.watch key options requested none (additions.scanl (· ++ ·) log)
      = Memo.watchAnew options requested (additions.scanl (· ++ ·) log)

end EventStore

namespace Memo

open EventStore (generation ofBatch)

variable {options : Options} {requested : Option String} {memo : Memo} {kept : Option Memo}
  {log : List Event}

/-- The view of a log is kept with the generation of its store. -/
def IsRightFor (options : Options) (requested : Option String) (memo : Memo) (log : List Event) :
    Prop :=
  memo.key = (ofBatch log).generation ∧ (ofBatch log).shown options requested = .ok memo.view

/-- A kept view is right for a log of which there is a longer one now. -/
def IsKeptFrom (options : Options) (requested : Option String) (kept : Option Memo)
    (log : List Event) : Prop :=
  ∀ memo ∈ kept, ∃ earlier, earlier <+: log ∧ memo.IsRightFor options requested earlier

theorem IsRightFor.isKeptFrom (h : memo.IsRightFor options requested log) (later : List Event) :
    IsKeptFrom options requested (some memo) (log ++ later) := by
  rintro memo' ⟨⟩
  exact ⟨log, List.prefix_append log later, h⟩

/-- **One reading** keeps the view of the log that is read, whatever was kept before. -/
theorem refresh_eq (h : IsKeptFrom options requested kept log) :
    refresh generation options requested kept log =
      ((ofBatch log).shown options requested).map fun view ↦ ⟨(ofBatch log).generation, view⟩ := by
  rw [refresh]
  cases kept with
  | none => rfl
  | some memo =>
    obtain ⟨earlier, ⟨later, rfl⟩, hkey, hshown⟩ := h memo rfl
    rw [Option.filter_some]
    by_cases hsame : memo.key = (ofBatch (earlier ++ later)).generation
    · -- The store is the one that the kept view was made of.
      have hstore : ofBatch (earlier ++ later) = ofBatch earlier :=
        EventStore.ofBatch_append_eq (hsame.symm.trans hkey)
      rw [hstore, hshown, ← hkey, beq_self_eq_true]
      rfl
    · rw [beq_false_of_ne hsame]
      rfl

/-- **A whole watch** of a log that grows. The invariant is that the kept view is right for a
beginning of the log. -/
theorem watch_scanl (additions : List (List Event)) (h : IsKeptFrom options requested kept log) :
    watch generation options requested kept (additions.scanl (· ++ ·) log)
      = watchAnew options requested (additions.scanl (· ++ ·) log) := by
  induction additions generalizing kept log with
  | nil =>
    rw [List.scanl_nil, watch, watchAnew, refresh_eq h]
    cases (ofBatch log).shown options requested with
    | error why => rfl
    | ok view => simp only [Except.map, watch, watchAnew]
  | cons later rest ih =>
    rw [List.scanl_cons, watch, watchAnew, refresh_eq h]
    cases hshown : (ofBatch log).shown options requested with
    | error why => rfl
    | ok view =>
      have hright : IsRightFor options requested ⟨(ofBatch log).generation, view⟩ log :=
        ⟨rfl, hshown⟩
      simp only [Except.map, ih (hright.isKeptFrom later)]

end Memo

namespace EventStore

/-- **The generation tells** whether a store is still the same. -/
theorem isMemoKey_generation : IsMemoKey generation where
  alike_run_iff before after := by
    rw [(orderly_run _).alike_iff (orderly_run _)]
    constructor
    · intro h
      rw [run_append] at h ⊢
      exact foldl_offer_eq_self h
    · exact congrArg generation
  alike_ofBatch_iff events later := by
    rw [(orderly_ofBatch _).alike_iff (orderly_ofBatch _)]
    exact ⟨ofBatch_append_eq, congrArg generation⟩
  ofBatch_iff events later := by
    rw [← ofBatch_append_eq_iff]
    exact ⟨ofBatch_append_eq, congrArg generation⟩
  watch_eq options requested log additions := by
    refine Memo.watch_scanl additions ?_
    rintro _ ⟨⟩

end EventStore

end SessionReplay
