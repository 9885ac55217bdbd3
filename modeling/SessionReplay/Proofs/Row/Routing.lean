import SessionReplay.Proofs.Delegation.Routing
import SessionReplay.Proofs.Row.Identity
import SessionReplay.Proofs.Row.Inventory

/-!
# Rows in groups

A row goes into a group when it is made, and it stays there. The group is shown as it is after the
last event. The two fit together: the group is there, it is paired, its target is the agent of the
row, and its call was on display before. This is `SessionView.routesSoundly_ofEvents`.

## Two moments

What sent a row into its group is known when the row is made, and what is shown is known at the end.
So every row is traced to the thing that made it, `RowBuilder.made_of_rows_eq`, with the builder as
it was then. From there the tracker keeps what it knows of the group,
`RowBuilder.serves_foldl_step`.

The builder as it was then has seen the beginning of the transcript. This is not the transcript of
fewer events, for a message in it has all its pieces, the later ones too. But the tracker does not
look at what messages say, so it knows what it would know after fewer events:
`RowBuilder.alike_foldl_step_below`.
-/

namespace SessionReplay

namespace RowBuilder

variable {b : RowBuilder} {session : String} {options : Options} {items : List Item} {i : Item}
  {before : List Row} {r : Row} {group agent call : String}

/-! ## The origin of a row -/

/-- The builder made a row, when it had the rows that come before it now. Results of tool calls may
have come since. -/
structure Makes (b : RowBuilder) (i : Item) (r : Row) (before : List Row) : Prop where
  fresh : ∃ r₀, b.Fresh i r₀ ∧ r₀.Evolves r
  rows : List.Forall₂ Row.Evolves b.rows before

theorem Fresh.makes (hr : b.Fresh i r) : b.Makes i r b.rows :=
  ⟨⟨r, hr, Row.Evolves.refl r⟩, List.forall₂_same.mpr fun r _ ↦ Row.Evolves.refl r⟩

theorem Makes.map {f : Row → Row} (h : b.Makes i r before) (hf : ∀ r : Row, r.Evolves (f r)) :
    b.Makes i (f r) (before.map f) := by
  obtain ⟨r₀, hr₀, hevolves⟩ := h.fresh
  refine ⟨⟨r₀, hr₀, hevolves.trans (hf r)⟩, List.forall₂_map_right_iff.mpr ?_⟩
  exact h.rows.imp fun q q' hq ↦ hq.trans (hf q')

/-- One thing of a transcript made a row. -/
def Made (session : String) (options : Options) (items : List Item) (r : Row)
    (before : List Row) : Prop :=
  ∃ earlier i later, items = earlier ++ i :: later ∧
    (earlier.foldl step (.start session options)).Makes i r before

theorem Makes.made (h : (items.foldl step (.start session options)).Makes i r before) :
    Made session options (items ++ [i]) r before :=
  ⟨items, i, [], rfl, h⟩

theorem Made.concat (h : Made session options items r before) (i : Item) :
    Made session options (items ++ [i]) r before := by
  obtain ⟨earlier, x, later, rfl, hmakes⟩ := h
  exact ⟨earlier, x, later ++ [i], by rw [List.append_assoc, List.cons_append], hmakes⟩

theorem Made.map {f : Row → Row} (h : Made session options items r before)
    (hf : ∀ r : Row, r.Evolves (f r)) : Made session options items (f r) (before.map f) := by
  obtain ⟨earlier, i, later, hitems, hmakes⟩ := h
  exact ⟨earlier, i, later, hitems, hmakes.map hf⟩

/-- **Origin.** Every row was made by one thing of the transcript. -/
theorem made_of_rows_eq {after : List Row}
    (h : (items.foldl step (.start session options)).rows = after ++ r :: before) :
    Made session options items r before := by
  induction items using List.reverseRecOn generalizing r before after with
  | nil => cases after <;> cases h
  | append_singleton items i ih =>
    rw [List.foldl_concat] at h
    have hadded : ∀ {r' : Row}, (items.foldl step (.start session options)).Fresh i r' →
        r' :: (items.foldl step (.start session options)).rows = after ++ r :: before →
        Made session options (items ++ [i]) r before := by
      intro r' hr' hrows
      cases after with
      | nil =>
        obtain ⟨rfl, rfl⟩ := List.cons.inj hrows
        exact hr'.makes.made
      | cons _ after => exact (ih (List.cons.inj hrows).2).concat i
    have hanswered : ∀ call result,
        ((items.foldl step (.start session options)).answer call result).rows
          = after ++ r :: before → Made session options (items ++ [i]) r before := by
      intro call result hrows
      obtain ⟨f, hf, heq⟩ := exists_rows_answer _ call result
      obtain ⟨after', rest, hold, rfl, hrest⟩ := List.map_eq_append_iff.mp (heq.symm.trans hrows)
      obtain ⟨r', before', rfl, rfl, rfl⟩ := List.map_eq_cons_iff.mp hrest
      exact ((ih hold).map hf).concat i
    have heffect := effect_step (items.foldl step (.start session options)) i
    generalize step _ i = c at heffect h
    cases heffect with
    | add hr _ => exact hadded hr h
    | delegate hr _ _ => exact hadded hr h
    | answer call result => exact hanswered call result h
    | close call result _ => exact hanswered call result h
    | report _ => exact (ih h).concat i
    | ignore => exact (ih h).concat i

theorem Makes.sequence_eq (h : b.Makes i r before) : r.sequence = i.sequence := by
  obtain ⟨r₀, hr₀, hevolves⟩ := h.fresh
  exact hevolves.sequence_eq.trans hr₀.sequence_eq

theorem Makes.kind (h : b.Makes i r before) (hgroup : r.group = some group) :
    r.isMessage = true ∨ r.isTool = true := by
  obtain ⟨r₀, hr₀, hevolves⟩ := h.fresh
  rw [← hevolves.isMessage_eq, ← hevolves.isTool_eq]
  refine hr₀.kind.resolve_left fun hnone ↦ ?_
  rw [hevolves.group_eq, hnone] at hgroup
  cases hgroup

theorem Makes.exists_route? (h : b.Makes i r before) (hgroup : r.group = some group) :
    ∃ d, b.tracker.route? r.agent = some d ∧ d.call = group := by
  obtain ⟨r₀, hr₀, hevolves⟩ := h.fresh
  rw [hevolves.agent_eq]
  exact hr₀.exists_route? (hevolves.group_eq.symm.trans hgroup)

/-- The call of a group comes before the rows of the group. -/
theorem Makes.exists_call (h : b.Makes i r before) (hb : b.Inventory)
    (hgroup : r.group = some group) : ∃ q ∈ before, q.id = group ∧ q.delegates = true := by
  obtain ⟨d, hd, rfl⟩ := h.exists_route? hgroup
  obtain ⟨q₀, hq₀, hid, hdelegates⟩ := hb.exists_row (hb.orderly.contains_route? hd)
  obtain ⟨q, hq, hevolves⟩ := (Grows.of_forall₂ h.rows).exists_of_mem hq₀
  exact ⟨q, hq, hevolves.id_eq.trans hid, hevolves.delegates_eq.symm.trans hdelegates⟩

/-- A row goes into a delegation in progress whose work its agent is to do. -/
theorem Makes.exists_inProgress
    (h : (items.foldl step (.start session options)).Makes i r before)
    (hgroup : r.group = some group) :
    (∃ d, (items.foldl step (.start session options)).tracker.groups.get? group = some d ∧
      d.isInProgress = true) ∧
    Tracker.Serves (items.foldl step (.start session options)).tracker.groups r.agent group := by
  obtain ⟨reports, hrun⟩ := exists_run_tracker session options items
  obtain ⟨d, hd, rfl⟩ := h.exists_route? hgroup
  rw [hrun] at hd ⊢
  obtain ⟨hget, hprogress, hserves⟩ := Tracker.serves_of_route? hd
  exact ⟨⟨d, hget, hprogress⟩, hserves⟩

/-! ## From the row to the end -/

/-- **One thing of a transcript.** -/
theorem serves_step (h : b.tracker.Orderly) (hserves : Tracker.Serves b.tracker.groups agent call)
    (i : Item) : Tracker.Serves (b.step i).tracker.groups agent call := by
  rcases b.tracker_step i with heq | ⟨x, heq⟩
  · rw [heq]
    exact hserves
  · rw [heq]
    exact h.serves_step hserves x

/-- **Any number of things.** -/
theorem serves_foldl_step (h : b.tracker.Orderly)
    (hserves : Tracker.Serves b.tracker.groups agent call) (items : List Item) :
    Tracker.Serves (items.foldl step b).tracker.groups agent call := by
  induction items generalizing b with
  | nil => exact hserves
  | cons i rest ih => exact ih (b.orderly_step h i) (serves_step h hserves i)

/-! ## The moment a row is made -/

/-- Up to a thing of a transcript, the builder is in the state that it would have without the events
from there on, but for what live messages say. -/
theorem alike_foldl_step_below {events : List Event} {earlier later : List Item}
    (h : Transcript.ofTimeline (Timeline.ofEvents session events options)
      = earlier ++ i :: later) :
    ((Transcript.ofTimeline (Timeline.ofEvents session
        (events.filter fun e ↦ e.sequence < i.sequence) options)).foldl step
      (.start session options)).Alike (earlier.foldl step (.start session options)) := by
  have hrising := Transcript.pairwise_ofEvents session events options
  obtain ⟨entries, htimeline, hentries⟩ :=
    Timeline.exists_ofEvents_eq_append session events options i.sequence
  obtain ⟨old, new, hitems, hold, holdfrom, hnewfrom⟩ := Transcript.exists_ofTimeline_append
    (Timeline.ofEvents session (events.filter fun e ↦ e.sequence < i.sequence) options) entries
  rw [← htimeline, h] at hitems
  rw [h, List.pairwise_append, List.pairwise_cons] at hrising
  obtain ⟨-, ⟨hlater, -⟩, hearlier⟩ := hrising
  -- both cut the things with numbers below that of `i` from the rest
  have hsame : earlier = old := by
    refine eq_of_append_eq_append (p := fun x ↦ x.sequence < i.sequence) hitems
      (fun x hx ↦ hearlier x hx i List.mem_cons_self) ?_ (fun x hx ↦ ?_) fun x hx ↦ ?_
    · refine List.forall_mem_cons.mpr ⟨UInt64.lt_irrefl _, fun x hx ↦ ?_⟩
      exact UInt64.not_lt.mpr (UInt64.le_of_lt (hlater x hx))
    · obtain ⟨e, he, heq⟩ := holdfrom x hx
      rw [← heq]
      exact of_decide_eq_true (Timeline.of_mem_ofEvents_filter (p := (· < i.sequence)) he)
    · obtain ⟨e, he, heq⟩ := hnewfrom x hx
      rw [← heq]
      exact UInt64.not_lt.mpr (hentries e he)
  rw [hsame]
  exact (Alike.refl _).foldl_step hold

end RowBuilder

/-! ## Rows in groups -/

theorem Row.eq_none_of_plain {r : Row} (hplain : r.isPrompt = true ∨ r.isError = true)
    (hkind : ∀ group, r.group = some group → r.isMessage = true ∨ r.isTool = true) :
    r.group = none := by
  cases hgroup : r.group with
  | none => rfl
  | some group =>
    have h := hkind group hgroup
    rw [isMessage, isTool, tool?] at h
    rw [isPrompt, isError] at hplain
    cases hbody : r.body <;> simp [hbody] at h hplain

namespace SessionView

/-- A row of a view was sent into a group. The rows before it are given, and the view of what came
before it. -/
structure SentTo (v earlier : SessionView) (before : List Row) (r : Row) (group : String) :
    Prop where
  kind : r.isMessage = true ∨ r.isTool = true
  /-- The call of the group comes before the row. -/
  exists_call : ∃ q ∈ before, q.id = group ∧ q.delegates = true
  /-- The group is paired, and it is the agent of the row who does its work. -/
  exists_group : ∃ g, v.groups.get? group = some g ∧ g.delegation.isSome = true ∧
    g.target = some r.agent
  /-- The group was in progress when the row was made. -/
  inProgress : ∃ g, earlier.groups.get? group = some g ∧ g.isInProgress = true

/-- All rows in groups were sent there. The views of the events below a number are given. -/
structure RoutesSoundly (v : SessionView) (below : UInt64 → SessionView) : Prop where
  sent : ∀ before r after, v.rows = before ++ r :: after → ∀ group, r.group = some group →
    v.SentTo (below r.sequence) before r group
  /-- Prompts and errors are in no group. -/
  plain : ∀ r ∈ v.rows, r.isPrompt = true ∨ r.isError = true → r.group = none

theorem get?_groups_ofEvents (session : String) (events : List Event)
    (activity : Option Activity) (options : Options) (call : String) :
    (ofEvents session events activity options).groups.get? call
      = (((Transcript.ofTimeline (Timeline.ofEvents session events options)).foldl RowBuilder.step
          (.start session options)).tracker.groups.get? call).map
        (Group.ofRows (ofEvents session events activity options).rows) :=
  RowBuilder.get?_groups_finish _ _

theorem sentTo_ofEvents {session : String} {events : List Event} {options : Options}
    (activity : Option Activity) {before after : List Row} {r : Row} {group : String}
    (hrows : (ofEvents session events activity options).rows = before ++ r :: after)
    (hgroup : r.group = some group) :
    (ofEvents session events activity options).SentTo
      (ofEvents session (events.filter fun e ↦ e.sequence < r.sequence) activity options)
      before r group := by
  have hreverse := List.reverse_eq_iff.mp hrows
  rw [List.reverse_append, List.reverse_cons, List.append_assoc, List.singleton_append] at hreverse
  obtain ⟨earlier, i, later, hitems, hmakes⟩ := RowBuilder.made_of_rows_eq hreverse
  have hinventory := (RowBuilder.inventory_start session options).foldl_step earlier
  obtain ⟨⟨d, hd, hprogress⟩, hserves⟩ := hmakes.exists_inProgress hgroup
  refine ⟨hmakes.kind hgroup, ?_, ?_, ?_⟩
  · obtain ⟨q, hq, hcall⟩ := hmakes.exists_call hinventory hgroup
    exact ⟨q, List.mem_reverse.mp hq, hcall⟩
  · -- the state at the end comes after the state in which the row was made
    obtain ⟨d', hd', hpaired, htarget⟩ :=
      RowBuilder.serves_foldl_step hinventory.orderly hserves (i :: later)
    rw [← List.foldl_append, ← hitems] at hd'
    exact ⟨_, by rw [get?_groups_ofEvents, hd', Option.map_some], hpaired, htarget⟩
  · rw [(RowBuilder.alike_foldl_step_below hitems).tracker_eq] at hd
    rw [hmakes.sequence_eq]
    exact ⟨_, by rw [get?_groups_ofEvents, hd, Option.map_some], hprogress⟩

/-- **Routing.** What lies in a group are messages and tool calls of the agent who does the work of
the group, made while it was in progress. -/
theorem routesSoundly_ofEvents (session : String) (events : List Event)
    (activity : Option Activity) (options : Options) :
    (ofEvents session events activity options).RoutesSoundly fun n ↦
      ofEvents session (events.filter fun e ↦ e.sequence < n) activity options where
  sent _ _ _ hrows _ hgroup := sentTo_ofEvents activity hrows hgroup
  plain r hr hplain := by
    obtain ⟨before, after, hrows⟩ := List.append_of_mem hr
    exact Row.eq_none_of_plain hplain fun _ hgroup ↦ (sentTo_ofEvents activity hrows hgroup).kind

-- a worker's error is shown at the top, what it says is not
example : (RowSet.ofTimeline "s1"
    [⟨⟨1, "s1", none, none,
        .toolStart "call" "delegate" (.object [("agent_id", .string "worker")])⟩, "main", 10⟩,
      ⟨⟨2, "s1", none, none, .delegationRequested "d1" (some "worker") none⟩, "main", 20⟩,
      ⟨⟨3, "s1", none, none, .assistantMessage none "At work." none⟩, "worker", 30⟩,
      ⟨⟨4, "s1", none, none, .systemError "No route to host."⟩, "worker", 40⟩]
    default).rows.map Row.group = [none, some "call", none] := rfl

end SessionView

end SessionReplay
