import Mathlib.Data.List.Chain
import SessionReplay.Proofs.Growth
import SessionReplay.Proofs.Timer.DelegatedTime

/-!
# Whom a report frees

A delegation may be requested by several agents under one identifier, and then all of them wait for
it. The replay keeps one agent for each delegation, the one that requested it last, and a report
that the delegation is over frees this agent alone. A second report right after it finds nobody, and
frees the agent that makes it: `Entry.freed`.

So an agent waits on if another one requests its delegation before the report, even though the
delegation is over: `SessionTimers.not_freesAll_takenOver`. The entries that name a delegation tell
exactly who is left waiting, and nobody is if between two reports all requests come from one agent:
`SessionTimers.keepsWaiting_ofTimeline`.

## Neighbours

Whom a report frees is said by the report and the entry that named the delegation right before it.
So who is left waiting is a condition on neighbours in the list `Timeline.naming`, and one more
entry adds one pair of neighbours: `Timeline.isLeftWaiting_concat_iff`.
-/

namespace SessionReplay

namespace Entry

/-- The delegation that an entry requests, or reports to be over. -/
def named? (e : Entry) : Option String := e.requested?.or e.released?

/-- The agent that a report frees, given the entry that named the delegation before: after a request
the one that made it, and after another report the one that reports. -/
def freed (before report : Entry) : String :=
  if before.requested?.isSome then before.agent else report.agent

theorem released?_eq_none {e : Entry} {id : String} (h : e.requested? = some id) :
    e.released? = none := by
  rw [requested?] at h
  rw [released?]
  generalize e.payload = payload at h
  cases payload with
  | delegationRequested _ _ _ => rfl
  | _ => cases h

theorem named?_eq_some_iff {e : Entry} {id : String} :
    e.named? = some id ↔ e.requested? = some id ∨ e.released? = some id := by
  rw [named?]
  cases hrequested : e.requested? with
  | none => simp
  | some j => simp [released?_eq_none hrequested]

end Entry

namespace Timeline

variable {name id : String} {timeline : List Entry} {e : Entry}

/-- The entries that name a delegation. -/
def naming (id : String) (timeline : List Entry) : List Entry :=
  timeline.filter fun e ↦ e.named? == some id

/-- The last that is said of a delegation is that it is over. -/
def IsOver (id : String) (timeline : List Entry) : Prop :=
  ∃ e ∈ (naming id timeline).getLast?, e.released? = some id

/-- An agent requests a delegation, and no later report frees it. -/
def IsLeftWaiting (name id : String) (timeline : List Entry) : Prop :=
  ∃ before e after, naming id timeline = before ++ e :: after ∧
    (e.requested? = some id ∧ e.agent = name) ∧
    (e :: after).IsChain fun x y ↦ y.released? = some id → x.freed y ≠ name

/-- Requests of a delegation that no report stands between come from one agent. -/
def IsAskedInTurn (id : String) (timeline : List Entry) : Prop :=
  (naming id timeline).IsChain fun x y ↦
    x.requested? = some id → y.requested? = some id → x.agent = y.agent

/-! ## Neighbours -/

private theorem isChain_concat_iff {α : Type} {r : α → α → Prop} {xs : List α} {y : α} :
    (xs ++ [y]).IsChain r ↔ xs.IsChain r ∧ ∀ x ∈ xs.getLast?, r x y := by
  rw [List.isChain_append]
  simp

theorem naming_concat_of_named (h : e.named? = some id) :
    naming id (timeline ++ [e]) = naming id timeline ++ [e] := by
  rw [naming, List.filter_append, List.filter_singleton, h, BEq.rfl, cond_true, naming]

theorem naming_concat_of_ne (h : e.named? ≠ some id) :
    naming id (timeline ++ [e]) = naming id timeline := by
  rw [naming, List.filter_append, List.filter_singleton, beq_false_of_ne h, cond_false,
    List.append_nil, naming]

/-- **One more entry** that names a delegation adds its agent, or frees one. -/
theorem isLeftWaiting_concat_iff (h : e.named? = some id) :
    IsLeftWaiting name id (timeline ++ [e]) ↔
      (e.requested? = some id ∧ e.agent = name) ∨ IsLeftWaiting name id timeline ∧
        ∀ x ∈ (naming id timeline).getLast?, e.released? = some id → x.freed e ≠ name := by
  rw [IsLeftWaiting, naming_concat_of_named h, exists_split_concat_iff,
    and_iff_left (List.isChain_singleton e)]
  refine or_congr_right ⟨?_, ?_⟩
  · rintro ⟨before, x, after, hsplit, hx, hchain⟩
    rw [← List.cons_append, isChain_concat_iff] at hchain
    rw [hsplit, List.getLast?_append_cons]
    exact ⟨⟨before, x, after, hsplit, hx, hchain.1⟩, hchain.2⟩
  · rintro ⟨⟨before, x, after, hsplit, hx, hchain⟩, hlast⟩
    rw [hsplit, List.getLast?_append_cons] at hlast
    exact ⟨before, x, after, hsplit, hx, isChain_concat_iff.mpr ⟨hchain, hlast⟩⟩

private theorem isLeftWaiting_concat_iff_of_ne (h : e.named? ≠ some id) :
    IsLeftWaiting name id (timeline ++ [e]) ↔ IsLeftWaiting name id timeline := by
  rw [IsLeftWaiting, naming_concat_of_ne h, IsLeftWaiting]

/-- As long as one agent at a time makes requests, the first report frees it. -/
theorem exists_freed {after : List Entry} (he : e.requested? = some id)
    (hnames : ∀ x ∈ after, x.named? = some id)
    (hover : ∃ x ∈ (e :: after).getLast?, x.released? = some id)
    (hturn : (e :: after).IsChain fun x y ↦
      x.requested? = some id → y.requested? = some id → x.agent = y.agent) :
    ¬(e :: after).IsChain fun x y ↦ y.released? = some id → x.freed y ≠ e.agent := by
  induction after generalizing e with
  | nil =>
    obtain ⟨x, hx, hreport⟩ := hover
    obtain rfl : e = x := Option.some.inj hx
    rw [Entry.released?_eq_none he] at hreport
    cases hreport
  | cons y rest ih =>
    rw [List.isChain_cons_cons] at hturn ⊢
    rw [List.getLast?_cons_cons] at hover
    rw [List.forall_mem_cons, Entry.named?_eq_some_iff] at hnames
    rintro ⟨hfirst, hchain⟩
    rcases hnames.1 with hy | hy
    · rw [hturn.1 he hy] at hchain
      exact ih hy hnames.2 hover hturn.2 hchain
    · refine hfirst hy ?_
      rw [Entry.freed, he, Option.isSome_some, if_pos rfl]

/-- Nobody is left waiting for a delegation that one agent at a time requests. -/
theorem IsOver.not_isLeftWaiting (hover : IsOver id timeline) (hturn : IsAskedInTurn id timeline) :
    ¬IsLeftWaiting name id timeline := by
  rintro ⟨before, e, after, hsplit, ⟨he, rfl⟩, hchain⟩
  have hnames : ∀ x ∈ naming id timeline, x.named? = some id := fun x hx ↦
    eq_of_beq (List.mem_filter.mp hx).2
  rw [IsOver, hsplit, List.getLast?_append_cons] at hover
  rw [IsAskedInTurn, hsplit] at hturn
  refine exists_freed he (fun x hx ↦ hnames x ?_) hover hturn.right_of_append hchain
  rw [hsplit]
  exact List.mem_append_right _ (List.mem_cons_of_mem _ hx)

end Timeline

namespace SessionTimers

open Timeline (naming IsOver IsLeftWaiting IsAskedInTurn)

/-- Whether an agent waits for a delegation. -/
def waitsFor (t : SessionTimers) (name id : String) : Bool :=
  (t.agents.get? name).any fun a ↦ a.waitingFor.contains id

namespace Replay

variable {name id : String} {timeline : List Entry}

/-- The agent that is kept for a delegation is the one that requested it last, and nobody after a
report. -/
theorem get?_owners_foldl_step :
    (timeline.foldl step start).owners.get? id = (naming id timeline).getLast?.bind fun e ↦
      if e.requested?.isSome then some e.agent else none := by
  induction timeline using List.reverseRecOn with
  | nil => rfl
  | append_singleton before e ih =>
    rw [List.foldl_concat, get?_owners_step]
    by_cases hnames : e.named? = some id
    · rw [Timeline.naming_concat_of_named hnames, List.getLast?_concat, Option.bind_some]
      rcases Entry.named?_eq_some_iff.mp hnames with he | he
      · rw [if_pos he, he, Option.isSome_some, if_pos rfl]
      · have hne : e.requested? = none := Option.eq_none_iff_forall_ne_some.mpr fun j hj ↦ by
          rw [Entry.released?_eq_none hj] at he
          cases he
        rw [hne, if_neg (Option.some_ne_none id).symm, if_pos he, Option.isSome_none,
          if_neg Bool.false_ne_true]
    · rw [Timeline.naming_concat_of_ne hnames, ← ih]
      rw [Entry.named?_eq_some_iff, not_or] at hnames
      rw [if_neg hnames.1, if_neg hnames.2]

/-- **One entry.** A request lets its agent wait, and a report frees the agent that is kept for the
delegation, or else its own. -/
theorem contains_waitingFor_step (r : Replay) (e : Entry) :
    ((r.step e).agent name).waitingFor.contains id = true ↔
      (e.requested? = some id ∧ e.agent = name) ∨ (r.agent name).waitingFor.contains id = true ∧
        ¬(e.released? = some id ∧ (r.owners.get? id).getD e.agent = name) := by
  rw [agent_step, AgentTimer.contains_heed, signal?_eq_delegate_iff, Ne, signal?_eq_release_iff]

/-- **Any number of entries.** An agent waits for what it has requested as long as no report frees
it. -/
theorem contains_waitingFor_iff_isLeftWaiting :
    ((timeline.foldl step start).agent name).waitingFor.contains id = true ↔
      IsLeftWaiting name id timeline := by
  induction timeline using List.reverseRecOn with
  | nil => simp [IsLeftWaiting, naming]; rfl
  | append_singleton before e ih =>
    rw [List.foldl_concat, contains_waitingFor_step, ih, get?_owners_foldl_step]
    by_cases hnames : e.named? = some id
    · rw [Timeline.isLeftWaiting_concat_iff hnames]
      refine or_congr_right (and_congr_right fun hleft ↦ ?_)
      obtain ⟨last, hlast⟩ : ∃ last, (naming id before).getLast? = some last := by
        obtain ⟨start, x, rest, hsplit, -⟩ := hleft
        rw [hsplit, List.getLast?_append_cons]
        exact ⟨_, List.getLast?_eq_some_getLast (List.cons_ne_nil x rest)⟩
      have hfreed : (if last.requested?.isSome then some last.agent else none).getD e.agent
          = last.freed e := by
        rw [Entry.freed]
        split <;> rfl
      simp only [hlast, Option.bind_some, Option.mem_some_iff, forall_eq', hfreed, not_and, ne_eq]
    · rw [Timeline.isLeftWaiting_concat_iff_of_ne hnames]
      rw [Entry.named?_eq_some_iff, not_or] at hnames
      simp [hnames.1, hnames.2]

end Replay

variable {timeline : List Entry}

/-- Nobody waits for a delegation that is over. -/
def FreesAll (timeline : List Entry) (t : SessionTimers) : Prop :=
  ∀ id, IsOver id timeline → ∀ name, t.waitsFor name id = false

/-- Who waits for what at the end of a timeline. -/
structure KeepsWaiting (timeline : List Entry) (t : SessionTimers) : Prop where
  waitsFor_iff : ∀ name id, t.waitsFor name id = true ↔ IsLeftWaiting name id timeline
  /-- A report frees everyone if the requests before it come from one agent. -/
  waitsFor_eq_false : ∀ id, IsOver id timeline → IsAskedInTurn id timeline →
    ∀ name, t.waitsFor name id = false

private theorem waitsFor_ofTimeline_iff (name id : String) :
    (ofTimeline timeline).waitsFor name id = true ↔ IsLeftWaiting name id timeline := by
  rw [← Replay.contains_waitingFor_iff_isLeftWaiting, waitsFor, ofTimeline, agents_settle,
    Replay.agent]
  cases (timeline.foldl Replay.step .start).timers.agents.get? name with
  | none => exact iff_of_false Bool.false_ne_true Bool.false_ne_true
  | some a => rfl

/-- **Waiting.** An agent waits for a delegation exactly if it has requested it and no report since
then has freed it. Nobody waits for one that is over and that one agent at a time has requested. -/
theorem keepsWaiting_ofTimeline (timeline : List Entry) :
    (ofTimeline timeline).KeepsWaiting timeline where
  waitsFor_iff := waitsFor_ofTimeline_iff
  waitsFor_eq_false id hover hturn name := by
    rw [Bool.eq_false_iff, ne_eq, waitsFor_ofTimeline_iff]
    exact hover.not_isLeftWaiting hturn

/-- An agent requests one delegation twice, and another agent reports that it is over. -/
def requestedTwice : List Entry :=
  [mainEntry 1 1000 (.userPrompt "go"),
   mainEntry 2 2000 (.delegationRequested "d1" none none),
   mainEntry 3 3000 (.delegationRequested "d1" none none),
   ⟨⟨4, "s1", some "worker", some 4000, .delegationFailed "d1" none⟩, "worker", 4000⟩]

theorem waitsFor_requestedTwice : IsOver "d1" requestedTwice ∧ IsAskedInTurn "d1" requestedTwice ∧
    ∀ name, (ofTimeline requestedTwice).waitsFor name "d1" = false := by
  have hover : IsOver "d1" requestedTwice := ⟨_, rfl, rfl⟩
  have hturn : IsAskedInTurn "d1" requestedTwice :=
    .cons_cons (fun _ _ ↦ rfl) (.cons_cons (fun _ hreport ↦ nomatch hreport) (.singleton _))
  exact ⟨hover, hturn, (keepsWaiting_ofTimeline requestedTwice).waitsFor_eq_false "d1" hover hturn⟩

/-- Two agents request one delegation before it is over. -/
def takenOver : List Entry :=
  [mainEntry 1 1000 (.userPrompt "go"),
   mainEntry 2 2000 (.delegationRequested "d1" none none),
   ⟨⟨3, "s1", some "worker", some 3000, .delegationRequested "d1" none none⟩, "worker", 3000⟩,
   mainEntry 4 4000 (.delegationCompleted "d1" none)]

/-- The first of two agents waits on although the delegation is over. -/
theorem not_freesAll_takenOver : ¬(ofTimeline takenOver).FreesAll takenOver := by
  intro h
  have hover : IsOver "d1" takenOver := ⟨_, rfl, rfl⟩
  have hwaits : (ofTimeline takenOver).waitsFor "main" "d1" = true := by decide
  exact Bool.false_ne_true ((h "d1" hover "main").symm.trans hwaits)

end SessionTimers

end SessionReplay
