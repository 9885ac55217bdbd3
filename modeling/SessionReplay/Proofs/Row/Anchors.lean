import SessionReplay.Proofs.Row.Nesting
import SessionReplay.Proofs.Row.Parts

/-!
# Where a tool call is anchored

A tool call of an agent that has nothing open should stand under the latest message that the agent
wrote in the group to which it is routed, or at the top when it is routed nowhere. It does so as
long as this is the latest message of the agent at all: `RowBuilder.exists_anchoredAt`.

## Why the agent falls back too far

Only one message is looked at, the agent's latest. When a delegation ends and its agent is sent back
to the group in which it worked before, the latest message lies in the other group. The messages
that the agent has in the group it is back in are not found, and the call stands under the call of
the group as though it were the first row of it: `RowBuilder.not_anchorsInContext_fellBack`.

## Depths tell the two apart

A row could have the name of another by chance, for what a call is called is not for the builder to
say. So that a row does not stand under a message is not shown by names alone: a message of a group
stands one level below the call of the group, `RowBuilder.MessagesFit`, and what stands under the
message two.
-/

namespace SessionReplay

/-- A row stands under another: it has its identifier as parent and is one level deeper. -/
def Row.Under (r q : Row) : Prop := r.parent = some q.id ∧ r.depth = q.depth + 1

theorem Tracker.Orderly.get?_of_route? {t : Tracker} (h : t.Orderly) {agent : String}
    {d : Delegation} (hd : t.route? agent = some d) : t.groups.get? d.call = some d := by
  obtain ⟨call, hget⟩ := exists_of_route? hd
  rwa [h.call_eq call d hget]

namespace RowBuilder

variable {b : RowBuilder} {e : Entry} {agent : String} {r q : Row}

/-- The group to which an agent is routed; none if its rows go to the top. -/
def context (b : RowBuilder) (agent : String) : Option String :=
  (b.tracker.route? agent).map Delegation.call

/-- The latest message of an agent in a group. -/
def latestIn? (b : RowBuilder) (agent : String) (group : Option String) : Option Row :=
  b.rows.find? fun r ↦ r.isMessage && r.agent == agent && r.group == group

/-- An event adds the row of a tool call that is to be anchored: the call is new, and its agent has
no delegation open, or it is the end of a call that was never seen. -/
inductive Anchors (b : RowBuilder) (e : Entry) : Prop
  | start {call name : String} {arguments : Json}
      (he : e.payload = .toolStart call name arguments) (hnew : b.call? call = none)
      (hfree : b.tracker.stack e.agent = [])
  | orphan {call : String} {name : Option String} {value : Json} {isError : Bool}
      (he : e.payload = .toolEnd call name value isError) (hnew : b.call? call = none)

/-- How a row is anchored that an agent adds. -/
structure AnchoredAt (b : RowBuilder) (agent : String) (r : Row) : Prop where
  group_eq : r.group = b.context agent
  /-- It stands under the agent's latest message, if that lies in its group. -/
  latest : ∀ q, b.latestMessage? agent = some q → q.group = b.context agent → r.Under q
  /-- Else it stands under the call of its group. -/
  routed : ∀ d, b.tracker.route? agent = some d →
    (∀ q, b.latestMessage? agent = some q → q.group ≠ b.context agent) →
    r.parent = some d.call ∧ r.depth = d.depth + 1
  /-- Without a group and without such a message it stands at the top. -/
  unrouted : b.tracker.route? agent = none →
    (∀ q, b.latestMessage? agent = some q → q.group ≠ b.context agent) → r.parent = none
  /-- It stands under the latest message of its group just if this is the latest of all. -/
  under_iff : ∀ q, b.latestIn? agent (b.context agent) = some q →
    (r.Under q ↔ b.latestMessage? agent = some q)

/-! ## Messages in groups -/

/-- A message in a group stands one level below the call of the group. -/
def MessagesFit (b : RowBuilder) : Prop :=
  ∀ r ∈ b.rows, r.isMessage = true → ∀ group, r.group = some group →
    ∃ d, b.tracker.groups.get? group = some d ∧ r.depth = d.depth + 1

/-- **One thing of a transcript.** -/
theorem MessagesFit.step (h : b.MessagesFit) (ht : b.tracker.Orderly) (i : Item) :
    (b.step i).MessagesFit := by
  have hkeeps : ∀ group (depth : Nat),
      (∃ d, b.tracker.groups.get? group = some d ∧ depth = d.depth + 1) →
      ∃ d, (b.step i).tracker.groups.get? group = some d ∧ depth = d.depth + 1 := by
    rintro group depth ⟨d, hd, hdepth⟩
    obtain ⟨d', hd', hevolves⟩ := b.keeps_step ht i group d hd
    exact ⟨d', hd', hdepth.trans (congrArg (· + 1) hevolves.depth_eq.symm)⟩
  intro r hr hmessage group hgroup
  refine hkeeps group r.depth ?_
  rcases b.rows_step i with ⟨x, hrows, hplace, honly⟩ | ⟨f, hf, hrows⟩
  · rw [hrows] at hr
    rcases List.mem_cons.mp hr with rfl | hr
    · obtain ⟨m, rfl⟩ := honly hmessage
      have hdepth : r.depth = (b.messagePlace m.agent).depth := congrArg Placement.depth hplace
      have hplaced : (b.messagePlace m.agent).group = some group :=
        (congrArg Placement.group hplace).symm.trans hgroup
      rw [messagePlace] at hdepth hplaced
      split at hplaced
      · next d hd =>
        rw [hd] at hdepth
        obtain rfl := Option.some.inj hplaced
        exact ⟨d, ht.get?_of_route? hd, hdepth⟩
      · cases hplaced
    · exact h r hr hmessage group hgroup
  · rw [hrows] at hr
    obtain ⟨q, hq, rfl⟩ := List.mem_map.mp hr
    rw [(hf q).group_eq] at hgroup
    rw [← (hf q).isMessage_eq] at hmessage
    rw [(hf q).depth_eq]
    exact h q hq hmessage group hgroup

private theorem messagesFit_foldl_step (session : String) (options : Options) (items : List Item) :
    (items.foldl RowBuilder.step (.start session options)).MessagesFit := by
  induction items using List.reverseRecOn with
  | nil => exact fun _ h ↦ by cases h
  | append_singleton before i ih =>
    rw [List.foldl_concat]
    exact ih.step (orderly_foldl_step Tracker.orderly_empty before) i

/-! ## Anchors -/

/-- The row of a tool call that is to be anchored stands where the anchor is, or, if there is none,
under nothing. -/
theorem Anchors.exists_rows_step (h : b.Anchors e) : ∃ r p, (b.step (.event e)).rows = r :: b.rows ∧
    p.parent = none ∧ p.group = none ∧ r.place = (b.anchor? e.agent).getD p := by
  cases h with
  | start he hnew hfree =>
    have hplace : b.toolPlace? e.agent = b.anchor? e.agent := by
      rw [toolPlace?, Tracker.innermost?, hfree]
      rfl
    exact ⟨_, .top, rows_step_of_toolStart he hnew, rfl, rfl,
      congrArg (Option.getD · Placement.top) hplace⟩
  | orphan he hnew => exact ⟨_, ⟨1, none, none⟩, rows_step_of_toolEnd he hnew, rfl, rfl, rfl⟩

theorem anchor?_eq_context (b : RowBuilder) (agent : String) : b.anchor? agent =
    match (b.latestMessage? agent).filter fun r ↦ r.group == b.context agent with
    | some r => some ⟨r.depth + 1, some r.id, b.context agent⟩
    | none => (b.tracker.route? agent).map fun d ↦ .under d (b.context agent) :=
  rfl

private theorem anchor?_of_latest (hq : b.latestMessage? agent = some q)
    (hgroup : q.group = b.context agent) :
    b.anchor? agent = some ⟨q.depth + 1, some q.id, b.context agent⟩ := by
  rw [anchor?_eq_context, hq, Option.filter_some, if_pos (beq_iff_eq.mpr hgroup)]

private theorem anchor?_of_elsewhere
    (h : ∀ q, b.latestMessage? agent = some q → q.group ≠ b.context agent) :
    b.anchor? agent = (b.tracker.route? agent).map fun d ↦ .under d (b.context agent) := by
  have hnone : ((b.latestMessage? agent).filter fun r ↦ r.group == b.context agent) = none :=
    Option.filter_eq_none_iff.mpr fun q hq ↦ beq_iff_eq.not.mpr (h q hq)
  rw [anchor?_eq_context, hnone]

/-- The latest message in a group is the latest of all, or that lies elsewhere. -/
theorem latestMessage?_eq_or {group : Option String} (hq : b.latestIn? agent group = some q) :
    b.latestMessage? agent = some q ∨
      ∀ q', b.latestMessage? agent = some q' → q'.group ≠ group := by
  cases hlatest : b.latestMessage? agent with
  | none => exact Or.inr fun q' hq' ↦ by cases hq'
  | some q' =>
    by_cases hgroup : q'.group = group
    · -- no message of the agent is later, so none in the group is
      obtain ⟨hmessage, later, earlier, hrows, hlater⟩ := List.find?_eq_some_iff_append.mp hlatest
      have hsame : b.latestIn? agent group = some q' := by
        refine List.find?_eq_some_iff_append.mpr ⟨?_, later, earlier, hrows, fun x hx ↦ ?_⟩
        · rw [hmessage, hgroup, beq_self_eq_true, Bool.and_self]
        · have hnot := hlater x hx
          rw [Bool.not_eq_true'] at hnot
          rw [hnot, Bool.false_and, Bool.not_false]
      exact Or.inl (hsame.symm.trans hq)
    · refine Or.inr fun x hx ↦ ?_
      rwa [← Option.some.inj hx]

/-- Where the latest message lies elsewhere, a row does not stand under a message of its group. -/
theorem MessagesFit.not_under (h : b.MessagesFit) (ht : b.tracker.Orderly)
    (hq : b.latestIn? agent (b.context agent) = some q) {p : Placement} (hparent : p.parent = none)
    (hplace : r.place
      = ((b.tracker.route? agent).map fun d ↦ .under d (b.context agent)).getD p) :
    ¬ r.Under q := by
  rintro ⟨hunder, hdepth⟩
  have hfound := List.find?_some hq
  rw [Bool.and_eq_true, Bool.and_eq_true, beq_iff_eq, beq_iff_eq] at hfound
  obtain ⟨⟨hmessage, -⟩, hgroup⟩ := hfound
  cases hroute : b.tracker.route? agent with
  | none =>
    rw [hroute] at hplace
    have hrow : r.parent = none := (congrArg Placement.parent hplace).trans hparent
    rw [hrow] at hunder
    cases hunder
  | some d =>
    rw [context, hroute] at hgroup
    rw [hroute] at hplace
    obtain ⟨d', hd', hd'depth⟩ := h q (List.mem_of_find?_eq_some hq) hmessage d.call hgroup
    obtain rfl : d = d' := Option.some.inj ((ht.get?_of_route? hroute).symm.trans hd')
    have hrow : r.depth = d.depth + 1 := congrArg Placement.depth hplace
    omega

private theorem anchoredAt_of_place {p : Placement} (hfit : b.MessagesFit) (ht : b.tracker.Orderly)
    (hparent : p.parent = none) (hgroup : p.group = none)
    (hplace : r.place = (b.anchor? agent).getD p) : b.AnchoredAt agent r where
  group_eq := by
    rw [context, ← b.group_getD_anchor? agent hgroup]
    exact congrArg Placement.group hplace
  latest q hq hsame := by
    rw [anchor?_of_latest hq hsame] at hplace
    exact ⟨congrArg Placement.parent hplace, congrArg Placement.depth hplace⟩
  routed d hd helsewhere := by
    rw [anchor?_of_elsewhere helsewhere, hd] at hplace
    exact ⟨congrArg Placement.parent hplace, congrArg Placement.depth hplace⟩
  unrouted hnone helsewhere := by
    rw [anchor?_of_elsewhere helsewhere, hnone] at hplace
    exact (congrArg Placement.parent hplace).trans hparent
  under_iff q hq := by
    have hfound := List.find?_some hq
    rw [Bool.and_eq_true, beq_iff_eq] at hfound
    rcases latestMessage?_eq_or hq with hlatest | helsewhere
    · rw [anchor?_of_latest hlatest hfound.2] at hplace
      exact iff_of_true ⟨congrArg Placement.parent hplace, congrArg Placement.depth hplace⟩ hlatest
    · rw [anchor?_of_elsewhere helsewhere] at hplace
      exact iff_of_false (hfit.not_under ht hq hparent hplace)
        fun hlatest ↦ helsewhere q hlatest hfound.2

/-- **Anchors.** A tool call that is to be anchored stands under the latest message of its agent, if
that lies in the group to which the agent is routed, and else under the call of the group, at every
point of every transcript. -/
theorem exists_anchoredAt (session : String) (options : Options) (items : List Item)
    (h : (items.foldl RowBuilder.step (.start session options)).Anchors e) :
    ∃ r, ((items.foldl RowBuilder.step (.start session options)).step (.event e)).rows
        = r :: (items.foldl RowBuilder.step (.start session options)).rows ∧
      (items.foldl RowBuilder.step (.start session options)).AnchoredAt e.agent r := by
  obtain ⟨r, p, hrows, hparent, hgroup, hplace⟩ := h.exists_rows_step
  exact ⟨r, hrows, anchoredAt_of_place (messagesFit_foldl_step session options items)
    (orderly_foldl_step Tracker.orderly_empty items) hparent hgroup hplace⟩

/-- Every tool call that is to be anchored stands under the latest message of its group, if there is
one. -/
def AnchorsInContext (b : RowBuilder) : Prop :=
  ∀ e r q, b.Anchors e → (b.step (.event e)).rows = r :: b.rows →
    b.latestIn? e.agent (b.context e.agent) = some q → r.Under q

/-- Two delegations to one agent, which writes a message in each. The second is over, and the agent
is back in the first. -/
def fellBack : List Item := Transcript.ofTimeline
  [⟨⟨1, "s1", none, none, .toolStart "tc1" "delegate" (.object [("agent_id", .string "worker")])⟩,
      "main", 1000⟩,
    ⟨⟨2, "s1", none, none, .delegationRequested "d1" (some "worker") none⟩, "main", 2000⟩,
    ⟨⟨3, "s1", none, none, .assistantMessage none "At work." none⟩, "worker", 3000⟩,
    ⟨⟨4, "s1", none, none, .toolStart "tc2" "delegate" (.object [("agent_id", .string "worker")])⟩,
      "main", 4000⟩,
    ⟨⟨5, "s1", none, none, .delegationRequested "d2" (some "worker") none⟩, "main", 5000⟩,
    ⟨⟨6, "s1", none, none, .assistantMessage none "At the second task." none⟩, "worker", 6000⟩,
    ⟨⟨7, "s1", none, none, .delegationCompleted "d2" none⟩, "main", 7000⟩]

/-- And it calls a tool. -/
def callsBack : Entry := ⟨⟨8, "s1", none, none, .toolStart "tc3" "read" .null⟩, "worker", 8000⟩

theorem exists_anchoredAt_fellBack :
    (fellBack.foldl RowBuilder.step (.start "s1" default)).Anchors callsBack ∧
      ∃ r, ((fellBack.foldl RowBuilder.step (.start "s1" default)).step (.event callsBack)).rows
          = r :: (fellBack.foldl RowBuilder.step (.start "s1" default)).rows ∧
        (fellBack.foldl RowBuilder.step (.start "s1" default)).AnchoredAt callsBack.agent r := by
  have h : (fellBack.foldl RowBuilder.step (.start "s1" default)).Anchors callsBack :=
    .start rfl rfl rfl
  exact ⟨h, exists_anchoredAt "s1" default fellBack h⟩

/-- The call stands under the call of the first group, where the agent has a message. -/
theorem not_anchorsInContext_fellBack :
    ¬ (fellBack.foldl RowBuilder.step (.start "s1" default)).AnchorsInContext := by
  intro h
  have hlatest : ((fellBack.foldl RowBuilder.step (.start "s1" default)).latestIn? "worker"
      (some "tc1")).map Row.id = some "s1:3" := rfl
  obtain ⟨q, hq, hid⟩ := Option.map_eq_some_iff.mp hlatest
  have hunder := h callsBack _ q (.start rfl rfl rfl) rfl hq
  have hparent : some "tc1" = some q.id := hunder.1
  rw [hid] at hparent
  exact absurd hparent (by decide)

end RowBuilder

end SessionReplay
