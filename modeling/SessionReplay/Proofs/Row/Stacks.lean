import SessionReplay.Proofs.Delegation.Parts
import SessionReplay.Proofs.Row.Identity
import SessionReplay.Proofs.Row.Parts

/-!
# Delegations inside delegations

An agent that delegates while it has delegations open goes one level deeper each time. Its open
delegations are a stack: a tool call stands under the innermost one, and the further in a delegation
is, the deeper is its row. Any of them may end first, and this takes it from the stack and changes
nothing else: `RowBuilder.stacksUp_foldl_step`.

## Two books again

The tracker keeps the stack and notes the depth of each call as it is told. That the depths rise is
the builder's doing: it puts a call under the innermost delegation, and tells the tracker of it with
the depth that this gives. So the depths rise in runs of the builder and not in all runs of the
tracker, and `Tracker.Rising` is carried along the things of a transcript,
`RowBuilder.Stacked.rising_step`.
-/

namespace SessionReplay

/-- In a rising list of numbers, each is further from the first than its place is. -/
private theorem length_add_head_le_getLast {ns : List Nat} (h : ns.Pairwise (· < ·)) {m n : Nat}
    (hm : ns.head? = some m) (hn : ns.getLast? = some n) : ns.length + m ≤ n + 1 := by
  induction ns generalizing m with
  | nil => cases hm
  | cons k rest ih =>
    obtain ⟨hlt, hrest⟩ := List.pairwise_cons.mp h
    obtain rfl : k = m := Option.some.inj hm
    cases rest with
    | nil =>
      obtain rfl : k = n := Option.some.inj hn
      exact Nat.le_of_eq (Nat.add_comm _ _)
    | cons k' rest =>
      have hle := ih hrest rfl (by rwa [List.getLast?_cons_cons] at hn)
      have hk := hlt k' List.mem_cons_self
      rw [List.length_cons]
      omega

namespace Tracker

open Delegation (Evolves)

variable {t : Tracker} {agent call : String} {d : Delegation}

/-! ## Open delegations -/

/-- The delegations that an agent has open, from the outermost to the innermost. -/
def openDelegations (t : Tracker) (agent : String) : List Delegation :=
  (t.stack agent).reverse.filterMap t.groups.get?

/-- The delegation of the first call is deeper than that of the second. -/
def Deeper (groups : Table Delegation) (c c' : String) : Prop :=
  ∀ d', groups.get? c' = some d' → ∀ d, groups.get? c = some d → d'.depth < d.depth

/-- On every stack, what is further in is deeper. -/
def Rising (t : Tracker) : Prop := ∀ agent, (t.stack agent).Pairwise (Deeper t.groups)

theorem Rising.pairwise (h : t.Rising) (agent : String) :
    (t.openDelegations agent).Pairwise fun d d' ↦ d.depth < d'.depth :=
  List.pairwise_filterMap.mpr (List.pairwise_reverse.mpr (h agent))

/-- What is on a stack is a delegation of the agent in progress. -/
def StacksOpen (t : Tracker) : Prop :=
  ∀ agent c, c ∈ t.stack agent ↔ IsOpen t.groups agent c

theorem Orderly.mem_openDelegations_iff (h : t.Orderly) (hopen : t.StacksOpen) :
    d ∈ t.openDelegations agent ↔
      t.groups.get? d.call = some d ∧ d.agent = agent ∧ d.isInProgress = true := by
  simp only [openDelegations, List.mem_filterMap, List.mem_reverse, hopen agent]
  constructor
  · rintro ⟨c, ⟨d', hd', hagent, hprogress⟩, hd⟩
    obtain rfl : d' = d := Option.some.inj (hd'.symm.trans hd)
    exact ⟨h.call_eq c d' hd ▸ hd, hagent, hprogress⟩
  · rintro ⟨hd, hagent, hprogress⟩
    exact ⟨d.call, ⟨d, hd, hagent, hprogress⟩, hd⟩

theorem Orderly.map_call_openDelegations (h : t.Orderly) (hopen : t.StacksOpen) (agent : String) :
    (t.openDelegations agent).map Delegation.call = (t.stack agent).reverse := by
  rw [openDelegations, List.map_filterMap]
  refine Eq.trans (List.filterMap_congr fun c hc ↦ ?_) List.filterMap_some
  obtain ⟨d, hd, -⟩ := (hopen agent c).mp (List.mem_reverse.mp hc)
  rw [hd, Option.map_some, h.call_eq c d hd]

/-- The last of the open delegations is the innermost. -/
theorem StacksOpen.getLast?_openDelegations (hopen : t.StacksOpen) (agent : String) :
    (t.openDelegations agent).getLast? = t.innermost? agent := by
  rw [openDelegations, List.filterMap_reverse, List.getLast?_reverse, innermost?]
  cases hstack : t.stack agent with
  | nil => rfl
  | cons c rest =>
    obtain ⟨d, hd, -⟩ := (hopen agent c).mp (hstack ▸ List.mem_cons_self)
    rw [List.filterMap_cons_some hd, List.head?_cons, List.head?_cons, Option.bind_some, hd]

/-- No open delegation is deeper than the innermost one. -/
theorem Rising.depth_le_of_innermost? (h : t.Rising) (hopen : t.StacksOpen) {c : String}
    (hc : c ∈ t.stack agent) (hd : t.groups.get? c = some d) :
    ∃ d', t.innermost? agent = some d' ∧ d.depth ≤ d'.depth := by
  rw [innermost?]
  have hpairwise := h agent
  cases hstack : t.stack agent with
  | nil =>
    rw [hstack] at hc
    cases hc
  | cons top rest =>
    rw [hstack] at hc hpairwise
    obtain ⟨d', hd', -⟩ := (hopen agent top).mp (hstack ▸ List.mem_cons_self)
    refine ⟨d', hd', ?_⟩
    rcases List.mem_cons.mp hc with rfl | hrest
    · exact Nat.le_of_eq (congrArg Delegation.depth (Option.some.inj (hd.symm.trans hd')))
    · exact Nat.le_of_lt ((List.pairwise_cons.mp hpairwise).1 c hrest d hd d' hd')

/-- **One report** keeps the depths rising, if a call that it opens is deeper than all that its
agent has open. -/
theorem Rising.step (h : t.Rising) (ht : t.Orderly) (hopen : t.StacksOpen) {r : Report}
    (hr : ∀ o, r = .opened o → ∀ c ∈ t.stack o.agent, ∀ d, t.groups.get? c = some d →
      d.depth < o.depth) : (t.step r).Rising := by
  intro agent
  have hrelated := (ht.step r).2
  have hget : ∀ agent c, c ∈ t.stack agent → (t.entered r).get? c = t.groups.get? c := by
    intro agent c hc
    obtain ⟨d, hd, -⟩ := (hopen agent c).mp hc
    rw [get?_entered_of_get? hd, hd]
  have hentered : (t.pushed agent r ++ t.stack agent).Pairwise (Deeper (t.entered r)) := by
    have hold : (t.stack agent).Pairwise (Deeper (t.entered r)) := by
      refine (h agent).imp_of_mem fun hc hc' hdeeper ↦ ?_
      rwa [Deeper, hget agent _ hc, hget agent _ hc']
    cases r with
    | opened o =>
      rw [pushed]
      split
      · next hnew =>
        obtain ⟨hnew, rfl⟩ := hnew
        refine List.pairwise_cons.mpr ⟨fun c hc d' hd' d hd ↦ ?_, hold⟩
        rw [hget _ c hc] at hd'
        rw [entered, Table.get?_insertNew, if_pos rfl, Table.contains_eq_false_iff.mp hnew] at hd
        obtain rfl := Option.some.inj hd
        exact hr o rfl c hc d' hd'
      · exact hold
    | _ => exact hold
  refine (hentered.sublist (ht.stack_step_sublist r agent)).imp fun {c c'} hdeeper d' hd' d hd ↦ ?_
  obtain ⟨d₀', hd₀', hevolves'⟩ := hrelated.exists_of_get?_eq_some hd'
  obtain ⟨d₀, hd₀, hevolves⟩ := hrelated.exists_of_get?_eq_some hd
  rw [hevolves'.depth_eq, hevolves.depth_eq]
  exact hdeeper d₀' hd₀' d₀ hd₀

end Tracker

namespace RowBuilder

variable {b : RowBuilder} {i : Item}

/-! ## Runs of the builder -/

/-- What holds of the stacks at all times. -/
structure Stacked (b : RowBuilder) : Prop where
  orderly : b.tracker.Orderly
  stacksOpen : b.tracker.StacksOpen
  rising : b.tracker.Rising

/-- A tool call of an agent with an open delegation stands under the innermost one. -/
theorem place_of_innermost? {e : Entry} {call name : String} {arguments : Json} {d : Delegation}
    (he : e.payload = .toolStart call name arguments)
    (hd : b.tracker.innermost? e.agent = some d) :
    b.place (.event e) = .under d ((b.tracker.route? e.agent).map Delegation.call) := by
  rw [place, he]
  dsimp only
  rw [toolPlace?, hd, Option.getD_some]

/-- A call that opens a delegation is deeper than all that its agent has open. -/
theorem Stacked.depth_lt_of_report? (h : b.Stacked) {o : Opening}
    (hreport : b.report? i = some (.opened o)) {c : String} (hc : c ∈ b.tracker.stack o.agent)
    {d : Delegation} (hd : b.tracker.groups.get? c = some d) : d.depth < o.depth := by
  cases reports_of_report? hreport with
  | @opened e call name arguments he hnew hdelegates =>
    obtain ⟨d', hinnermost, hle⟩ := h.rising.depth_le_of_innermost? h.stacksOpen hc hd
    rw [place_of_innermost? he hinnermost]
    exact Nat.lt_succ_of_le hle

/-- **One thing of a transcript.** -/
theorem Stacked.rising_step (h : b.Stacked) (i : Item) : (b.step i).tracker.Rising := by
  rw [tracker_step_eq]
  cases hreport : b.report? i with
  | none => exact h.rising
  | some r =>
    refine h.rising.step h.orderly h.stacksOpen fun o ho c hc d hd ↦ ?_
    exact h.depth_lt_of_report? (ho ▸ hreport) hc hd

/-- **Any number of things.** -/
theorem stacked_foldl_step (session : String) (options : Options) (items : List Item) :
    (items.foldl step (.start session options)).Stacked := by
  have hopen : ∀ items : List Item,
      (items.foldl step (.start session options)).tracker.StacksOpen := by
    intro items
    obtain ⟨reports, hfinal, hrun⟩ := exists_run_tracker_final session options items
    rw [hrun]
    exact (Tracker.agree_run hfinal).mem_stack_iff
  refine ⟨orderly_foldl_step Tracker.orderly_empty items, hopen items, ?_⟩
  induction items using List.reverseRecOn with
  | nil => exact fun _ ↦ List.Pairwise.nil
  | append_singleton before i ih =>
    rw [List.foldl_concat]
    exact Stacked.rising_step ⟨orderly_foldl_step Tracker.orderly_empty before, hopen before, ih⟩ i

/-! ## Delegations of one agent stack up -/

/-- The open delegations of the agents are stacks. -/
structure StacksUp (b : RowBuilder) : Prop where
  map_call : ∀ agent, (b.tracker.openDelegations agent).map Delegation.call
    = (b.tracker.stack agent).reverse
  /-- The open delegations of an agent are those of its delegations that are in progress. -/
  mem_openDelegations_iff : ∀ agent d, d ∈ b.tracker.openDelegations agent ↔
    b.tracker.groups.get? d.call = some d ∧ d.agent = agent ∧ d.isInProgress = true
  /-- From the outermost to the innermost, their depths rise. -/
  rising : ∀ agent, (b.tracker.openDelegations agent).Pairwise fun d d' ↦ d.depth < d'.depth
  /-- A new tool call of the agent stands under the innermost, and deeper for each of them. -/
  call : ∀ (e : Entry) (call name : String) (arguments : Json) (outermost innermost : Delegation),
    e.payload = .toolStart call name arguments → b.call? call = none →
    (b.tracker.openDelegations e.agent).head? = some outermost →
    (b.tracker.openDelegations e.agent).getLast? = some innermost →
    ∃ r, (b.step (.event e)).rows = r :: b.rows ∧ r.isCall call = true ∧
      r.parent = some innermost.call ∧
      (b.tracker.openDelegations e.agent).length + outermost.depth ≤ r.depth
  /-- Whichever delegation is ended, it ends alone. -/
  finish : ∀ call d e, b.tracker.groups.get? call = some d →
    b.tracker.EndsAlone (b.tracker.finishGroup call e) call d.agent
  /-- And so does every delegation that ends with a thing of a transcript. -/
  step : ∀ i call d, (b.step i).tracker.groups.get? call = some d → d.isInProgress = false →
    (∀ d₀, b.tracker.groups.get? call = some d₀ → d₀.isInProgress = true) →
    b.tracker.EndsAlone (b.step i).tracker call d.agent

theorem Stacked.exists_row (h : b.Stacked) {e : Entry} {call name : String} {arguments : Json}
    {outermost innermost : Delegation} (he : e.payload = .toolStart call name arguments)
    (hnew : b.call? call = none)
    (hhead : (b.tracker.openDelegations e.agent).head? = some outermost)
    (hlast : (b.tracker.openDelegations e.agent).getLast? = some innermost) :
    ∃ r, (b.step (.event e)).rows = r :: b.rows ∧ r.isCall call = true ∧
      r.parent = some innermost.call ∧
      (b.tracker.openDelegations e.agent).length + outermost.depth ≤ r.depth := by
  have hinnermost := h.stacksOpen.getLast?_openDelegations e.agent ▸ hlast
  have hplace := place_of_innermost? he hinnermost
  have hrow : (b.callRow e call name arguments).place = b.place (.event e) := by
    rw [place, he]
    rfl
  refine ⟨_, rows_step_of_toolStart he hnew, beq_self_eq_true call, ?_, ?_⟩
  · exact congrArg Placement.parent (hrow.trans hplace)
  · have hdepth : (b.callRow e call name arguments).depth = innermost.depth + 1 :=
      congrArg Placement.depth (hrow.trans hplace)
    have hpairwise := List.pairwise_map.mpr (h.rising.pairwise e.agent)
    have hle := length_add_head_le_getLast hpairwise
      (by rw [List.head?_map, hhead, Option.map_some])
      (by rw [List.getLast?_map, hlast, Option.map_some])
    rwa [List.length_map, ← hdepth] at hle

theorem Stacked.endsAlone_step (h : b.Stacked) {call : String} {d : Delegation}
    (hd : (b.step i).tracker.groups.get? call = some d) (hended : d.isInProgress = false)
    (hbefore : ∀ d₀, b.tracker.groups.get? call = some d₀ → d₀.isInProgress = true) :
    b.tracker.EndsAlone (b.step i).tracker call d.agent := by
  rw [tracker_step_eq] at hd ⊢
  cases hreport : b.report? i with
  | none =>
    rw [hreport] at hd
    rw [hbefore d hd] at hended
    cases hended
  | some r =>
    rw [hreport] at hd
    obtain ⟨e, hends⟩ := h.orderly.exists_ends? hd hended hbefore
    exact h.orderly.endsAlone_step hends hd

theorem Stacked.stacksUp (h : b.Stacked) : b.StacksUp where
  map_call agent := h.orderly.map_call_openDelegations h.stacksOpen agent
  mem_openDelegations_iff _ _ := h.orderly.mem_openDelegations_iff h.stacksOpen
  rising agent := h.rising.pairwise agent
  call _ _ _ _ _ _ := h.exists_row
  finish _ _ e hd := Tracker.endsAlone_finishGroup hd e
  step _ _ _ := h.endsAlone_step

/-- **Delegations stack up**, at every point of every transcript. -/
theorem stacksUp_foldl_step (session : String) (options : Options) (items : List Item) :
    (items.foldl RowBuilder.step (.start session options)).StacksUp :=
  (stacked_foldl_step session options items).stacksUp

-- the outer delegation ends first, and the next call stands under the inner one
example : (RowSet.ofTimeline "s1"
    [⟨⟨1, "s1", none, none, .toolStart "outer" "delegate" .null⟩, "main", 10⟩,
      ⟨⟨2, "s1", none, none, .toolStart "inner" "delegate" .null⟩, "main", 20⟩,
      ⟨⟨3, "s1", none, none, .toolEnd "outer" none .null false⟩, "main", 30⟩,
      ⟨⟨4, "s1", none, none, .toolStart "call" "read" .null⟩, "main", 40⟩]
    default).rows.map Row.parent = [none, some "outer", some "inner"] := rfl

end RowBuilder

end SessionReplay
