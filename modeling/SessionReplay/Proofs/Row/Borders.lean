import SessionReplay.Proofs.Row.Inventory

/-!
# The borders of groups

A row should stand under a row of its own group, or under the call of that group. A tool call may
break this, and nothing else: `RowSet.enclosed_ofTranscript_iff`.

## Two books

The parent of a tool call is the delegation that its agent opened last, and the group is the one to
which the agent is routed. Both were in keeping when the delegation was opened. But the agent may be
delegated to afterwards, or the delegation to it may end first, and then the next call of the agent
stands under a row of the group it worked for before. This is what `RowBuilder.Strays` says. An
anchor is sought in the agent's own group only, so all other rows keep to theirs.
-/

namespace SessionReplay

/-! ## Enclosed rows -/

/-- Among some rows, a row with a parent and a group crosses no border: the parent lies in the same
group, or the group is its own. Without a parent there is no group. -/
def Within (rows : List Row) (parent group : Option String) : Prop :=
  match parent with
  | some id => ∃ q ∈ rows, q.id = id ∧ (group = q.group ∨ group = some q.id)
  | none => group = none

/-- No row crosses a border to its parent, which comes before it. -/
def Enclosed (rows : List Row) : Prop :=
  ∀ before r after, rows = before ++ r :: after → Within before r.parent r.group

/-- A row stands under the row with a name, at any distance. -/
inductive Descends (rows : List Row) (id : String) : Row → Prop
  | self {r : Row} (hid : r.id = id) : Descends rows id r
  | under {r q : Row} (hq : q ∈ rows) (hparent : r.parent = some q.id) (h : Descends rows id q) :
    Descends rows id r

theorem Descends.mono {rows rows' : List Row} {id : String} {r : Row} (h : Descends rows id r)
    (hrows : rows ⊆ rows') : Descends rows' id r := by
  induction h with
  | self hid => exact .self hid
  | under hq hparent _ ih => exact .under (hrows hq) hparent ih

theorem enclosed_nil : Enclosed [] := fun before r after h ↦ by
  cases before <;> cases h

theorem enclosed_concat_iff {rows : List Row} {r : Row} :
    Enclosed (rows ++ [r]) ↔ Enclosed rows ∧ Within rows r.parent r.group :=
  forall_split_concat_iff

/-- **What borders are for.** A row of a group stands under the call of the group. -/
theorem Enclosed.descends {rows : List Row} (h : Enclosed rows) {r : Row} (hr : r ∈ rows)
    {group : String} (hgroup : r.group = some group) : Descends rows group r := by
  induction rows using List.reverseRecOn generalizing r with
  | nil => cases hr
  | append_singleton rows x ih =>
    obtain ⟨hrows, hx⟩ := enclosed_concat_iff.mp h
    have hsub : rows ⊆ rows ++ [x] := List.subset_append_left rows [x]
    rcases List.mem_append.mp hr with hr | hr
    · exact (ih hrows hr hgroup).mono hsub
    · obtain rfl := List.mem_singleton.mp hr
      cases hparent : r.parent with
      | some id =>
        rw [hparent] at hx
        obtain ⟨q, hq, rfl, hsame | hown⟩ := hx
        · exact .under (hsub hq) hparent ((ih hrows hq (hsame.symm.trans hgroup)).mono hsub)
        · exact .under (hsub hq) hparent (.self (Option.some.inj (hown.symm.trans hgroup)))
      | none =>
        rw [hparent] at hx
        cases hx.symm.trans hgroup

private theorem within_reverse_iff {rows : List Row} {parent group : Option String} :
    Within rows.reverse parent group ↔ Within rows parent group := by
  cases parent with
  | none => exact Iff.rfl
  | some id => exact exists_congr fun q ↦ and_congr_left fun _ ↦ List.mem_reverse

/-- No border depends on the result of a tool call. -/
theorem within_map_iff {f : Row → Row} (hf : ∀ r : Row, r.Evolves (f r)) {rows : List Row}
    {parent group : Option String} :
    Within (rows.map f) parent group ↔ Within rows parent group := by
  cases parent with
  | none => exact Iff.rfl
  | some id =>
    rw [Within, Within]
    simp only [List.mem_map, exists_exists_and_eq_and]
    refine exists_congr fun q ↦ and_congr_right fun _ ↦ ?_
    rw [(hf q).id_eq, (hf q).group_eq]

private theorem enclosed_map_iff {f : Row → Row} (hf : ∀ r : Row, r.Evolves (f r))
    {rows : List Row} :
    Enclosed (rows.map f) ↔ Enclosed rows := by
  induction rows using List.reverseRecOn with
  | nil => exact Iff.rfl
  | append_singleton rows r ih =>
    rw [List.map_append, List.map_singleton, enclosed_concat_iff, enclosed_concat_iff, ih,
      within_map_iff hf, (hf r).parent_eq, (hf r).group_eq]

namespace RowBuilder

variable {b : RowBuilder} {i : Item} {r : Row} {e : Entry} {agent : String} {d : Delegation}

/-- A new tool call strays: the innermost delegation that its agent has open was called from another
group than the one to which the agent is routed now, and that is not the delegation's own group
either. -/
inductive Strays (b : RowBuilder) : Item → Prop
  | call {e : Entry} {call name : String} {arguments : Json} {d : Delegation}
      (he : e.payload = .toolStart call name arguments) (hnew : b.call? call = none)
      (hopen : b.tracker.innermost? e.agent = some d)
      (hgroup : ∀ q ∈ b.rows, q.id = d.call →
        (b.tracker.route? e.agent).map Delegation.call ≠ q.group)
      (hown : (b.tracker.route? e.agent).map Delegation.call ≠ some d.call) :
      Strays b (.event e)

/-! ## Places -/

/-- What stands under the call of the delegation that routes its agent lies in its group. -/
theorem Inventory.within_route (h : b.Inventory) (hd : b.tracker.route? agent = some d) :
    Within b.rows (some d.call) (some d.call) := by
  obtain ⟨q, hq, hid, -⟩ := h.exists_row (h.orderly.contains_route? hd)
  exact ⟨q, hq, hid, Or.inr (congrArg some hid.symm)⟩

theorem Inventory.within_messagePlace (h : b.Inventory) (agent : String) :
    Within b.rows (b.messagePlace agent).parent (b.messagePlace agent).group := by
  rw [messagePlace]
  split
  · next d hd => exact h.within_route hd
  · rfl

theorem Inventory.within_anchor? (h : b.Inventory) {p : Placement}
    (hp : b.anchor? agent = some p) : Within b.rows p.parent p.group := by
  rw [anchor?] at hp
  split at hp
  · next r hr =>
    rw [← Option.some.inj hp]
    have hmem : r ∈ b.rows := List.mem_of_find?_eq_some (Option.eq_some_of_filter_eq_some hr)
    obtain ⟨-, hgroup⟩ := Option.filter_eq_some_iff.mp hr
    exact ⟨r, hmem, rfl, Or.inl (beq_iff_eq.mp hgroup).symm⟩
  · obtain ⟨d, hd, rfl⟩ := Option.map_eq_some_iff.mp hp
    rw [hd]
    exact h.within_route hd

theorem Inventory.within_getD_anchor? (h : b.Inventory) (agent : String) {p : Placement}
    (hparent : p.parent = none) (hgroup : p.group = none) :
    Within b.rows ((b.anchor? agent).getD p).parent ((b.anchor? agent).getD p).group := by
  cases hp : b.anchor? agent with
  | some p => exact h.within_anchor? hp
  | none =>
    rw [Option.getD_none, hparent]
    exact hgroup

/-- **A tool call** crosses no border exactly if it does not stray. -/
theorem Inventory.within_callRow_iff (h : b.Inventory) {call name : String} {arguments : Json}
    (he : e.payload = .toolStart call name arguments) (hnew : b.call? call = none) :
    Within b.rows (b.callRow e call name arguments).parent
      (b.callRow e call name arguments).group ↔ ¬ b.Strays (.event e) := by
  cases hopen : b.tracker.innermost? e.agent with
  | none =>
    have hplace : b.toolPlace? e.agent = b.anchor? e.agent := by rw [toolPlace?, hopen]
    refine iff_of_true ?_ ?_
    · rw [callRow, hplace]
      exact h.within_getD_anchor? e.agent rfl rfl
    · rintro ⟨-, -, hopen', -, -⟩
      rw [hopen] at hopen'
      cases hopen'
  | some d =>
    have hplace : b.toolPlace? e.agent
        = some (.under d ((b.tracker.route? e.agent).map Delegation.call)) := by
      rw [toolPlace?, hopen]
    rw [callRow, hplace]
    constructor
    · rintro ⟨q, hq, hid, hwithin⟩ ⟨-, -, hopen', hgroup, hown⟩
      obtain rfl := Option.some.inj (hopen.symm.trans hopen')
      rcases hwithin with hsame | hsame
      · exact hgroup q hq hid hsame
      · exact hown (hsame.trans (congrArg some hid))
    · intro hstays
      by_contra hcrosses
      obtain ⟨q, hq, hid, -⟩ := h.exists_row (h.orderly.contains_innermost? hopen)
      refine hstays (.call he hnew hopen (fun q hq hid hsame ↦ ?_) fun hsame ↦ ?_)
      · exact hcrosses ⟨q, hq, hid, Or.inl hsame⟩
      · exact hcrosses ⟨q, hq, hid, Or.inr (hsame.trans (congrArg some hid.symm))⟩

/-! ## Steps and runs -/

theorem enclosed_add_iff : Enclosed (b.add r).rows.reverse ↔
    Enclosed b.rows.reverse ∧ Within b.rows r.parent r.group := by
  rw [add, List.reverse_cons, enclosed_concat_iff, within_reverse_iff]

private theorem enclosed_answer_iff (call : String) (result : ToolResult) :
    Enclosed (b.answer call result).rows.reverse ↔ Enclosed b.rows.reverse := by
  obtain ⟨f, hf, hrows⟩ := b.exists_rows_answer call result
  rw [hrows, ← List.map_reverse, enclosed_map_iff hf]

theorem Inventory.enclosed_toolStart_iff (h : b.Inventory) {call name : String} {arguments : Json}
    (he : e.payload = .toolStart call name arguments) :
    Enclosed (b.toolStart e call name arguments).rows.reverse ↔
      Enclosed b.rows.reverse ∧ ¬ b.Strays (.event e) := by
  rw [toolStart]
  split
  · next hold =>
    -- a call that has its row adds none
    refine (and_iff_left ?_).symm
    rintro ⟨he', hnew, -, -, -⟩
    rw [he] at he'
    cases he'
    rw [hnew] at hold
    cases hold
  · next hold =>
    have hnew : b.call? call = none := Option.not_isSome_iff_eq_none.mp hold
    rw [← h.within_callRow_iff he hnew]
    exact enclosed_add_iff

theorem Inventory.enclosed_toolEnd_iff (h : b.Inventory) (e : Entry) (call : String)
    (name : Option String) (result : ToolResult) :
    Enclosed (b.toolEnd e call name result).rows.reverse ↔ Enclosed b.rows.reverse := by
  rw [toolEnd]
  split
  · exact enclosed_add_iff.trans (and_iff_left (h.within_getD_anchor? e.agent rfl rfl))
  · exact enclosed_answer_iff call result

/-- **One thing of a transcript** keeps rows enclosed exactly if it does not stray. -/
theorem Inventory.enclosed_step_iff (h : b.Inventory) :
    Enclosed (b.step i).rows.reverse ↔ Enclosed b.rows.reverse ∧ ¬ b.Strays i := by
  cases i with
  | message m =>
    have hstays : ¬ b.Strays (.message m) := fun h ↦ by cases h
    rw [and_iff_left hstays]
    exact enclosed_add_iff.trans (and_iff_left (h.within_messagePlace m.agent))
  | event e =>
    by_cases hstart : ∃ call name arguments, e.payload = .toolStart call name arguments
    · obtain ⟨call, name, arguments, he⟩ := hstart
      have hstep : b.step (.event e) = b.toolStart e call name arguments := by
        rw [RowBuilder.step, event, he]
      rw [hstep]
      exact h.enclosed_toolStart_iff he
    · have hstays : ¬ b.Strays (.event e) := by
        rintro ⟨he, -, -, -, -⟩
        exact hstart ⟨_, _, _, he⟩
      rw [and_iff_left hstays, RowBuilder.step, event]
      split
      · exact enclosed_add_iff.trans (and_iff_left rfl)
      · exact enclosed_add_iff.trans (and_iff_left rfl)
      · next he => exact absurd ⟨_, _, _, he⟩ hstart
      · exact h.enclosed_toolEnd_iff ..
      all_goals exact Iff.rfl

/-- **Any number of things.** -/
theorem enclosed_foldl_step_iff (session : String) (options : Options) (items : List Item) :
    Enclosed (items.foldl step (.start session options)).rows.reverse ↔
      ∀ before i after, items = before ++ i :: after →
        ¬ (before.foldl step (.start session options)).Strays i := by
  induction items using List.reverseRecOn with
  | nil => exact iff_of_true enclosed_nil fun before i after h ↦ by cases before <;> cases h
  | append_singleton before i ih =>
    have hinventory := (inventory_start session options).foldl_step before
    rw [List.foldl_concat, hinventory.enclosed_step_iff, ih]
    exact (forall_split_concat_iff (P := fun before i ↦
      ¬ (before.foldl step (.start session options)).Strays i)).symm

end RowBuilder

namespace RowSet

/-- **Borders.** The rows of a transcript cross no border exactly if no tool call strays. -/
theorem enclosed_ofTranscript_iff (session : String) (options : Options) (items : List Item) :
    Enclosed (ofTranscript session options items).rows ↔
      ∀ before i after, items = before ++ i :: after →
        ¬ (before.foldl RowBuilder.step (.start session options)).Strays i :=
  RowBuilder.enclosed_foldl_step_iff session options items

/-- The worker to whom the root delegated delegates back, and then the root goes on. -/
def askedBack : List Event :=
  [⟨1, "s1", some "main", some 1000,
      .toolStart "tc1" "delegate" (.object [("agent_id", .string "worker")])⟩,
   ⟨2, "s1", some "main", some 2000, .delegationRequested "d1" (some "worker") none⟩,
   ⟨3, "s1", some "worker", some 3000,
      .toolStart "tc2" "delegate" (.object [("agent_id", .string "main")])⟩,
   ⟨4, "s1", some "worker", some 4000, .delegationRequested "d2" (some "main") none⟩,
   ⟨5, "s1", some "main", some 5000, .toolStart "tc3" "read_file" .null⟩]

/-- The last call stands under the first one, where the root opened its delegation, and lies in the
group of the second one, to which the root is routed by then. -/
theorem not_enclosed_askedBack : ¬ Enclosed (ofEvents "s1" askedBack default).rows := by
  have htimeline : Timeline.ofEvents "s1" askedBack default =
      askedBack.map fun e ↦ ⟨e, e.agent.getD "", e.time.getD 0⟩ := by
    rw [Timeline.ofEvents, Timeline.admitted_eq_self (by decide) (by decide)]
    rfl
  rw [ofEvents, htimeline]
  generalize hrows : (ofTimeline _ _ _).rows = rows
  have hplaces : rows.map (fun r ↦ (r.id, r.parent, r.group)) =
      [("tc1", none, none), ("tc2", some "tc1", some "tc1"), ("tc3", some "tc1", some "tc2")] := by
    rw [← hrows]
    rfl
  obtain ⟨first, rest, rfl, hfirst, hrest⟩ := List.map_eq_cons_iff.mp hplaces
  obtain ⟨second, rest, rfl, hsecond, hrest⟩ := List.map_eq_cons_iff.mp hrest
  obtain ⟨third, rest, rfl, hthird, hrest⟩ := List.map_eq_cons_iff.mp hrest
  obtain rfl := List.map_eq_nil_iff.mp hrest
  simp only [Prod.mk.injEq] at hfirst hsecond hthird
  intro h
  have hwithin := h [first, second] third [] rfl
  rw [hthird.2.1, hthird.2.2] at hwithin
  obtain ⟨q, hq, hid, hborder⟩ := hwithin
  rcases List.mem_pair.mp hq with rfl | rfl
  · rw [hfirst.1, hfirst.2.2] at hborder
    exact absurd hborder (by decide)
  · rw [hsecond.1] at hid
    exact absurd hid (by decide)

end RowSet

end SessionReplay
