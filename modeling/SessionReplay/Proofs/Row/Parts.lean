import SessionReplay.Proofs.Row.Step

/-!
# The parts of a step

A step of the builder comes down to two questions: where does the row of a thing stand, and what is
the tracker told of it? `RowBuilder.place` and `RowBuilder.report?` answer them before the step is
made, and `RowBuilder.rows_step` and `RowBuilder.tracker_step_eq` say that the step does what they
announce. What is to be known of rows is shown of places, and what is to be known of delegations of
reports.
-/

namespace SessionReplay

/-- Where a row stands. -/
def Row.place (r : Row) : Placement := ⟨r.depth, r.parent, r.group⟩

theorem Row.Evolves.place_eq {r r' : Row} (h : r.Evolves r') : r'.place = r.place := by
  rw [Row.place, Row.place, h.depth_eq, h.parent_eq, h.group_eq]

theorem ToolResult.isTerminal_of_terminalStatus? {r : ToolResult} {status : Status}
    (h : r.terminalStatus? = some status) : status.isTerminal = true := by
  rw [terminalStatus?] at h
  split at h
  · cases h
    rfl
  · split at h
    · split at h
      · cases h
      · split at h <;> cases h <;> rfl
    · cases h
      rfl

namespace RowBuilder

/-- Where the row of a thing will stand, if it gets one. -/
def place (b : RowBuilder) : Item → Placement
  | .message m => b.messagePlace m.agent
  | .event e =>
    match e.payload with
    | .toolStart .. => (b.toolPlace? e.agent).getD .top
    | .toolEnd .. => (b.anchor? e.agent).getD ⟨1, none, none⟩
    | _ => .top

/-- What a thing will tell the tracker. -/
def report? (b : RowBuilder) : Item → Option Tracker.Report
  | .message _ => none
  | .event e =>
    match e.payload with
    | .toolStart call name arguments =>
      if (b.call? call).isSome || !b.options.isDelegationTool name then none
      else some (.opened ⟨call, e.agent, b.options.target? arguments,
        Options.objective? arguments, (b.place (.event e)).depth, e.time⟩)
    | .toolEnd call _ value isError =>
      if (b.call? call).any Row.delegates then
        (ToolResult.terminalStatus? ⟨value, isError, e.time⟩).map fun status ↦
          .finishGroup call ⟨status, e.time, none⟩
      else none
    | .delegationRequested id target objective => some (.requested ⟨id, target, objective⟩)
    | .delegationCompleted id summary => some (.finished id ⟨.completed, e.time, summary⟩)
    | .delegationFailed id error => some (.finished id ⟨.failed, e.time, error⟩)
    | .sessionForked child (some id) => some (.forked id child)
    | _ => none

variable {b : RowBuilder}

/-- **Reports.** A step tells the tracker what was announced. -/
theorem tracker_step_eq (b : RowBuilder) (i : Item) :
    (b.step i).tracker = (b.report? i).elim b.tracker b.tracker.step := by
  cases i with
  | message m => rfl
  | event e =>
    rw [step, event, report?]
    cases hpayload : e.payload with
    | toolStart call name arguments =>
      have hplace : b.place (.event e) = (b.toolPlace? e.agent).getD .top := by
        rw [place, hpayload]
      dsimp only
      rw [toolStart, hplace]
      cases b.call? call with
      | some r => rfl
      | none => cases b.options.isDelegationTool name <;> rfl
    | toolEnd call name value isError =>
      dsimp only
      rw [toolEnd]
      cases b.call? call with
      | none => rfl
      | some r =>
        dsimp only [Option.any_some]
        by_cases hdelegates : r.delegates = true
        · rw [if_pos hdelegates, hdelegates]
          cases ToolResult.terminalStatus? ⟨value, isError, e.time⟩ <;> rfl
        · rw [if_neg hdelegates, Bool.eq_false_of_not_eq_true hdelegates]
          rfl
    | sessionForked child delegation => cases delegation <;> rfl
    | _ => rfl

/-- What a thing may tell the tracker, and when. -/
inductive Reports (b : RowBuilder) : Item → Tracker.Report → Prop
  | opened {e : Entry} {call name : String} {arguments : Json}
      (he : e.payload = .toolStart call name arguments) (hnew : b.call? call = none)
      (hdelegates : b.options.isDelegationTool name = true) :
      Reports b (.event e) (.opened ⟨call, e.agent, b.options.target? arguments,
        Options.objective? arguments, (b.place (.event e)).depth, e.time⟩)
  | finishGroup {e : Entry} {call : String} {name : Option String} {value : Json} {isError : Bool}
      {status : Status} (he : e.payload = .toolEnd call name value isError)
      (hstatus : ToolResult.terminalStatus? ⟨value, isError, e.time⟩ = some status) :
      Reports b (.event e) (.finishGroup call ⟨status, e.time, none⟩)
  | requested {e : Entry} {id : String} {target objective : Option String}
      (he : e.payload = .delegationRequested id target objective) :
      Reports b (.event e) (.requested ⟨id, target, objective⟩)
  | completed {e : Entry} {id : String} {summary : Option String}
      (he : e.payload = .delegationCompleted id summary) :
      Reports b (.event e) (.finished id ⟨.completed, e.time, summary⟩)
  | failed {e : Entry} {id : String} {error : Option String}
      (he : e.payload = .delegationFailed id error) :
      Reports b (.event e) (.finished id ⟨.failed, e.time, error⟩)
  | forked {e : Entry} {child id : String} (he : e.payload = .sessionForked child (some id)) :
      Reports b (.event e) (.forked id child)

theorem reports_of_report? {i : Item} {r : Tracker.Report} (h : b.report? i = some r) :
    b.Reports i r := by
  cases i with
  | message m => cases h
  | event e =>
    rw [report?] at h
    cases hpayload : e.payload with
    | toolStart call name arguments =>
      rw [hpayload] at h
      dsimp only at h
      split at h
      · cases h
      · next hnew =>
        rw [Bool.or_eq_true, not_or, Bool.not_eq_true', Bool.not_eq_false] at hnew
        cases h
        exact .opened hpayload (Option.not_isSome_iff_eq_none.mp hnew.1) hnew.2
    | toolEnd call name value isError =>
      rw [hpayload] at h
      dsimp only at h
      split at h
      · obtain ⟨status, hstatus, rfl⟩ := Option.map_eq_some_iff.mp h
        exact .finishGroup hpayload hstatus
      · cases h
    | delegationRequested id target objective =>
      rw [hpayload] at h
      cases h
      exact .requested hpayload
    | delegationCompleted id summary =>
      rw [hpayload] at h
      cases h
      exact .completed hpayload
    | delegationFailed id error =>
      rw [hpayload] at h
      cases h
      exact .failed hpayload
    | sessionForked child delegation =>
      rw [hpayload] at h
      cases delegation with
      | none => cases h
      | some id =>
        cases h
        exact .forked hpayload
    | _ =>
      rw [hpayload] at h
      cases h

/-- The builder reports final endings only. -/
theorem Reports.allows {i : Item} {r : Tracker.Report} (h : b.Reports i r) :
    r.Allows (·.status.isTerminal = true) := by
  cases h with
  | finishGroup _ hstatus => exact ToolResult.isTerminal_of_terminalStatus? hstatus
  | completed _ => rfl
  | failed _ => rfl
  | _ => exact trivial

/-- **Rows.** A step adds a row in the announced place, or it changes results at most. Only a
message adds the row of a message. -/
theorem rows_step (b : RowBuilder) (i : Item) :
    (∃ r, (b.step i).rows = r :: b.rows ∧ r.place = b.place i ∧
      (r.isMessage = true → ∃ m, i = .message m)) ∨
      ∃ f : Row → Row, (∀ r : Row, r.Evolves (f r)) ∧ (b.step i).rows = b.rows.map f := by
  have hsame : ∀ {c : RowBuilder}, c.rows = b.rows →
      ∃ f : Row → Row, (∀ r : Row, r.Evolves (f r)) ∧ c.rows = b.rows.map f :=
    fun hrows ↦ ⟨id, Row.Evolves.refl, hrows.trans (List.map_id _).symm⟩
  cases i with
  | message m => exact Or.inl ⟨_, rfl, rfl, fun _ ↦ ⟨m, rfl⟩⟩
  | event e =>
    rw [step, event, place]
    cases e.payload with
    | userPrompt text => exact Or.inl ⟨_, rfl, rfl, fun h ↦ by cases h⟩
    | systemError text => exact Or.inl ⟨_, rfl, rfl, fun h ↦ by cases h⟩
    | toolStart call name arguments =>
      dsimp only
      rw [toolStart]
      split
      · exact Or.inr (hsame rfl)
      · exact Or.inl ⟨_, rfl, rfl, fun h ↦ by cases h⟩
    | toolEnd call name value isError =>
      dsimp only
      rw [toolEnd]
      split
      · exact Or.inl ⟨_, rfl, rfl, fun h ↦ by cases h⟩
      · exact Or.inr (b.exists_rows_answer call _)
    | sessionForked child delegation => cases delegation <;> exact Or.inr (hsame rfl)
    | _ => exact Or.inr (hsame rfl)

/-- A new tool call adds its row. -/
theorem rows_step_of_toolStart {e : Entry} {call name : String} {arguments : Json}
    (he : e.payload = .toolStart call name arguments) (hnew : b.call? call = none) :
    (b.step (.event e)).rows = b.callRow e call name arguments :: b.rows := by
  rw [RowBuilder.step, event, he]
  dsimp only
  rw [toolStart, hnew]
  rfl

/-- The end of a tool call that has no row adds one. -/
theorem rows_step_of_toolEnd {e : Entry} {call : String} {name : Option String} {value : Json}
    {isError : Bool} (he : e.payload = .toolEnd call name value isError)
    (hnew : b.call? call = none) :
    (b.step (.event e)).rows = (b.orphanEnd e call name ⟨value, isError, e.time⟩).rows := by
  rw [RowBuilder.step, event, he]
  dsimp only
  rw [toolEnd, hnew]

/-- The places of the rows, after a step. -/
theorem map_place_step (b : RowBuilder) (i : Item) :
    (b.step i).rows.map Row.place = b.place i :: b.rows.map Row.place ∨
      (b.step i).rows.map Row.place = b.rows.map Row.place := by
  rcases b.rows_step i with ⟨r, hrows, hplace, -⟩ | ⟨f, hf, hrows⟩
  · exact Or.inl (by rw [hrows, List.map_cons, hplace])
  · refine Or.inr ?_
    rw [hrows, List.map_map]
    exact List.map_congr_left fun r _ ↦ (hf r).place_eq

end RowBuilder

end SessionReplay
