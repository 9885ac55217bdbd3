import SessionReplay.Proofs.Delegation.Reach
import SessionReplay.Proofs.Row.Growth
import SessionReplay.Proofs.Transcript.Order

/-!
# What a thing of a transcript does to rows

It adds a row, or gives the rows of a tool call a result, and it may tell the tracker something:
`RowBuilder.effect_step`. What is true of all rows is shown along these cases, so that no proof has
to go through the kinds of events again.

## What is known of a new row

It has the number of the thing that it shows. If it lies in a group, it is a message or a tool call,
and its agent was routed there. If it is a tool call, it has the identifier of the call, and the
call had no row before. This is `RowBuilder.Fresh`.
-/

namespace SessionReplay

namespace Row

variable {r r' : Row} {call : String}

/-- The identifier of a row's tool call. -/
def call? (r : Row) : Option String := r.tool?.map ToolCall.call

theorem isCall_iff : r.isCall call = true ↔ r.call? = some call := by
  rw [isCall, call?, Option.map_eq_some_iff, Option.any_eq_true]
  exact exists_congr fun t ↦ and_congr_right fun _ ↦ beq_iff_eq

theorem Evolves.call?_eq (h : r.Evolves r') : r'.call? = r.call? := by
  refine Option.ext fun call ↦ ?_
  rw [← isCall_iff, ← isCall_iff, h.isCall_eq]

theorem exists_call?_of_delegates (h : r.delegates = true) : ∃ call, r.call? = some call := by
  rw [delegates, Option.any_eq_true] at h
  obtain ⟨t, ht, -⟩ := h
  exact ⟨t.call, by rw [call?, ht, Option.map_some]⟩

end Row

namespace RowBuilder

variable {b : RowBuilder}

/-- Gives a result to the rows of a tool call. -/
def answer (b : RowBuilder) (call : String) (result : ToolResult) : RowBuilder :=
  { b with rows := b.rows.map fun r ↦ if r.isCall call then r.withResult result else r }

/-- A result changes no row but for the result. -/
theorem exists_rows_answer (b : RowBuilder) (call : String) (result : ToolResult) :
    ∃ f : Row → Row, (∀ r : Row, r.Evolves (f r)) ∧ (b.answer call result).rows = b.rows.map f := by
  refine ⟨_, fun r ↦ ?_, rfl⟩
  split
  · exact r.evolves_withResult result
  · exact Row.Evolves.refl r

theorem call?_eq_none_iff {call : String} :
    b.call? call = none ↔ ∀ r ∈ b.rows, r.call? ≠ some call := by
  rw [call?, List.find?_eq_none]
  exact forall₂_congr fun r _ ↦ not_congr Row.isCall_iff

/-! ## New rows -/

/-- What is known of the row that a thing of a transcript adds. -/
structure Fresh (b : RowBuilder) (i : Item) (r : Row) : Prop where
  sequence_eq : r.sequence = i.sequence
  group_eq : r.group = none ∨ r.group = (b.tracker.route? r.agent).map Delegation.call
  /-- Only messages and tool calls lie in groups. -/
  kind : r.group = none ∨ r.isMessage = true ∨ r.isTool = true
  id_eq : r.id = r.call?.getD (rowId b.session i.sequence)
  call_new : ∀ call, r.call? = some call → b.call? call = none

theorem Fresh.exists_route? {i : Item} {r : Row} (hr : b.Fresh i r) {group : String}
    (hgroup : r.group = some group) : ∃ d, b.tracker.route? r.agent = some d ∧ d.call = group := by
  rcases hr.group_eq with hnone | hroute
  · rw [hnone] at hgroup
    cases hgroup
  · exact Option.map_eq_some_iff.mp (hroute.symm.trans hgroup)

theorem group_messagePlace (b : RowBuilder) (agent : String) :
    (b.messagePlace agent).group = (b.tracker.route? agent).map Delegation.call := by
  rw [messagePlace]
  cases b.tracker.route? agent <;> rfl

private theorem group_anchor? {agent : String} {p : Placement} (h : b.anchor? agent = some p) :
    p.group = (b.tracker.route? agent).map Delegation.call := by
  rw [anchor?] at h
  split at h
  · rw [← Option.some.inj h]
  · obtain ⟨d, -, rfl⟩ := Option.map_eq_some_iff.mp h
    rfl

/-- Without an anchor there is no route. -/
theorem route?_eq_none_of_anchor? {agent : String} (h : b.anchor? agent = none) :
    b.tracker.route? agent = none := by
  rw [anchor?] at h
  split at h
  · cases h
  · exact Option.map_eq_none_iff.mp h

theorem group_getD_anchor? (b : RowBuilder) (agent : String) {p : Placement}
    (hp : p.group = none) :
    ((b.anchor? agent).getD p).group = (b.tracker.route? agent).map Delegation.call := by
  cases h : b.anchor? agent with
  | some p => exact group_anchor? h
  | none => rw [route?_eq_none_of_anchor? h, Option.getD_none, hp, Option.map_none]

theorem group_getD_toolPlace? (b : RowBuilder) (agent : String) :
    ((b.toolPlace? agent).getD .top).group
      = (b.tracker.route? agent).map Delegation.call := by
  rw [toolPlace?]
  split
  · rfl
  · exact b.group_getD_anchor? agent rfl

/-- The row of a tool call that starts. -/
def callRow (b : RowBuilder) (e : Entry) (call name : String) (arguments : Json) : Row :=
  b.row call e.agent e.sequence e.time ((b.toolPlace? e.agent).getD .top)
    (.tool ⟨call, some name, some arguments, b.options.isDelegationTool name, none⟩)

private theorem fresh_message (b : RowBuilder) (m : Message) :
    b.Fresh (.message m) (b.row (rowId b.session m.sequence) m.agent m.sequence m.time
      (b.messagePlace m.agent) (.message m.content m.thinking m.stream m.isLive)) where
  sequence_eq := rfl
  group_eq := Or.inr (b.group_messagePlace m.agent)
  kind := Or.inr (Or.inl rfl)
  id_eq := rfl
  call_new _ h := by cases h

/-- A row at the top shows no tool call. -/
theorem fresh_plain (b : RowBuilder) (e : Entry) (body : Row.Body) (hbody : ∀ t, body ≠ .tool t) :
    b.Fresh (.event e) (b.row (rowId b.session e.sequence) e.agent e.sequence e.time .top body) ∧
      (b.row (rowId b.session e.sequence) e.agent e.sequence e.time .top body).delegates =
        false := by
  cases body with
  | tool t => exact absurd rfl (hbody t)
  | _ => exact ⟨⟨rfl, Or.inl rfl, Or.inl rfl, rfl, fun _ h ↦ by cases h⟩, rfl⟩

private theorem fresh_callRow (e : Entry) {call : String} (name : String) (arguments : Json)
    (hnew : b.call? call = none) : b.Fresh (.event e) (b.callRow e call name arguments) where
  sequence_eq := rfl
  group_eq := Or.inr (b.group_getD_toolPlace? e.agent)
  kind := Or.inr (Or.inr rfl)
  id_eq := rfl
  call_new c h := by
    obtain rfl : call = c := Option.some.inj h
    exact hnew

private theorem fresh_orphan {e : Entry} {call : String} (name : Option String)
    (result : ToolResult) (hnew : b.call? call = none) :
    b.Fresh (.event e) (b.row call e.agent e.sequence e.time
      ((b.anchor? e.agent).getD ⟨1, none, none⟩) (.tool ⟨call, name, none, false, some result⟩))
    where
  sequence_eq := rfl
  group_eq := Or.inr (b.group_getD_anchor? e.agent rfl)
  kind := Or.inr (Or.inr rfl)
  id_eq := rfl
  call_new c h := by
    obtain rfl : call = c := Option.some.inj h
    exact hnew

/-! ## Effects -/

/-- What a thing of a transcript may do to rows and tracker. -/
inductive Effect (b : RowBuilder) (i : Item) : RowBuilder → Prop
  | add {r : Row} (hr : b.Fresh i r) (hplain : r.delegates = false) : Effect b i (b.add r)
  | delegate {r : Row} {o : Opening} (hr : b.Fresh i r) (hdelegates : r.delegates = true)
      (ho : o.call = r.id) : Effect b i ((b.add r).report (.opened o))
  | answer (call : String) (result : ToolResult) : Effect b i (b.answer call result)
  | close (call : String) (result : ToolResult) (e : Ending) :
      Effect b i ((b.answer call result).report (.finishGroup call e))
  | report {r : Tracker.Report} (hr : r.call? = none) : Effect b i (b.report r)
  | ignore : Effect b i b

private theorem effect_toolStart (b : RowBuilder) (e : Entry) (call name : String)
    (arguments : Json) :
    b.Effect (.event e) (b.toolStart e call name arguments) := by
  rw [toolStart]
  split
  · exact .ignore
  · next hold =>
    have hnew : b.call? call = none := Option.not_isSome_iff_eq_none.mp hold
    have hfresh := fresh_callRow e name arguments hnew
    dsimp only
    split
    · next hdelegates => exact .delegate hfresh hdelegates rfl
    · next hplain => exact .add hfresh (Bool.eq_false_of_not_eq_true hplain)

private theorem effect_toolEnd (b : RowBuilder) (e : Entry) (call : String) (name : Option String)
    (result : ToolResult) : b.Effect (.event e) (b.toolEnd e call name result) := by
  rw [toolEnd]
  split
  · next hnew => exact .add (fresh_orphan name result hnew) rfl
  · split
    · exact .close call result _
    · exact .answer call result

/-- **One thing of a transcript.** It has one of these effects. -/
theorem effect_step (b : RowBuilder) (i : Item) : b.Effect i (b.step i) := by
  cases i with
  | message m => exact .add (b.fresh_message m) rfl
  | event e =>
    rw [step, event]
    split
    · next text _ =>
      obtain ⟨hfresh, hplain⟩ := b.fresh_plain e (.prompt text) fun t h ↦ by cases h
      exact .add hfresh hplain
    · next text _ =>
      obtain ⟨hfresh, hplain⟩ := b.fresh_plain e (.error text) fun t h ↦ by cases h
      exact .add hfresh hplain
    · exact b.effect_toolStart ..
    · exact b.effect_toolEnd ..
    · exact .report rfl
    · exact .report rfl
    · exact .report rfl
    · exact .report rfl
    · exact .ignore

end RowBuilder

end SessionReplay
