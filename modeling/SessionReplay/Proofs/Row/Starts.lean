import SessionReplay.Proofs.Row.Names
import SessionReplay.Proofs.Row.Openings

/-!
# What the row of a tool call tells of its start

The start of a tool call says what the tool is and what it is given, and whether work is delegated.
A call has one row, which is made when the first event of the call comes, be it a start or an end.
So the row shows the first start exactly if no end came before it: an end that comes first has a row
without arguments, which is no delegation, and the start finds the row and is taken for a
repetition. This is `RowSet.tellsStarts_ofEvents`, and it happens,
`RowSet.not_keepsStarts_endedFirst`.

The rows of one call are known from the first event of the call alone, `RowSet.map_unplaced_isCall`,
and whether there is a group from the rows, `RowSet.contains_groups_iff`.
-/

namespace SessionReplay

/-- The name and the arguments that an entry gives of a tool call that it starts. -/
def Entry.startOf? (e : Entry) (call : String) : Option (String × Json) := match e.payload with
  | .toolStart c name arguments => if c = call then some (name, arguments) else none
  | _ => none

/-- The name and the arguments that the first start of a tool call gives. -/
def firstStart? (timeline : List Entry) (call : String) : Option (String × Json) :=
  timeline.findSome? fun e ↦ e.startOf? call

/-- The first entry that starts or ends a tool call. -/
def firstOfCall? (timeline : List Entry) (call : String) : Option Entry :=
  timeline.find? fun e ↦ e.call? == some call

/-- The first entry of a tool call ends it. -/
def EndsFirst (timeline : List Entry) (call : String) : Prop :=
  ∃ e name value isError, firstOfCall? timeline call = some e ∧
    e.payload = .toolEnd call name value isError

namespace RowSet

/-- A tool call has one row, which says this of it, and it has a group if it delegates. -/
structure Shows (s : RowSet) (call : String) (name : Option String) (arguments : Option Json)
    (delegates : Bool) : Prop where
  exists_row : ∃ r result, s.rows.filter (fun r ↦ r.isCall call) = [r] ∧
    r.tool? = some ⟨call, name, arguments, delegates, result⟩
  contains_eq : s.groups.contains call = delegates

/-- Every tool call that was started shows its first start. -/
def KeepsStarts (s : RowSet) (options : Options) (timeline : List Entry) : Prop :=
  ∀ call name arguments, firstStart? timeline call = some (name, arguments) →
    s.Shows call name arguments (options.isDelegationTool name)

/-- What becomes of the starts of tool calls. -/
structure TellsStarts (s : RowSet) (options : Options) (timeline : List Entry) : Prop where
  /-- The first start of a call is shown unless an end came before it. -/
  shows_iff : ∀ call name arguments, firstStart? timeline call = some (name, arguments) →
    (s.Shows call name arguments (options.isDelegationTool name) ↔ ¬ EndsFirst timeline call)
  /-- An end that comes first is all that is ever told of the call. -/
  shows_of_end : ∀ call e name value isError, firstOfCall? timeline call = some e →
    e.payload = .toolEnd call name value isError → s.Shows call name none false

end RowSet

/-! ## The first entry of a call -/

variable {e : Entry} {timeline : List Entry} {call name : String} {arguments : Json}

theorem Entry.call?_eq_some_iff : e.call? = some call ↔
    (∃ name arguments, e.payload = .toolStart call name arguments) ∨
      ∃ name value isError, e.payload = .toolEnd call name value isError := by
  rw [call?]
  cases e.payload <;> simp

theorem Entry.startOf?_eq_none (h : e.call? ≠ some call) : e.startOf? call = none := by
  rw [call?] at h
  rw [startOf?]
  cases he : e.payload with
  | toolStart c name arguments =>
    rw [he] at h
    exact if_neg fun hc ↦ h (congrArg some hc)
  | _ => rfl

private theorem call?_of_firstOfCall? (h : firstOfCall? timeline call = some e) :
    e.call? = some call := by
  have hcall := List.find?_some h
  exact beq_iff_eq.mp hcall

/-- A start that comes first is the first start. -/
theorem firstStart?_eq (h : firstOfCall? timeline call = some e)
    (he : e.payload = .toolStart call name arguments) :
    firstStart? timeline call = some (name, arguments) := by
  obtain ⟨-, before, after, rfl, hbefore⟩ := List.find?_eq_some_iff_append.mp h
  have hnone : before.findSome? (fun x ↦ x.startOf? call) = none :=
    List.findSome?_eq_none_iff.mpr fun x hx ↦ Entry.startOf?_eq_none fun hcall ↦ by
      simpa [hcall] using hbefore x hx
  have hstart : e.startOf? call = some (name, arguments) := by
    rw [Entry.startOf?, he]
    exact if_pos rfl
  rw [firstStart?, List.findSome?_append, hnone, Option.none_or, List.findSome?_cons_of_isSome,
    hstart]
  rw [hstart, Option.isSome_some]

/-- The first entry of a call that was started ends it, or is its first start. -/
theorem exists_firstOfCall? (h : firstStart? timeline call = some (name, arguments)) :
    ∃ e, firstOfCall? timeline call = some e ∧
      (EndsFirst timeline call ∨ e.payload = .toolStart call name arguments) := by
  cases hfirst : firstOfCall? timeline call with
  | none =>
    -- no entry of the call starts it
    have hnone : firstStart? timeline call = none :=
      List.findSome?_eq_none_iff.mpr fun x hx ↦ Entry.startOf?_eq_none fun hcall ↦ by
        simpa [hcall] using List.find?_eq_none.mp hfirst x hx
    rw [hnone] at h
    cases h
  | some e =>
    refine ⟨e, rfl, ?_⟩
    rcases Entry.call?_eq_some_iff.mp (call?_of_firstOfCall? hfirst) with
      ⟨name', arguments', he⟩ | ⟨name', value, isError, he⟩
    · have hsame := (firstStart?_eq hfirst he).symm.trans h
      cases hsame
      exact Or.inr he
    · exact Or.inl ⟨e, name', value, isError, hfirst, he⟩

/-! ## The row of a call -/

namespace RowSet

variable {session : String} {options : Options}

/-- **The row of a tool call** is that of the first entry of the call. -/
theorem map_unplaced_isCall (session : String) (options : Options) (timeline : List Entry)
    (call : String) :
    ((ofTimeline session timeline options).rows.filter fun r ↦ r.isCall call).map Row.unplaced
      = ((firstOfCall? timeline call).bind
          (Entry.callRow? session options (lastResult? timeline))).toList := by
  have hcalls := congrArg (List.filter fun r ↦ r.isCall call)
    (calls_ofTranscript session options timeline)
  have hisCall : ((fun r ↦ r.isCall call) ∘ Row.unplaced) = fun r : Row ↦ r.isCall call := rfl
  have htool : ∀ r : Row, (r.isCall call && r.isTool) = r.isCall call := by
    intro r
    rw [Row.isCall, Row.isTool]
    cases r.tool? <;> simp
  -- a row is of the call exactly if its entry is
  have hrow : ∀ e : Entry, (e.callRow? session options (lastResult? timeline)).filter
      (fun r ↦ r.isCall call) = if e.call? == some call then
        e.callRow? session options (lastResult? timeline) else none := by
    intro e
    rw [Entry.callRow?, Entry.call?]
    cases e.payload <;> simp [Option.filter, Row.isCall, Row.tool?, Entry.row]
  rw [List.filter_map, hisCall, List.filter_filter, List.filter_congr fun r _ ↦ htool r,
    List.filter_filterMap, List.filterMap_congr fun e _ ↦ hrow e, ← List.filterMap_filter,
    filter_firstOfEach] at hcalls
  rw [ofTimeline, hcalls, firstOfCall?]
  cases timeline.find? fun e ↦ e.call? == some call <;> rfl

/-- A tool call has a group exactly if a row of the call delegates. -/
theorem contains_groups_iff {items : List Item} :
    (ofTranscript session options items).groups.contains call = true ↔
      ∃ r ∈ (ofTranscript session options items).rows, r.isCall call = true ∧
        r.delegates = true := by
  have hkeys := (inventory_ofTranscript session options items).perm_keys
  have hid : ∀ r ∈ (ofTranscript session options items).rows, r.delegates = true →
      (r.id = call ↔ r.isCall call = true) := by
    intro r hr hdelegates
    obtain ⟨c, hc⟩ := Row.exists_call?_of_delegates hdelegates
    rw [Row.isCall_iff, id_eq_name hr, Row.name, hc, Option.getD_some, Option.some_inj]
  rw [← Table.mem_keys_iff, hkeys.mem_iff, List.mem_map]
  constructor
  · rintro ⟨r, hr, hcall⟩
    obtain ⟨hmem, hdelegates⟩ := List.mem_filter.mp hr
    exact ⟨r, hmem, (hid r hmem hdelegates).mp hcall, hdelegates⟩
  · rintro ⟨r, hmem, hcall, hdelegates⟩
    exact ⟨r, List.mem_filter.mpr ⟨hmem, hdelegates⟩, (hid r hmem hdelegates).mpr hcall⟩

theorem shows_of_row {t : ToolCall} {x : Entry} (hfirst : firstOfCall? timeline call = some e)
    (hrow : e.callRow? session options (lastResult? timeline)
      = some (x.row session call (.tool t))) (hcall : t.call = call) :
    (ofTimeline session timeline options).Shows call t.name t.arguments t.delegates := by
  have hrows := map_unplaced_isCall session options timeline call
  rw [hfirst, Option.bind_some, hrow, Option.toList_some] at hrows
  obtain ⟨r, hone, hr⟩ := List.map_eq_singleton_iff.mp hrows
  have htool : r.tool? = some t := by
    have hbody : r.unplaced.tool? = some t := by
      rw [hr]
      rfl
    exact hbody
  refine ⟨⟨r, t.result, hone, ?_⟩, ?_⟩
  · rw [htool, ← hcall]
  · have hmem : ∀ q, q ∈ (ofTimeline session timeline options).rows ∧ q.isCall call = true ↔
        q = r := by
      intro q
      rw [← List.mem_singleton (a := q), ← hone, List.mem_filter]
    rw [Bool.eq_iff_iff, ofTimeline, contains_groups_iff]
    constructor
    · rintro ⟨q, hq, hqcall, hdelegates⟩
      rw [(hmem q).mp ⟨hq, hqcall⟩, Row.delegates, htool] at hdelegates
      exact hdelegates
    · intro hdelegates
      obtain ⟨hr, hrcall⟩ := (hmem r).mpr rfl
      refine ⟨r, hr, hrcall, ?_⟩
      rw [Row.delegates, htool]
      exact hdelegates

/-- A call says one thing. -/
theorem Shows.unique {s : RowSet} {name name' : Option String} {arguments arguments' : Option Json}
    {delegates delegates' : Bool} (h : s.Shows call name arguments delegates)
    (h' : s.Shows call name' arguments' delegates') : arguments = arguments' := by
  obtain ⟨r, result, hone, htool⟩ := h.exists_row
  obtain ⟨r', result', hone', htool'⟩ := h'.exists_row
  obtain rfl : r = r' := List.singleton_inj.mp (hone.symm.trans hone')
  rw [htool] at htool'
  cases htool'
  rfl

private theorem shows_of_start (hfirst : firstOfCall? timeline call = some e)
    (he : e.payload = .toolStart call name arguments) :
    (ofTimeline session timeline options).Shows call name arguments
      (options.isDelegationTool name) := by
  refine shows_of_row (t := ⟨call, some name, some arguments, options.isDelegationTool name,
    lastResult? timeline call⟩) (x := e) hfirst ?_ rfl
  rw [Entry.callRow?, he]

private theorem shows_of_end {name : Option String} {value : Json} {isError : Bool}
    (hfirst : firstOfCall? timeline call = some e)
    (he : e.payload = .toolEnd call name value isError) :
    (ofTimeline session timeline options).Shows call name none false := by
  refine shows_of_row (t := ⟨call, name, none, false, lastResult? timeline call⟩) (x := e) hfirst
    ?_ rfl
  rw [Entry.callRow?, he]

/-- **Starts.** The row of a tool call shows the first start of the call exactly if no end came
before it; else it shows that end for good, and the call has no group. -/
theorem tellsStarts_ofEvents (session : String) (events : List Event) (options : Options) :
    (ofEvents session events options).TellsStarts options
      (Timeline.ofEvents session events options) where
  shows_iff call name arguments h := by
    obtain ⟨e, hfirst, hends | he⟩ := exists_firstOfCall? h
    · refine iff_of_false (fun hshows ↦ ?_) (not_not_intro hends)
      obtain ⟨x, name', value, isError, hx, hpayload⟩ := hends
      cases hshows.unique (shows_of_end hx hpayload)
    · refine iff_of_true (shows_of_start hfirst he) ?_
      rintro ⟨x, name', value, isError, hx, hpayload⟩
      rw [hfirst, Option.some_inj] at hx
      rw [← hx, he] at hpayload
      cases hpayload
  shows_of_end call e name value isError hfirst he := shows_of_end hfirst he

/-- The end of a tool call that is still at work, and then its start, which delegates. -/
def endedFirst : List Event :=
  [⟨1, "s1", some "main", some 1000,
      .toolEnd "tc1" none (.object [("status", .string "running")]) false⟩,
   ⟨2, "s1", some "main", some 2000,
      .toolStart "tc1" "delegate" (.object [("agent_id", .string "worker")])⟩]

/-- What the call is, and that it delegates, is lost. -/
theorem not_keepsStarts_endedFirst :
    ¬ (ofEvents "s1" endedFirst default).KeepsStarts default
      (Timeline.ofEvents "s1" endedFirst default) := by
  have htimeline : Timeline.ofEvents "s1" endedFirst default =
      endedFirst.map fun e ↦ ⟨e, "main", e.time.getD 0⟩ := by
    rw [Timeline.ofEvents, Timeline.admitted_eq_self (by decide) (by decide)]
    rfl
  intro h
  have hshows := h "tc1" "delegate" (.object [("agent_id", .string "worker")]) (by
    rw [htimeline]
    rfl)
  have hgroup := hshows.contains_eq
  rw [ofEvents, htimeline] at hgroup
  exact absurd hgroup (by decide)

end RowSet

end SessionReplay
