import SessionReplay.Proofs.Firsts
import SessionReplay.Proofs.Row.Inventory

/-!
# Nothing is lost on the way to rows

Every prompt and every error of a timeline has a row, and so has every message of its transcript.
The events that start or end a tool call share one row, where the first of them stands, and the row
has the last result that any of them brings. There are no other rows: `RowSet.showAll_ofEvents`.

Where a row stands among the others is not spoken of here, so rows are compared without it,
`Row.unplaced`.

## Results come later

The result of a tool call is a matter of events that come after the one its row was made from. So a
row is not made once and for all: one more event may give a row that is there already its result.
`Row.told` does so on both sides, for the builder and for the rows as they should be.
-/

namespace SessionReplay

/-! ## What rows there should be -/

/-- A row that stands nowhere in particular. -/
def Row.unplaced (r : Row) : Row := { r with depth := 0, parent := none, group := none }

namespace Entry

/-- The tool call that an entry starts or ends. -/
def call? (e : Entry) : Option String := match e.payload with
  | .toolStart call _ _ => some call
  | .toolEnd call _ _ _ => some call
  | _ => none

/-- The result that an entry brings for a tool call. -/
def resultOf? (e : Entry) (call : String) : Option ToolResult := match e.payload with
  | .toolEnd c _ value isError => if c = call then some ⟨value, isError, e.time⟩ else none
  | _ => none

/-- A row that is made from an entry and stands nowhere in particular. -/
def row (session id : String) (e : Entry) (body : Row.Body) : Row :=
  ⟨id, session, e.agent, e.sequence, e.time, 0, none, none, body⟩

/-- The row of a prompt or an error. -/
def plainRow? (session : String) (e : Entry) : Option Row := match e.payload with
  | .userPrompt text => some (e.row session (RowBuilder.rowId session e.sequence) (.prompt text))
  | .systemError text => some (e.row session (RowBuilder.rowId session e.sequence) (.error text))
  | _ => none

/-- The row of a tool call that is known by its start, or by its end if that came first, with the
results of all calls given. -/
def callRow? (session : String) (options : Options) (result : String → Option ToolResult)
    (e : Entry) : Option Row := match e.payload with
  | .toolStart call name arguments => some (e.row session call
      (.tool ⟨call, some name, some arguments, options.isDelegationTool name, result call⟩))
  | .toolEnd call name _ _ =>
    some (e.row session call (.tool ⟨call, name, none, false, result call⟩))
  | _ => none

end Entry

/-- The last result that entries bring for a tool call. -/
def lastResult? (entries : List Entry) (call : String) : Option ToolResult :=
  (entries.filterMap fun e ↦ e.resultOf? call).getLast?

/-- The row of a message. -/
def Message.row (session : String) (m : Message) : Row :=
  ⟨RowBuilder.rowId session m.sequence, session, m.agent, m.sequence, m.time, 0, none, none,
    .message m.content m.thinking m.stream m.isLive⟩

namespace Item

/-- The message that a thing in a transcript is, if it is no event. -/
def message? : Item → Option Message
  | .event _ => none
  | .message m => some m

/-- The tool call that a thing starts or ends. -/
def call? (i : Item) : Option String := i.event?.bind Entry.call?

/-- The row that a thing has, if it is the first of its tool call. -/
def row? (session : String) (options : Options) (result : String → Option ToolResult) :
    Item → Option Row
  | .event e => (e.plainRow? session).or (e.callRow? session options result)
  | .message m => some (m.row session)

end Item

/-- The rows that there should be for the things of a transcript, standing nowhere in particular. -/
def rowsShown (session : String) (options : Options) (items : List Item) : List Row :=
  (firstOfEach Item.call? items).filterMap
    (Item.row? session options (lastResult? (items.filterMap Item.event?)))

/-- Rows that are made from a timeline and show all of it. -/
structure Row.ShowAll (session : String) (options : Options) (timeline : List Entry)
    (rows : List Row) : Prop where
  /-- Rows are in the order of their numbers. -/
  rising : rows.Pairwise fun r r' ↦ r.sequence < r'.sequence
  /-- There is a row for each prompt and each error. -/
  plain : (rows.filter fun r ↦ r.isPrompt || r.isError).map Row.unplaced
    = timeline.filterMap (Entry.plainRow? session)
  /-- There is a row for each message. -/
  messages : (rows.filter Row.isMessage).map Row.unplaced
    = (Transcript.ofTimeline timeline).filterMap fun i ↦ i.message?.map (Message.row session)
  /-- There is a row for each tool call. -/
  calls : (rows.filter Row.isTool).map Row.unplaced = (firstOfEach Entry.call? timeline).filterMap
    (Entry.callRow? session options (lastResult? timeline))
  /-- There is no other row. -/
  kinds : ∀ r ∈ rows, (r.isPrompt || r.isError) = true ∨ r.isMessage = true ∨ r.isTool = true

/-! ## One more event -/

variable {session : String} {options : Options} {result result' : String → Option ToolResult}
  {e x : Entry} {i : Item} {r : Row}

/-- A row after one more event, which may bring the result of its tool call. -/
def Row.told (e : Entry) (r : Row) : Row :=
  match r.call?.bind e.resultOf? with
  | some result => r.withResult result
  | none => r

namespace Row

theorem told_of_resultOf?_eq_none (h : ∀ call, r.call? = some call → e.resultOf? call = none) :
    r.told e = r := by
  rw [told]
  cases hcall : r.call? with
  | none => rfl
  | some call => rw [Option.bind_some, h call hcall]

private theorem told_row (x : Entry) (id : String) (t : ToolCall) (e : Entry) :
    (x.row session id (.tool t)).told e
      = x.row session id (.tool { t with result := (e.resultOf? t.call).or t.result }) := by
  have hcall : (x.row session id (.tool t)).call? = some t.call := rfl
  rw [told, hcall, Option.bind_some]
  cases e.resultOf? t.call <;> rfl

private theorem unplaced_withResult (r : Row) (res : ToolResult) :
    (r.withResult res).unplaced = r.unplaced.withResult res := by
  cases hbody : r.body <;> simp [withResult, unplaced, hbody]

private theorem unplaced_told (r : Row) (e : Entry) : (r.told e).unplaced = r.unplaced.told e := by
  have hcall : r.unplaced.call? = r.call? := rfl
  rw [told, told, hcall]
  cases r.call?.bind e.resultOf? with
  | none => rfl
  | some res => exact unplaced_withResult r res

end Row

theorem lastResult?_concat (entries : List Entry) (e : Entry) (call : String) :
    lastResult? (entries ++ [e]) call = (e.resultOf? call).or (lastResult? entries call) := by
  rw [lastResult?, lastResult?, List.filterMap_append, List.getLast?_append]
  cases hres : e.resultOf? call <;> simp [hres]

namespace Entry

theorem resultOf?_eq_none {call : String} (h : e.call? ≠ some call) : e.resultOf? call = none := by
  rw [call?] at h
  rw [resultOf?]
  cases he : e.payload with
  | toolEnd c name value isError =>
    rw [he] at h
    exact if_neg fun hc ↦ h (congrArg some hc)
  | _ => rfl

/-- An event with a row of its own is no part of a tool call. -/
theorem call?_eq_none_of_plainRow? (h : e.plainRow? session ≠ none) : e.call? = none := by
  rw [plainRow?] at h
  rw [call?]
  cases he : e.payload with
  | toolStart _ _ _ => rw [he] at h; exact absurd rfl h
  | toolEnd _ _ _ _ => rw [he] at h; exact absurd rfl h
  | _ => rfl

/-- A piece or a stored form is no part of a tool call. -/
theorem call?_eq_none_of_stream? (h : e.payload.stream? ≠ none) : e.call? = none := by
  rw [call?]
  cases he : e.payload with
  | toolStart _ _ _ => rw [he] at h; exact absurd rfl h
  | toolEnd _ _ _ _ => rw [he] at h; exact absurd rfl h
  | _ => rfl

private theorem callRow?_eq_none (h : e.call? = none) :
    e.callRow? session options result = none := by
  rw [call?] at h
  rw [callRow?]
  cases he : e.payload with
  | toolStart _ _ _ => rw [he] at h; cases h
  | toolEnd _ _ _ _ => rw [he] at h; cases h
  | _ => rfl

private theorem callRow?_congr (h : ∀ call, e.call? = some call → result call = result' call) :
    e.callRow? session options result = e.callRow? session options result' := by
  rw [callRow?, callRow?]
  rw [call?] at h
  cases he : e.payload with
  | toolStart call name arguments => rw [he] at h; simp only [h call rfl]
  | toolEnd call name value isError => rw [he] at h; simp only [h call rfl]
  | _ => rfl

end Entry

private theorem lastResult?_eq_none {entries : List Entry} {call : String}
    (h : ∀ e ∈ entries, e.call? ≠ some call) : lastResult? entries call = none := by
  rw [lastResult?, List.filterMap_eq_nil_iff.mpr fun e he ↦ Entry.resultOf?_eq_none (h e he),
    List.getLast?_nil]

namespace Item

private theorem row?_congr (h : ∀ call, i.call? = some call → result call = result' call) :
    i.row? session options result = i.row? session options result' := by
  cases i with
  | event e => exact congrArg (Option.or _) (Entry.callRow?_congr h)
  | message m => rfl

/-- The row of a tool call is of the call that its event starts or ends. -/
theorem call?_eq_bind_row? (session : String) (options : Options)
    (result : String → Option ToolResult) (i : Item) :
    i.call? = (i.row? session options result).bind Row.call? := by
  cases i with
  | event e =>
    rw [call?, event?, Option.bind_some, Entry.call?, row?, Entry.plainRow?, Entry.callRow?]
    cases e.payload <;> rfl
  | message m => rfl

/-- One more event is told to the row that a thing has. -/
theorem row?_told (i : Item) (entries : List Entry) (e : Entry) :
    i.row? session options (lastResult? (entries ++ [e]))
      = (i.row? session options (lastResult? entries)).map (Row.told e) := by
  cases i with
  | event x =>
    rw [row?, row?, Entry.plainRow?, Entry.callRow?, Entry.callRow?]
    cases x.payload with
    | toolStart call name arguments =>
      dsimp only [Option.none_or, Option.map_some]
      rw [Row.told_row, lastResult?_concat]
    | toolEnd call name value isError =>
      dsimp only [Option.none_or, Option.map_some]
      rw [Row.told_row, lastResult?_concat]
    | _ => rfl
  | message m => rfl

end Item

/-- One more message has a row. -/
theorem rowsShown_concat_message (session : String) (options : Options) (before : List Item)
    (m : Message) : rowsShown session options (before ++ [.message m])
      = rowsShown session options before ++ [m.row session] := by
  have hevents : (before ++ [Item.message m]).filterMap Item.event?
      = before.filterMap Item.event? := by
    rw [List.filterMap_append]
    exact List.append_nil _
  rw [rowsShown, firstOfEach_concat, if_neg fun hold ↦ hold.1 rfl, hevents, List.filterMap_append]
  rfl

/-- One more event is told to the rows that are there, and has a row unless it is of a tool call
that has one. -/
theorem rowsShown_concat_event (session : String) (options : Options) (before : List Item)
    (e : Entry) : rowsShown session options (before ++ [.event e])
      = (rowsShown session options before).map (Row.told e) ++
        if e.call? ≠ none ∧ ∃ i ∈ before, i.call? = e.call? then []
        else ((Item.event e).row? session options
          (lastResult? (before.filterMap Item.event? ++ [e]))).toList := by
  have hevents : (before ++ [Item.event e]).filterMap Item.event?
      = before.filterMap Item.event? ++ [e] := by
    rw [List.filterMap_append]
    rfl
  have hcall : (Item.event e).call? = e.call? := rfl
  rw [rowsShown, firstOfEach_concat, hevents, List.filterMap_append, rowsShown, List.map_filterMap,
    hcall]
  congr 1
  · exact List.filterMap_congr fun i _ ↦ i.row?_told _ e
  · split
    · rfl
    · cases hrow : (Item.event e).row? session options
        (lastResult? (before.filterMap Item.event? ++ [e])) <;> simp [hrow]

namespace RowBuilder

variable {b : RowBuilder}

/-- The rows in order, standing nowhere in particular. -/
def unplaced (b : RowBuilder) : List Row := b.rows.reverse.map Row.unplaced

theorem unplaced_add (b : RowBuilder) (r : Row) :
    (b.add r).unplaced = b.unplaced ++ [r.unplaced] := by
  rw [unplaced, add, List.reverse_cons, List.map_append, List.map_singleton, unplaced]

/-- An event is told to no row if there is none of its tool call. -/
theorem map_told_unplaced (h : ∀ call, e.call? = some call → b.call? call = none) :
    b.unplaced.map (Row.told e) = b.unplaced := by
  refine (List.map_congr_left fun r hr ↦ ?_).trans (List.map_id _)
  obtain ⟨q, hq, rfl⟩ := List.mem_map.mp hr
  refine Row.told_of_resultOf?_eq_none fun call hcall ↦ Entry.resultOf?_eq_none fun he ↦ ?_
  exact call?_eq_none_iff.mp (h call he) q (List.mem_reverse.mp hq) hcall

/-- A result is told to the rows of its tool call. -/
theorem unplaced_answer {call : String} {name : Option String} {value : Json} {isError : Bool}
    (he : e.payload = .toolEnd call name value isError) :
    (b.answer call ⟨value, isError, e.time⟩).unplaced = b.unplaced.map (Row.told e) := by
  rw [unplaced, answer, ← List.map_reverse, List.map_map, unplaced, List.map_map]
  refine List.map_congr_left fun r _ ↦ ?_
  rw [Function.comp_apply, Function.comp_apply, ← Row.unplaced_told]
  refine congrArg Row.unplaced ?_
  by_cases hcall : r.call? = some call
  · have hresult : e.resultOf? call = some ⟨value, isError, e.time⟩ := by
      rw [Entry.resultOf?, he]
      exact if_pos rfl
    rw [if_pos (Row.isCall_iff.mpr hcall), Row.told, hcall, Option.bind_some, hresult]
  · rw [if_neg fun his ↦ hcall (Row.isCall_iff.mp his), Row.told_of_resultOf?_eq_none]
    intro c hc
    rw [Entry.resultOf?, he]
    refine if_neg ?_
    rintro rfl
    exact hcall hc

/-- **An event of a tool call that has a row** is told to that row. -/
theorem unplaced_event_of_old {call : String} (hcall : e.call? = some call)
    (hold : b.call? call ≠ none) : (b.event e).unplaced = b.unplaced.map (Row.told e) := by
  obtain ⟨r, hr⟩ := Option.ne_none_iff_exists'.mp hold
  rw [Entry.call?] at hcall
  cases he : e.payload with
  | toolStart c name arguments =>
    rw [he] at hcall
    obtain rfl : c = call := Option.some.inj hcall
    -- the start of a call that has a row brings nothing
    have hquiet : b.unplaced.map (Row.told e) = b.unplaced := by
      refine (List.map_congr_left fun q _ ↦ ?_).trans (List.map_id _)
      refine Row.told_of_resultOf?_eq_none fun c _ ↦ ?_
      rw [Entry.resultOf?, he]
    rw [event, he, hquiet]
    dsimp only
    rw [toolStart, hr]
    rfl
  | toolEnd c name value isError =>
    rw [he] at hcall
    obtain rfl : c = call := Option.some.inj hcall
    rw [event, he, ← unplaced_answer he]
    dsimp only
    rw [toolEnd, hr]
    rfl
  | _ =>
    rw [he] at hcall
    cases hcall

/-- **An event of no tool call, or of one that has no row,** has a row of its own or none. -/
theorem unplaced_event_of_new (h : ∀ call, e.call? = some call → b.call? call = none) :
    (b.event e).unplaced
      = b.unplaced ++ ((Item.event e).row? b.session b.options e.resultOf?).toList := by
  have hquiet : ∀ {c : RowBuilder}, c.rows = b.rows → c.unplaced = b.unplaced ++ [] := by
    intro c hrows
    rw [unplaced, hrows, List.append_nil, unplaced]
  rw [Entry.call?] at h
  rw [event, Item.row?, Entry.plainRow?, Entry.callRow?]
  cases he : e.payload with
  | userPrompt text => exact b.unplaced_add _
  | systemError text => exact b.unplaced_add _
  | toolStart call name arguments =>
    have hnew : b.call? call = none := h call (by rw [he])
    have hresult : e.resultOf? call = none := by rw [Entry.resultOf?, he]
    dsimp only
    rw [toolStart, hnew, hresult]
    exact b.unplaced_add _
  | toolEnd call name value isError =>
    have hnew : b.call? call = none := h call (by rw [he])
    have hresult : e.resultOf? call = some ⟨value, isError, e.time⟩ := by
      rw [Entry.resultOf?, he]
      exact if_pos rfl
    dsimp only
    rw [toolEnd, hnew, hresult]
    exact b.unplaced_add _
  | sessionForked child delegation =>
    cases delegation with
    | none => exact hquiet rfl
    | some id => exact hquiet rfl
  | _ => exact hquiet rfl

theorem session_options_step (b : RowBuilder) (i : Item) :
    (b.step i).session = b.session ∧ (b.step i).options = b.options := by
  have heffect := b.effect_step i
  generalize b.step i = c at heffect ⊢
  cases heffect <;> exact ⟨rfl, rfl⟩

private theorem session_options_foldl_step (session : String) (options : Options)
    (items : List Item) :
    (items.foldl step (.start session options)).session = session ∧
      (items.foldl step (.start session options)).options = options := by
  induction items using List.reverseRecOn with
  | nil => exact ⟨rfl, rfl⟩
  | append_singleton before i ih =>
    rw [List.foldl_concat]
    obtain ⟨hsession, hoptions⟩ :=
      session_options_step (before.foldl step (.start session options)) i
    exact ⟨hsession.trans ih.1, hoptions.trans ih.2⟩

/-- The tool calls that have a row are those that were started or ended. -/
theorem call?_ne_none_iff {items : List Item} (h : b.unplaced = rowsShown session options items)
    {call : String} : b.call? call ≠ none ↔ ∃ i ∈ items, i.call? = some call := by
  have hrows := Item.call?_eq_bind_row? session options (lastResult? (items.filterMap Item.event?))
  rw [← exists_mem_firstOfEach_iff, ← exists_mem_filterMap_iff hrows, ← rowsShown, ← h, ne_eq,
    call?_eq_none_iff]
  push Not
  constructor
  · rintro ⟨r, hr, hcall⟩
    exact ⟨r.unplaced, List.mem_map_of_mem (List.mem_reverse.mpr hr), hcall⟩
  · rintro ⟨r, hr, hcall⟩
    obtain ⟨q, hq, rfl⟩ := List.mem_map.mp hr
    exact ⟨q, List.mem_reverse.mp hq, hcall⟩

/-- **Any number of things.** -/
theorem unplaced_foldl_step (session : String) (options : Options) (items : List Item) :
    (items.foldl step (.start session options)).unplaced = rowsShown session options items := by
  induction items using List.reverseRecOn with
  | nil => rfl
  | append_singleton before i ih =>
    have hcalls : ∀ call, (before.foldl step (.start session options)).call? call ≠ none ↔
        ∃ x ∈ before, x.call? = some call := fun call ↦ call?_ne_none_iff ih
    obtain ⟨hsession, hoptions⟩ := session_options_foldl_step session options before
    rw [List.foldl_concat]
    generalize before.foldl step (.start session options) = b at *
    cases i with
    | message m =>
      rw [rowsShown_concat_message, ← ih, ← hsession]
      exact b.unplaced_add _
    | event e =>
      rw [step, rowsShown_concat_event, ← ih]
      by_cases hold : e.call? ≠ none ∧ ∃ x ∈ before, x.call? = e.call?
      · obtain ⟨call, hcall⟩ := Option.ne_none_iff_exists'.mp hold.1
        rw [if_pos hold, List.append_nil]
        exact unplaced_event_of_old hcall ((hcalls call).mpr (hcall ▸ hold.2))
      · have hnew : ∀ call, e.call? = some call → ∀ x ∈ before, x.call? ≠ some call := by
          intro call hcall x hx hxcall
          exact hold ⟨hcall ▸ Option.some_ne_none call, x, hx, hxcall.trans hcall.symm⟩
        have hrow : ∀ call, e.call? = some call → b.call? call = none := by
          intro call hcall
          by_contra hne
          obtain ⟨x, hx, hxcall⟩ := (hcalls call).mp hne
          exact hnew call hcall x hx hxcall
        rw [if_neg hold, map_told_unplaced hrow, unplaced_event_of_new hrow, hsession, hoptions]
        congr 2
        -- no event before this one brings a result for its call
        refine Item.row?_congr fun call hcall ↦ ?_
        rw [lastResult?_concat, lastResult?_eq_none, Option.or_none]
        intro x hx
        obtain ⟨i, hi, hx⟩ := List.mem_filterMap.mp hx
        have hicall := hnew call hcall i hi
        rwa [Item.call?, hx, Option.bind_some] at hicall

end RowBuilder

namespace RowSet

/-- All rows of a transcript. -/
theorem unplaced_ofTranscript (session : String) (options : Options) (items : List Item) :
    (ofTranscript session options items).rows.map Row.unplaced = rowsShown session options items :=
  RowBuilder.unplaced_foldl_step session options items

/-- Rows of one kind are found among the things of a transcript. -/
theorem map_unplaced_filter {p : Row → Bool} (hp : ∀ r : Row, p r.unplaced = p r)
    {session : String} {options : Options} {items : List Item} {f : Item → Option Row}
    (hf : ∀ i, (i.row? session options (lastResult? (items.filterMap Item.event?))).filter p =
      f i) :
    ((ofTranscript session options items).rows.filter p).map Row.unplaced
      = (firstOfEach Item.call? items).filterMap f := by
  have hcomp : p ∘ Row.unplaced = p := funext hp
  rw [← hcomp, ← List.filter_map, unplaced_ofTranscript, rowsShown, List.filter_filterMap]
  exact List.filterMap_congr fun i _ ↦ hf i

variable {timeline : List Entry}

/-- What is made of events that are no part of a message can be made of the timeline. -/
theorem filterMap_filter_isNone {α : Type} {f : Entry → Option α}
    (hf : ∀ e : Entry, e.payload.stream? ≠ none → f e = none) :
    (timeline.filter fun e ↦ e.payload.stream?.isNone).filterMap f = timeline.filterMap f := by
  rw [List.filterMap_filter]
  refine List.filterMap_congr fun e _ ↦ ?_
  cases hstream : e.payload.stream? with
  | none => rfl
  | some stream => exact (hf e (hstream ▸ Option.some_ne_none stream)).symm

private theorem plain_ofTranscript (session : String) (options : Options) (timeline : List Entry) :
    ((ofTranscript session options (Transcript.ofTimeline timeline)).rows.filter
        fun r ↦ r.isPrompt || r.isError).map Row.unplaced
      = timeline.filterMap (Entry.plainRow? session) := by
  have hunkeyed : ∀ i : Item, i.call? ≠ none → i.event?.bind (Entry.plainRow? session) = none := by
    intro i hi
    cases i with
    | event e =>
      by_contra hplain
      exact hi (Entry.call?_eq_none_of_plainRow? hplain)
    | message m => rfl
  have hpart : ∀ e : Entry, e.payload.stream? ≠ none → e.plainRow? session = none := by
    intro e he
    rw [Entry.plainRow?]
    cases hpayload : e.payload with
    | userPrompt text => rw [hpayload] at he; exact absurd rfl he
    | systemError text => rw [hpayload] at he; exact absurd rfl he
    | _ => rfl
  rw [map_unplaced_filter (f := fun i ↦ i.event?.bind (Entry.plainRow? session)) (fun _ ↦ rfl),
    filterMap_firstOfEach_of_unkeyed hunkeyed, ← List.filterMap_filterMap,
    Transcript.filterMap_event?_ofTimeline, filterMap_filter_isNone hpart]
  intro i
  cases i with
  | event e =>
    rw [Item.row?, Item.event?, Option.bind_some, Entry.plainRow?, Entry.callRow?]
    cases e.payload <;> rfl
  | message m => rfl

private theorem messages_ofTranscript (session : String) (options : Options) (items : List Item) :
    ((ofTranscript session options items).rows.filter Row.isMessage).map Row.unplaced
      = items.filterMap fun i ↦ i.message?.map (Message.row session) := by
  have hunkeyed : ∀ i : Item, i.call? ≠ none → i.message?.map (Message.row session) = none := by
    intro i hi
    cases i with
    | event e => rfl
    | message m => exact absurd rfl hi
  rw [map_unplaced_filter (f := fun i ↦ i.message?.map (Message.row session)) (fun _ ↦ rfl),
    filterMap_firstOfEach_of_unkeyed hunkeyed]
  intro i
  cases i with
  | event e =>
    rw [Item.row?, Entry.plainRow?, Entry.callRow?]
    cases e.payload <;> rfl
  | message m => rfl

theorem calls_ofTranscript (session : String) (options : Options) (timeline : List Entry) :
    ((ofTranscript session options (Transcript.ofTimeline timeline)).rows.filter
        Row.isTool).map Row.unplaced
      = (firstOfEach Entry.call? timeline).filterMap
        (Entry.callRow? session options (lastResult? timeline)) := by
  have hresult : lastResult? (timeline.filter fun e ↦ e.payload.stream?.isNone)
      = lastResult? timeline := by
    refine funext fun call ↦ congrArg List.getLast? (filterMap_filter_isNone fun e he ↦ ?_)
    refine Entry.resultOf?_eq_none fun hsome ↦ ?_
    rw [Entry.call?_eq_none_of_stream? he] at hsome
    cases hsome
  have hrow : ∀ e : Entry, e.payload.stream? ≠ none →
      e.callRow? session options (lastResult? timeline) = none := fun e he ↦
    Entry.callRow?_eq_none (Entry.call?_eq_none_of_stream? he)
  have hkey : ∀ e : Entry, e.payload.stream?.isNone = false → e.call? = none := fun e he ↦
    Entry.call?_eq_none_of_stream? fun hnone ↦ by rw [hnone] at he; cases he
  have hcall : ∀ i : Item, i.call? = i.event?.bind Entry.call? := fun _ ↦ rfl
  rw [map_unplaced_filter
      (f := fun i ↦ i.event?.bind (Entry.callRow? session options (lastResult? timeline)))
      (fun _ ↦ rfl),
    ← List.filterMap_filterMap, filterMap_firstOfEach hcall,
    Transcript.filterMap_event?_ofTimeline, firstOfEach_filter hkey, filterMap_filter_isNone hrow]
  intro i
  rw [Transcript.filterMap_event?_ofTimeline, hresult]
  cases i with
  | event e =>
    rw [Item.row?, Item.event?, Option.bind_some, Entry.plainRow?, Entry.callRow?]
    cases e.payload <;> rfl
  | message m => rfl

/-- **Conservation.** The rows of a session's events show what the timeline has, each thing once,
and nothing else. -/
theorem showAll_ofEvents (session : String) (events : List Event) (options : Options) :
    Row.ShowAll session options (Timeline.ofEvents session events options)
      (ofEvents session events options).rows where
  rising := pairwise_ofEvents session events options
  plain := plain_ofTranscript session options _
  messages := messages_ofTranscript session options _
  calls := calls_ofTranscript session options _
  kinds r _ := by
    rw [Row.isPrompt, Row.isError, Row.isMessage, Row.isTool, Row.tool?]
    cases r.body <;> simp

end RowSet

end SessionReplay
