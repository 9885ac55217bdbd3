import SessionReplay.Proofs.Delegation.Waiting
import SessionReplay.Proofs.Transcript.Growth
import SessionReplay.Row.Builder

/-!
# Rows grow

A longer transcript has the rows of a shorter one and more: `RowSet.extends_ofTranscript`. There are
two reasons why an old row may look different afterwards. Its tool call may have a new result, which
is the builder's doing, `RowBuilder.grows_step`. Or its message was live and changed in the
transcript, long before the builder came to the new things.

## Two runs

The second reason is why growth is not an induction over one run: the transcripts differ in the
middle. So the builders of both are run side by side. `RowBuilder.Alike` says that they have the
same tracker and the same rows up to what live messages say, and since nothing else depends on what
a message says, `RowBuilder.Alike.step`, they stay alike up to the end of the shorter transcript.
-/

namespace SessionReplay

open Delegation (Evolves)

/-! ## Rows in later states -/

/-- The second body is a later state of the first: a tool call may get a result, a live message may
change in every way, and nothing else changes. -/
inductive Row.Body.Evolves : Row.Body → Row.Body → Prop
  | prompt (text : String) : Evolves (.prompt text) (.prompt text)
  | error (text : String) : Evolves (.error text) (.error text)
  | tool (t : ToolCall) (result : Option ToolResult) : Evolves (.tool t) (.tool { t with result })
  | stored (content thinking : String) (stream : Option String) :
    Evolves (.message content thinking stream false) (.message content thinking stream false)
  | live (content thinking content' thinking' : String) (stream stream' : Option String)
      (isLive' : Bool) :
    Evolves (.message content thinking stream true) (.message content' thinking' stream' isLive')

/-- The second row is a later state of the first: it has the same identity and stands in the same
place. -/
structure Row.Evolves (r r' : Row) : Prop where
  id_eq : r'.id = r.id
  session_eq : r'.session = r.session
  agent_eq : r'.agent = r.agent
  sequence_eq : r'.sequence = r.sequence
  time_eq : r'.time = r.time
  depth_eq : r'.depth = r.depth
  parent_eq : r'.parent = r.parent
  group_eq : r'.group = r.group
  body : r.body.Evolves r'.body

namespace Row

variable {r r' r'' : Row}

theorem Body.Evolves.refl : ∀ body : Body, body.Evolves body
  | .prompt text => .prompt text
  | .error text => .error text
  | .tool t => .tool t t.result
  | .message content thinking stream true =>
    .live content thinking content thinking stream stream true
  | .message content thinking stream false => .stored content thinking stream

theorem Body.Evolves.trans {b b' b'' : Body} (h : b.Evolves b') (h' : b'.Evolves b'') :
    b.Evolves b'' := by
  cases h with
  | prompt text => exact h'
  | error text => exact h'
  | stored content thinking stream => exact h'
  | tool t result =>
    cases h' with
    | tool _ result' => exact .tool t result'
  | live content thinking content' thinking' stream stream' isLive' =>
    cases h' with
    | stored => exact .live ..
    | live => exact .live ..

theorem Evolves.refl (r : Row) : r.Evolves r :=
  ⟨rfl, rfl, rfl, rfl, rfl, rfl, rfl, rfl, Body.Evolves.refl r.body⟩

theorem Evolves.trans (h : r.Evolves r') (h' : r'.Evolves r'') : r.Evolves r'' where
  id_eq := h'.id_eq.trans h.id_eq
  session_eq := h'.session_eq.trans h.session_eq
  agent_eq := h'.agent_eq.trans h.agent_eq
  sequence_eq := h'.sequence_eq.trans h.sequence_eq
  time_eq := h'.time_eq.trans h.time_eq
  depth_eq := h'.depth_eq.trans h.depth_eq
  parent_eq := h'.parent_eq.trans h.parent_eq
  group_eq := h'.group_eq.trans h.group_eq
  body := h.body.trans h'.body

theorem evolves_withResult (r : Row) (result : ToolResult) : r.Evolves (r.withResult result) := by
  rw [withResult]
  split
  · next t ht =>
    refine ⟨rfl, rfl, rfl, rfl, rfl, rfl, rfl, rfl, ?_⟩
    rw [ht]
    exact .tool t (some result)
  · exact Evolves.refl r

private theorem withResult_evolves (r : Row) (result : ToolResult) :
    (r.withResult result).Evolves r := by
  rw [withResult]
  split
  · next t ht =>
    refine ⟨rfl, rfl, rfl, rfl, rfl, rfl, rfl, rfl, ?_⟩
    rw [ht]
    exact .tool { t with result := some result } t.result
  · exact Evolves.refl r

theorem Evolves.isMessage_eq (h : r.Evolves r') : r.isMessage = r'.isMessage := by
  have hbody := h.body
  rw [isMessage, isMessage]
  generalize r.body = body at hbody
  generalize r'.body = body' at hbody
  cases hbody <;> rfl

/-- What does not depend on the result of a call does not change. -/
theorem Evolves.any_tool?_eq {p : ToolCall → Bool} (h : r.Evolves r')
    (hp : ∀ t result, p { t with result } = p t) : r.tool?.any p = r'.tool?.any p := by
  have hbody := h.body
  rw [tool?, tool?]
  generalize r.body = body at hbody
  generalize r'.body = body' at hbody
  cases hbody with
  | tool t result => exact (hp t result).symm
  | _ => rfl

theorem Evolves.isCall_eq (h : r.Evolves r') (call : String) : r.isCall call = r'.isCall call :=
  h.any_tool?_eq fun _ _ ↦ rfl

theorem Evolves.delegates_eq (h : r.Evolves r') : r.delegates = r'.delegates :=
  h.any_tool?_eq fun _ _ ↦ rfl

theorem Evolves.isTool_eq (h : r.Evolves r') : r.isTool = r'.isTool := by
  rw [isTool, isTool, ← Option.any_true, ← Option.any_true]
  exact h.any_tool?_eq fun _ _ ↦ rfl

end Row

namespace RowBuilder

/-! ## One run -/

variable {b c : RowBuilder}

theorem grows_add (b : RowBuilder) (r : Row) :
    Grows Row.Evolves b.rows.reverse (b.add r).rows.reverse := by
  rw [add, List.reverse_cons]
  exact Grows.append Row.Evolves.refl _ _

private theorem grows_toolStart (b : RowBuilder) (e : Entry) (call name : String)
    (arguments : Json) :
    Grows Row.Evolves b.rows.reverse (b.toolStart e call name arguments).rows.reverse := by
  rw [toolStart]
  split
  · exact Grows.refl Row.Evolves.refl _
  · exact grows_add b _

private theorem grows_toolEnd (b : RowBuilder) (e : Entry) (call : String) (name : Option String)
    (result : ToolResult) :
    Grows Row.Evolves b.rows.reverse (b.toolEnd e call name result).rows.reverse := by
  rw [toolEnd]
  split
  · exact grows_add b _
  · rw [← List.map_reverse]
    refine Grows.map (fun r ↦ ?_) _
    split
    · exact Row.evolves_withResult r result
    · exact Row.Evolves.refl r

theorem grows_step (b : RowBuilder) (i : Item) :
    Grows Row.Evolves b.rows.reverse (b.step i).rows.reverse := by
  cases i with
  | message m => exact grows_add b _
  | event e =>
    rw [step, event]
    split
    · exact grows_add b _
    · exact grows_add b _
    · exact grows_toolStart ..
    · exact grows_toolEnd ..
    all_goals exact Grows.refl Row.Evolves.refl _

private theorem tracker_report (b : RowBuilder) (r : Tracker.Report) :
    (b.report r).tracker = b.tracker.step r := rfl

private theorem tracker_toolStart (b : RowBuilder) (e : Entry) (call name : String)
    (arguments : Json) :
    (b.toolStart e call name arguments).tracker = b.tracker ∨
      ∃ r, (b.toolStart e call name arguments).tracker = b.tracker.step r := by
  rw [toolStart]
  split
  · exact Or.inl rfl
  · dsimp only
    split
    · exact Or.inr ⟨.opened _, rfl⟩
    · exact Or.inl rfl

private theorem tracker_toolEnd (b : RowBuilder) (e : Entry) (call : String) (name : Option String)
    (result : ToolResult) :
    (b.toolEnd e call name result).tracker = b.tracker ∨
      ∃ r, (b.toolEnd e call name result).tracker = b.tracker.step r := by
  rw [toolEnd]
  split
  · exact Or.inl rfl
  · dsimp only
    split
    · exact Or.inr ⟨.finishGroup call _, rfl⟩
    · exact Or.inl rfl

/-- One thing of a transcript gives the tracker one report at most. -/
theorem tracker_step (b : RowBuilder) (i : Item) :
    (b.step i).tracker = b.tracker ∨ ∃ r, (b.step i).tracker = b.tracker.step r := by
  cases i with
  | message m => exact Or.inl rfl
  | event e =>
    rw [step, event]
    split
    · exact Or.inl rfl
    · exact Or.inl rfl
    · exact b.tracker_toolStart ..
    · exact b.tracker_toolEnd ..
    · exact Or.inr ⟨_, tracker_report b _⟩
    · exact Or.inr ⟨_, tracker_report b _⟩
    · exact Or.inr ⟨_, tracker_report b _⟩
    · exact Or.inr ⟨_, tracker_report b _⟩
    · exact Or.inl rfl

theorem orderly_step (b : RowBuilder) (h : b.tracker.Orderly) (i : Item) :
    (b.step i).tracker.Orderly := by
  rcases b.tracker_step i with heq | ⟨r, heq⟩
  · rw [heq]
    exact h
  · rw [heq]
    exact (h.step r).1

theorem keeps_step (b : RowBuilder) (h : b.tracker.Orderly) (i : Item) :
    b.tracker.groups.Keeps Evolves (b.step i).tracker.groups := by
  rcases b.tracker_step i with heq | ⟨r, heq⟩
  · rw [heq]
    exact Table.Keeps.refl Evolves.refl _
  · rw [heq]
    exact h.keeps_step r

theorem orderly_foldl_step (h : b.tracker.Orderly) (items : List Item) :
    (items.foldl step b).tracker.Orderly := by
  induction items generalizing b with
  | nil => exact h
  | cons i rest ih => exact ih (b.orderly_step h i)

/-- Later things of a transcript keep what the earlier ones made. -/
theorem grows_foldl_step (h : b.tracker.Orderly) (items : List Item) :
    Grows Row.Evolves b.rows.reverse (items.foldl step b).rows.reverse ∧
      b.tracker.groups.Keeps Evolves (items.foldl step b).tracker.groups := by
  induction items generalizing b with
  | nil => exact ⟨Grows.refl Row.Evolves.refl _, Table.Keeps.refl Evolves.refl _⟩
  | cons i rest ih =>
    obtain ⟨hrows, hgroups⟩ := ih (b.orderly_step h i)
    exact ⟨(b.grows_step i).trans Row.Evolves.trans hrows,
      (b.keeps_step h i).trans Evolves.trans hgroups⟩

/-! ## Two runs -/

/-- The second builder has the tracker of the first and its rows in later states. -/
structure Alike (b c : RowBuilder) : Prop where
  session_eq : c.session = b.session
  options_eq : c.options = b.options
  tracker_eq : c.tracker = b.tracker
  rows : List.Forall₂ Row.Evolves b.rows c.rows

theorem Alike.refl (b : RowBuilder) : b.Alike b :=
  ⟨rfl, rfl, rfl, List.forall₂_same.mpr fun r _ ↦ Row.Evolves.refl r⟩

theorem rel_find? {rows rows' : List Row} (h : List.Forall₂ Row.Evolves rows rows')
    {p : Row → Bool} (hp : ∀ {r r'}, r.Evolves r' → p r = p r') :
    Option.Rel Row.Evolves (rows.find? p) (rows'.find? p) := by
  induction h with
  | nil => exact Option.Rel.none
  | @cons r r' _ _ hr _ ih =>
    rw [List.find?_cons, List.find?_cons, ← hp hr]
    cases p r with
    | true => exact Option.Rel.some hr
    | false => exact ih

theorem Alike.call? (h : b.Alike c) (call : String) :
    Option.Rel Row.Evolves (b.call? call) (c.call? call) :=
  rel_find? h.rows fun hr ↦ hr.isCall_eq call

theorem Alike.latestMessage? (h : b.Alike c) (agent : String) :
    Option.Rel Row.Evolves (b.latestMessage? agent) (c.latestMessage? agent) :=
  rel_find? h.rows fun hr ↦ by rw [hr.isMessage_eq, hr.agent_eq]

theorem Alike.messagePlace_eq (h : b.Alike c) (agent : String) :
    c.messagePlace agent = b.messagePlace agent := by
  rw [messagePlace, messagePlace, h.tracker_eq]

theorem Alike.anchor?_eq (h : b.Alike c) (agent : String) : c.anchor? agent = b.anchor? agent := by
  have hlatest := h.latestMessage? agent
  rw [anchor?, anchor?, h.tracker_eq]
  generalize b.latestMessage? agent = latest at hlatest
  generalize c.latestMessage? agent = latest' at hlatest
  cases hlatest with
  | none => rfl
  | @some r r' hr =>
    rw [Option.filter_some, Option.filter_some, hr.group_eq]
    by_cases hgroup : (r.group == (b.tracker.route? agent).map Delegation.call) = true
    · rw [if_pos hgroup, if_pos hgroup]
      dsimp only
      rw [hr.depth_eq, hr.id_eq]
    · rw [if_neg hgroup, if_neg hgroup]

theorem Alike.toolPlace?_eq (h : b.Alike c) (agent : String) :
    c.toolPlace? agent = b.toolPlace? agent := by
  rw [toolPlace?, toolPlace?, h.tracker_eq, h.anchor?_eq]

theorem Alike.add (h : b.Alike c) {r r' : Row} (hr : r.Evolves r') : (b.add r).Alike (c.add r') :=
  ⟨h.session_eq, h.options_eq, h.tracker_eq, List.Forall₂.cons hr h.rows⟩

theorem Alike.report (h : b.Alike c) (r : Tracker.Report) : (b.report r).Alike (c.report r) :=
  ⟨h.session_eq, h.options_eq, congrArg (Tracker.step · r) h.tracker_eq, h.rows⟩

theorem Alike.row (h : b.Alike c) (id agent : String) (sequence : UInt64) (time : Instant)
    (p : Placement) {body body' : Row.Body} (hbody : body.Evolves body') :
    (b.row id agent sequence time p body).Evolves (c.row id agent sequence time p body') :=
  ⟨rfl, h.session_eq, rfl, rfl, rfl, rfl, rfl, rfl, hbody⟩

theorem Alike.message (h : b.Alike c) {m m' : Message} (hm : m.Evolves m') :
    (b.message m).Alike (c.message m') := by
  rw [RowBuilder.message, RowBuilder.message, h.messagePlace_eq, h.session_eq, hm.agent_eq,
    hm.sequence_eq, hm.time_eq]
  refine h.add (h.row _ _ _ _ _ ?_)
  cases hlive : m.isLive with
  | true => exact .live ..
  | false =>
    rw [hm.eq_of_stored hlive, hlive]
    exact .stored ..

theorem Alike.plain (h : b.Alike c) (e : Entry) (body : Row.Body) :
    (b.plain e body).Alike (c.plain e body) := by
  rw [RowBuilder.plain, RowBuilder.plain, h.session_eq]
  exact h.add (h.row _ _ _ _ _ (Row.Body.Evolves.refl body))

theorem Alike.toolStart (h : b.Alike c) (e : Entry) (call name : String) (arguments : Json) :
    (b.toolStart e call name arguments).Alike (c.toolStart e call name arguments) := by
  have hcall : (c.call? call).isSome = (b.call? call).isSome := by
    have hrel := h.call? call
    generalize b.call? call = row at hrel
    generalize c.call? call = row' at hrel
    cases hrel <;> rfl
  rw [RowBuilder.toolStart, RowBuilder.toolStart, hcall, h.toolPlace?_eq, h.options_eq,
    h.tracker_eq]
  split
  · exact h
  · exact ⟨h.session_eq, h.options_eq, rfl,
      List.Forall₂.cons (h.row _ _ _ _ _ (Row.Body.Evolves.refl _)) h.rows⟩

theorem Alike.orphanEnd (h : b.Alike c) (e : Entry) (call : String) (name : Option String)
    (result : ToolResult) :
    (b.orphanEnd e call name result).Alike (c.orphanEnd e call name result) := by
  rw [RowBuilder.orphanEnd, RowBuilder.orphanEnd, h.anchor?_eq]
  exact h.add (h.row _ _ _ _ _ (Row.Body.Evolves.refl _))

theorem Alike.toolEnd (h : b.Alike c) (e : Entry) (call : String) (name : Option String)
    (result : ToolResult) :
    (b.toolEnd e call name result).Alike (c.toolEnd e call name result) := by
  have hrel := h.call? call
  rw [RowBuilder.toolEnd, RowBuilder.toolEnd]
  generalize b.call? call = row at hrel
  generalize c.call? call = row' at hrel
  cases hrel with
  | none => exact h.orphanEnd e call name result
  | some hr =>
    refine ⟨h.session_eq, h.options_eq, ?_, ?_⟩
    · dsimp only
      rw [h.tracker_eq, hr.delegates_eq]
    · rw [List.forall₂_map_left_iff, List.forall₂_map_right_iff]
      -- results do not count, so they may be taken away, the rows compared, and results put back
      refine h.rows.imp fun r r' hr ↦ ?_
      rw [← hr.isCall_eq]
      split
      · exact ((r.withResult_evolves result).trans hr).trans (r'.evolves_withResult result)
      · exact hr

theorem Alike.step (h : b.Alike c) {i j : Item} (hij : i.Evolves j) :
    (b.step i).Alike (c.step j) := by
  cases hij with
  | message hm => exact h.message hm
  | event e =>
    rw [RowBuilder.step, RowBuilder.step, event, event]
    split
    · exact h.plain e _
    · exact h.plain e _
    · exact h.toolStart ..
    · exact h.toolEnd ..
    · exact h.report _
    · exact h.report _
    · exact h.report _
    · exact h.report _
    · exact h

theorem Alike.foldl_step (h : b.Alike c) {items items' : List Item}
    (hitems : List.Forall₂ Item.Evolves items items') :
    (items.foldl RowBuilder.step b).Alike (items'.foldl RowBuilder.step c) := by
  induction hitems generalizing b c with
  | nil => exact h
  | cons hij _ ih => exact ih (h.step hij)

/-- At the end of the shorter transcript the builders are alike. -/
theorem Alike.exists_foldl_step (h : b.Alike c) {items items' : List Item}
    (hitems : Grows Item.Evolves items items') :
    ∃ (d : RowBuilder) (later : List Item), (items.foldl RowBuilder.step b).Alike d ∧
      items'.foldl RowBuilder.step c = later.foldl RowBuilder.step d := by
  obtain ⟨old, new, rfl, hold⟩ := hitems.exists_append
  exact ⟨_, new, h.foldl_step hold, List.foldl_append⟩

end RowBuilder

/-! ## Rows and groups -/

theorem RowBuilder.get?_groups_finish (b : RowBuilder) (call : String) :
    b.finish.groups.get? call = (b.tracker.groups.get? call).map (Group.ofRows b.rows.reverse) :=
  Table.get?_map _ _ _

/-- The second rows and groups are later states of the first. -/
structure RowSet.Extends (s s' : RowSet) : Prop where
  rows : Grows Row.Evolves s.rows s'.rows
  groups : s.groups.Keeps (fun g g' ↦ g.toDelegation.Evolves g'.toDelegation) s'.groups

/-- **Growth.** A transcript that grows has rows and groups that grow. -/
theorem RowSet.extends_ofTranscript (session : String) (options : Options)
    {items items' : List Item} (h : Grows Item.Evolves items items') :
    (ofTranscript session options items).Extends (ofTranscript session options items') := by
  obtain ⟨d, later, halike, hlater⟩ :=
    (RowBuilder.Alike.refl (RowBuilder.start session options)).exists_foldl_step h
  have horderly : d.tracker.Orderly := by
    rw [halike.tracker_eq]
    exact RowBuilder.orderly_foldl_step Tracker.orderly_empty items
  obtain ⟨hrows, hgroups⟩ := RowBuilder.grows_foldl_step horderly later
  rw [ofTranscript, ofTranscript, hlater]
  -- `b` ends the shorter run, `d` is the longer run at that point, and `later` is the rest of it
  generalize items.foldl RowBuilder.step (.start session options) = b at halike
  constructor
  · have hold := Grows.of_forall₂ (List.forall₂_reverse_iff.mpr halike.rows)
    exact hold.trans Row.Evolves.trans hrows
  · intro call g hg
    rw [RowBuilder.get?_groups_finish, ← halike.tracker_eq, Option.map_eq_some_iff] at hg
    obtain ⟨d₀, hd₀, rfl⟩ := hg
    obtain ⟨d₁, hd₁, hevolves⟩ := hgroups call d₀ hd₀
    rw [RowBuilder.get?_groups_finish, hd₁]
    exact ⟨_, rfl, hevolves⟩

end SessionReplay
