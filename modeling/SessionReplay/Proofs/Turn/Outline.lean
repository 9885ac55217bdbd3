import Mathlib.Data.List.Chain
import SessionReplay.Proofs.Table
import SessionReplay.Proofs.Turn

/-!
# What a list of turns is

The rows at the top are cut before every prompt and each piece is a turn, with the name and the time
of its first row. A turn ends when the next one starts. The last turn has no next one: it goes on
while somebody is at work on it, and else it ended with the last thing in it. `Turn.Outlines` says
so of a list of turns, and there is one such list only: `Turn.outlines_iff`.

## One cut only

That every piece but the first begins with a prompt, and that no prompt stands further behind in a
piece, leaves no choice where to cut: `segments_flatten`. So there are as many turns as there are
prompts, and one more for rows that come before any prompt.
-/

namespace SessionReplay

/-! ## Cuts -/

/-- The pieces are cut before every prompt and nowhere else. -/
structure IsCut (pieces : List (List Row)) : Prop where
  isSegment : ∀ piece ∈ pieces, IsSegment piece
  /-- Rows before the first prompt can only be the first piece. -/
  begins : ∀ piece ∈ pieces.tail, piece.head?.any Row.isPrompt = true

variable {rows : List Row}

theorem exists_segments_cons (r : Row) (rows : List Row) :
    ∃ rest ss, segments (r :: rows) = (r :: rest) :: ss := by
  have h : segments (r :: rows) = addToSegments r (segments rows) := rfl
  rw [h]
  cases segments rows with
  | nil => exact ⟨[], [], rfl⟩
  | cons segment ss =>
    rw [addToSegments]
    split
    · exact ⟨[], segment :: ss, rfl⟩
    · exact ⟨segment, ss, rfl⟩

/-- A row goes into a piece of its own if the next one is a prompt, and else into that of the next
one. -/
theorem segments_cons_cons (r q : Row) (rows : List Row) :
    segments (r :: q :: rows) = if q.isPrompt = true then [r] :: segments (q :: rows)
      else (segments (q :: rows)).modifyHead (r :: ·) := by
  obtain ⟨rest, ss, hsegments⟩ := exists_segments_cons q rows
  have h : segments (r :: q :: rows) = addToSegments r (segments (q :: rows)) := rfl
  rw [h, hsegments]
  rfl

private theorem isCut_segments (rows : List Row) : IsCut (segments rows) := by
  refine ⟨isSegment_of_mem_segments rows, ?_⟩
  induction rows with
  | nil => exact List.forall_mem_nil _
  | cons r rows ih =>
    cases rows with
    | nil => exact List.forall_mem_nil _
    | cons q rows =>
      rw [segments_cons_cons]
      obtain ⟨rest, ss, hsegments⟩ := exists_segments_cons q rows
      rw [hsegments] at ih ⊢
      split
      · next hq => exact List.forall_mem_cons.mpr ⟨hq, ih⟩
      · exact ih

/-- A segment is a piece of its own if nothing or a prompt comes after it. -/
theorem segments_append {segment : List Row} (hsegment : IsSegment segment)
    (hrows : ∀ r ∈ rows.head?, r.isPrompt = true) :
    segments (segment ++ rows) = segment :: segments rows := by
  obtain ⟨r, rest, rfl, hrest⟩ := hsegment
  induction rest generalizing r with
  | nil =>
    cases rows with
    | nil => rfl
    | cons q rows => exact (segments_cons_cons r q rows).trans (if_pos (hrows q rfl))
  | cons x rest ih =>
    obtain ⟨hx, hrest⟩ := List.forall_mem_cons.mp hrest
    rw [List.cons_append, List.cons_append, segments_cons_cons,
      if_neg (Bool.eq_false_iff.mp hx), ← List.cons_append, ih x hrest]
    rfl

/-- **One cut only.** Rows are cut before every prompt in one way. -/
theorem segments_flatten {pieces : List (List Row)} (h : IsCut pieces) :
    segments pieces.flatten = pieces := by
  obtain ⟨hsegments, hbegins⟩ := h
  induction pieces with
  | nil => rfl
  | cons piece pieces ih =>
    obtain ⟨hpiece, hpieces⟩ := List.forall_mem_cons.mp hsegments
    rw [List.flatten_cons, segments_append hpiece, ih hpieces fun q hq ↦
      hbegins q (List.mem_of_mem_tail hq)]
    -- what comes next is the beginning of the next piece
    cases pieces with
    | nil => rintro r ⟨⟩
    | cons next pieces =>
      obtain ⟨⟨q, rest, rfl, -⟩, -⟩ := List.forall_mem_cons.mp hpieces
      rintro r ⟨⟩
      exact hbegins _ List.mem_cons_self

/-- Every prompt but that at the very beginning begins one more piece. -/
theorem length_segments_cons (r : Row) (rows : List Row) :
    (segments (r :: rows)).length = rows.countP Row.isPrompt + 1 := by
  induction rows generalizing r with
  | nil => rfl
  | cons q rows ih =>
    rw [segments_cons_cons]
    split
    · next hq => rw [List.length_cons, ih, List.countP_cons_of_pos hq]
    · next hq => rw [List.length_modifyHead, ih, List.countP_cons_of_neg hq]

private theorem length_segments (rows : List Row) :
    (segments rows).length = rows.countP Row.isPrompt
      + if rows.head?.any (fun r ↦ !r.isPrompt) then 1 else 0 := by
  cases rows with
  | nil => rfl
  | cons r rows =>
    rw [length_segments_cons, List.countP_cons, List.head?_cons, Option.any_some]
    cases r.isPrompt <;> rfl

/-! ## Latest times -/

theorem Instant.max?_eq_some_iff {times : List Instant} {time : Instant} :
    times.max? = some time ↔ time ∈ times ∧ ∀ t ∈ times, t ≤ time := by
  have : Std.MaxEqOr Int64 := ⟨fun a b ↦ by
    have h : max a b = if a ≤ b then b else a := rfl
    rw [h]
    split
    · exact Or.inr rfl
    · exact Or.inl rfl⟩
  have : Std.LawfulOrderSup Int64 := ⟨fun a b c ↦ by
    rw [Int64.le_iff_toInt_le, toInt_max, Int.max_le, ← Int64.le_iff_toInt_le,
      ← Int64.le_iff_toInt_le]⟩
  have : Std.LawfulOrderMax Int64 := ⟨⟩
  exact List.max?_eq_some_iff

theorem Row.time_le_lastActivity (r : Row) : r.time ≤ r.lastActivity := by
  rw [Row.lastActivity]
  split
  · rw [Int64.le_iff_toInt_le, Instant.toInt_max]
    exact Int.le_max_right _ _
  · exact Int64.le_refl _

theorem Activity.isAnyThinking_iff {activity : Activity} :
    activity.isAnyThinking = true ↔ ∃ name, activity.isThinking name = true := by
  rw [isAnyThinking, Bool.not_eq_true', Table.isEmpty_eq_false_iff]
  rfl

/-- The rows at the top. -/
def RowSet.topRows (set : RowSet) : List Row := set.rows.filter fun r ↦ r.group.isNone

namespace Turn

/-! ## Turns and pieces -/

/-- A turn is made of a piece of rows. -/
structure Covers (groups : Table Group) (t : Turn) (rows : List Row) : Prop
    extends t.Files groups rows where
  /-- It has the name and the time of the first one. -/
  exists_first : ∃ r, rows.head? = some r ∧ t.id = r.id ∧ t.start = r.time
  agent_eq : t.agent = t.messages.head?.map Row.agent
  errored_iff : t.errored = true ↔ t.errors ≠ []

/-- A turn is ended by the next one. -/
structure EndedBy (changes : List ModelChange) (t next : Turn) : Prop where
  stop_eq : t.stop = some next.start
  isActive_eq : t.isActive = false
  model_eq : t.model = ModelChange.effective? changes t.start (some next.start)

/-- Nothing comes after a turn. -/
structure IsLast (changes : List ModelChange) (activity : Activity) (t : Turn) : Prop where
  /-- The turn is active while the agent of its first message thinks. -/
  isActive_iff_of_message : ∀ r, t.messages.head? = some r →
    (t.isActive = true ↔ activity.isThinking r.agent = true)
  /-- If it has no messages, it is active while anybody thinks. -/
  isActive_iff_of_no_message : t.messages = [] →
    (t.isActive = true ↔ ∃ name, activity.isThinking name = true)
  stop_eq_none : t.isActive = true → t.stop = none
  /-- A turn that is not active ended with the last thing in it. -/
  exists_stop : t.isActive = false → ∃ stop, t.stop = some stop ∧
    (∃ r ∈ t.rows, r.lastActivity = stop) ∧ (∀ r ∈ t.rows, r.lastActivity ≤ stop) ∧ t.start ≤ stop
  model_eq : t.model = ModelChange.effective? changes t.start none

variable {groups : Table Group} {changes : List ModelChange} {activity : Activity} {t : Turn}
  {rows : List Row} {turns : List Turn} {pieces : List (List Row)}

private theorem covers_file (groups : Table Group) (r : Row) (rest : List Row)
    (h : IsSegment (r :: rest)) :
    (file groups r.id r.time (r :: rest)).Covers groups (r :: rest) where
  toFiles := files_file groups r.id r.time h
  exists_first := ⟨r, rfl, rfl, rfl⟩
  agent_eq := by rw [file, List.head?_filter]
  errored_iff := by
    rw [file, ← List.length_pos_iff, List.length_filter_pos_iff, List.any_eq_true]

theorem Covers.moved (h : t.Covers groups rows) (isActive : Bool) (stop : Option Instant)
    (model : Option ModelLabel) : Covers groups { t with isActive, stop, model } rows :=
  ⟨h.toFiles.moved isActive stop model, h.exists_first, h.agent_eq, h.errored_iff⟩

theorem Covers.exists_cons (h : t.Covers groups rows) :
    ∃ r rest, rows = r :: rest ∧ t.id = r.id ∧ t.start = r.time := by
  obtain ⟨r, hr, hid, hstart⟩ := h.exists_first
  obtain ⟨rest, hrest⟩ := List.head?_eq_some_iff.mp hr
  exact ⟨r, rest, hrest, hid, hstart⟩

theorem exists_piece_of_mem (h : List.Forall₂ (Covers groups) turns pieces) (ht : t ∈ turns) :
    ∃ piece ∈ pieces, t.Covers groups piece := by
  induction h with
  | nil => cases ht
  | @cons _ piece _ _ hfirst _ ih =>
    rcases List.mem_cons.mp ht with rfl | ht
    · exact ⟨piece, List.mem_cons_self, hfirst⟩
    · obtain ⟨piece', hmem, hcovers⟩ := ih ht
      exact ⟨piece', List.mem_cons_of_mem _ hmem, hcovers⟩

/-- The rows say all of a turn but when it ended, whether it is active and which model it had. -/
theorem Covers.eq_file {r : Row} {rest : List Row} (h : t.Covers groups (r :: rest)) :
    t = { file groups r.id r.time (r :: rest) with
      isActive := t.isActive, stop := t.stop, model := t.model } := by
  obtain ⟨first, hfirst, hid, hstart⟩ := h.exists_first
  obtain rfl := Option.some.inj hfirst
  have hprompt : t.prompt = (r :: rest).find? Row.isPrompt := by
    rw [← List.head?_filter, ← h.prompt_eq]
    cases t.prompt <;> rfl
  have hagent : t.agent = ((r :: rest).find? Row.isMessage).map Row.agent := by
    rw [h.agent_eq, h.messages_eq, List.head?_filter]
  have herrored : t.errored = (r :: rest).any Row.isError := by
    rw [Bool.eq_iff_iff, h.errored_iff, h.errors_eq, ← List.length_pos_iff,
      List.length_filter_pos_iff, List.any_eq_true]
  rw [file, ← hprompt, ← h.messages_eq, ← h.toolCalls_eq, ← h.errors_eq, ← h.delegations_eq,
    ← hagent, ← herrored, ← hid, ← hstart]

/-! ## The last turn -/

theorem lastActivity_eq_iff (hrows : t.rows ≠ []) {stop : Instant} :
    t.lastActivity = stop ↔
      (∃ r ∈ t.rows, r.lastActivity = stop) ∧ ∀ r ∈ t.rows, r.lastActivity ≤ stop := by
  have hsome : ∃ time, latestActivity? t.rows = some time := by
    rw [← Option.isSome_iff_exists, latestActivity?, List.isSome_max?_iff, Ne, List.map_eq_nil_iff]
    exact hrows
  obtain ⟨time, htime⟩ := hsome
  have hstop : t.lastActivity = stop ↔ latestActivity? t.rows = some stop := by
    rw [lastActivity, htime, Option.getD_some, Option.some_inj]
  rw [hstop, latestActivity?, Instant.max?_eq_some_iff, List.mem_map, List.forall_mem_map]

namespace Covers

variable (h : t.Covers groups rows)
include h

theorem rows_ne_nil : t.rows ≠ [] := by
  obtain ⟨r, hr, -⟩ := h.exists_first
  intro hnil
  have hperm := h.perm_rows
  rw [hnil, List.nil_perm] at hperm
  rw [hperm] at hr
  cases hr

/-- A turn does not start after the last thing in it. -/
theorem start_le_lastActivity : t.start ≤ t.lastActivity := by
  obtain ⟨r, hr, -, hstart⟩ := h.exists_first
  have hmem : r ∈ t.rows := h.perm_rows.mem_iff.mpr (List.mem_of_mem_head? hr)
  have hlatest := (lastActivity_eq_iff h.rows_ne_nil).mp rfl
  rw [hstart]
  exact Int64.le_trans r.time_le_lastActivity (hlatest.2 r hmem)

theorem isThinking_of_message {r : Row} (hr : t.messages.head? = some r) :
    t.isThinking activity = activity.isThinking r.agent := by
  rw [isThinking, h.agent_eq, hr, Option.map_some]

theorem isThinking_of_no_message (hmessages : t.messages = []) :
    t.isThinking activity = activity.isAnyThinking := by
  rw [isThinking, h.agent_eq, hmessages, List.head?_nil, Option.map_none]

private theorem isLast_last : IsLast changes activity
    { t.last activity with model := ModelChange.effective? changes t.start none } where
  isActive_iff_of_message r hr := by
    dsimp only [last]
    rw [h.isThinking_of_message hr]
  isActive_iff_of_no_message hmessages := by
    dsimp only [last]
    rw [h.isThinking_of_no_message hmessages, Activity.isAnyThinking_iff]
  stop_eq_none hactive := if_pos hactive
  exists_stop hrest := by
    have hlatest := (lastActivity_eq_iff h.rows_ne_nil).mp rfl
    exact ⟨t.lastActivity, if_neg (Bool.eq_false_iff.mp hrest), hlatest.1, hlatest.2,
      h.start_le_lastActivity⟩
  model_eq := rfl

/-- Of a turn of which nothing comes after, the rows say all. -/
theorem eq_last (hlast : t.IsLast changes activity) :
    t = { t.last activity with model := ModelChange.effective? changes t.start none } := by
  have hactive : t.isActive = t.isThinking activity := by
    cases hmessages : t.messages with
    | nil =>
      rw [Bool.eq_iff_iff, h.isThinking_of_no_message hmessages, Activity.isAnyThinking_iff,
        hlast.isActive_iff_of_no_message hmessages]
    | cons r rest =>
      have hr : t.messages.head? = some r := by rw [hmessages, List.head?_cons]
      rw [Bool.eq_iff_iff, h.isThinking_of_message hr, hlast.isActive_iff_of_message r hr]
  have hstop : t.stop = if t.isThinking activity then none else some t.lastActivity := by
    rw [← hactive]
    split
    · next hthinks => exact hlast.stop_eq_none hthinks
    · next hrests =>
      obtain ⟨stop, hstop, hattained, hbound, -⟩ := hlast.exists_stop (Bool.eq_false_iff.mpr hrests)
      rw [hstop, (lastActivity_eq_iff h.rows_ne_nil).mpr ⟨hattained, hbound⟩]
  rw [last, ← hstop, ← hactive, ← hlast.model_eq]

end Covers

/-! ## All turns -/

private theorem getLast?_close (changes : List ModelChange) (activity : Activity)
    (turns : List Turn) :
    (close changes activity turns).getLast? = turns.getLast?.map fun t ↦
      { t.last activity with model := ModelChange.effective? changes t.start none } := by
  induction turns with
  | nil => rfl
  | cons t turns ih =>
    cases turns with
    | nil => rfl
    | cons next turns =>
      rw [List.getLast?_cons_cons, ← ih, close]
      cases turns <;> rfl

/-- **One turn after the other.** Each one is ended by the next. -/
theorem isChain_close (hrest : ∀ t ∈ turns, t.isActive = false) :
    (close changes activity turns).IsChain (EndedBy changes) := by
  induction turns with
  | nil => exact List.isChain_nil
  | cons t turns ih =>
    obtain ⟨ht, hturns⟩ := List.forall_mem_cons.mp hrest
    cases turns with
    | nil => exact List.isChain_singleton _
    | cons next turns =>
      rw [close]
      refine List.isChain_cons.mpr ⟨fun closed hclosed ↦ ?_, ih hturns⟩
      -- closing the next turn does not change when it started
      have hstart : closed.start = next.start := by
        cases turns with
        | nil => exact (Option.some.inj hclosed) ▸ rfl
        | cons _ _ => exact (Option.some.inj hclosed) ▸ rfl
      exact ⟨hstart ▸ rfl, ht, hstart ▸ rfl⟩

private theorem isActive_eq_false_of_mem {ss : List (List Row)}
    (ht : t ∈ ss.filterMap (ofSegment? groups)) : t.isActive = false := by
  obtain ⟨s, -, hs⟩ := List.mem_filterMap.mp ht
  cases s with
  | nil => cases hs
  | cons r rest => exact (Option.some.inj hs) ▸ rfl

/-- Turns that cover pieces, each one ended by the next, are the turns of the pieces closed. -/
theorem eq_close (h : List.Forall₂ (Covers groups) turns pieces)
    (hchain : turns.IsChain (EndedBy changes))
    (hlast : ∀ t, turns.getLast? = some t → t.IsLast changes activity) :
    turns = close changes activity (pieces.filterMap (ofSegment? groups)) := by
  induction h with
  | nil => rfl
  | @cons t piece turns pieces ht hturns ih =>
    obtain ⟨r, rest, rfl, hid, hstart⟩ := ht.exists_cons
    cases hturns with
    | nil =>
      refine congrArg (fun t ↦ [t]) ((ht.eq_last (hlast t rfl)).trans ?_)
      exact congrArg (fun t ↦ { t.last activity with
        model := ModelChange.effective? changes t.start none }) ht.eq_file
    | @cons next piece' turns pieces hnext hturns =>
      obtain ⟨hended, hchain⟩ := List.isChain_cons_cons.mp hchain
      have ih := ih hchain fun t ht ↦ hlast t (by rwa [List.getLast?_cons_cons])
      obtain ⟨r', rest', rfl, -, hstart'⟩ := hnext.exists_cons
      have heq := ht.eq_file
      rw [hended.isActive_eq, hended.stop_eq, hended.model_eq, hstart, hstart'] at heq
      exact congrArg₂ List.cons heq ih

/-- A list of turns is the outline of some rows. -/
structure Outlines (set : RowSet) (changes : List ModelChange) (activity : Activity)
    (turns : List Turn) : Prop where
  /-- There is a turn for each piece of the rows at the top, cut before every prompt. -/
  exists_cut : ∃ pieces, IsCut pieces ∧ pieces.flatten = set.topRows ∧
    List.Forall₂ (Covers set.groups) turns pieces
  /-- There is a turn for each prompt, and one for rows that come before. -/
  length_eq : turns.length = set.topRows.countP Row.isPrompt
    + if set.topRows.head?.any (fun r ↦ !r.isPrompt) then 1 else 0
  /-- Only the first turn may have no prompt. -/
  prompt_ne_none : ∀ t ∈ turns.tail, t.prompt ≠ none
  isChain : turns.IsChain (EndedBy changes)
  isLast : ∀ t, turns.getLast? = some t → t.IsLast changes activity

private theorem prompt_ne_none_of_covers (hcut : IsCut pieces)
    (h : List.Forall₂ (Covers groups) turns pieces) : ∀ t ∈ turns.tail, t.prompt ≠ none := by
  cases h with
  | nil => exact List.forall_mem_nil _
  | cons _ hturns =>
    rw [List.tail_cons]
    intro t ht hnone
    obtain ⟨piece, hpiece, hcovers⟩ := exists_piece_of_mem hturns ht
    obtain ⟨r, rest, rfl, -⟩ := hcovers.exists_cons
    have hr : r.isPrompt = true := hcut.begins _ hpiece
    have hprompts := hcovers.prompt_eq
    rw [hnone, List.filter_cons_of_pos hr] at hprompts
    cases hprompts

private theorem outlines_ofRows (set : RowSet) (changes : List ModelChange) (activity : Activity) :
    Outlines set changes activity (ofRows set changes activity) := by
  have hcut := isCut_segments set.topRows
  have hopen := forall₂_filterMap (covers_file set.groups) hcut.isSegment
  have hcovers : List.Forall₂ (Covers set.groups) (ofRows set changes activity)
      (segments set.topRows) :=
    forall₂_close (fun _ _ ↦ Covers.moved) changes activity hopen
  refine ⟨⟨_, hcut, flatten_segments _, hcovers⟩, ?_, prompt_ne_none_of_covers hcut hcovers,
    isChain_close fun t ht ↦ isActive_eq_false_of_mem ht, fun t ht ↦ ?_⟩
  · rw [hcovers.length_eq, length_segments]
  · rw [ofRows, getLast?_close, Option.map_eq_some_iff] at ht
    obtain ⟨u, hu, rfl⟩ := ht
    obtain ⟨piece, -, hpiece⟩ := exists_piece_of_mem hopen (List.mem_of_getLast? hu)
    exact hpiece.isLast_last

/-- **Turns.** The turns of some rows are the one list of turns that is their outline. -/
theorem outlines_iff (set : RowSet) (changes : List ModelChange) (activity : Activity)
    (turns : List Turn) :
    Outlines set changes activity turns ↔ turns = ofRows set changes activity := by
  constructor
  · intro h
    obtain ⟨pieces, hcut, hflatten, hcovers⟩ := h.exists_cut
    rw [ofRows, ← RowSet.topRows, ← hflatten, segments_flatten hcut]
    exact eq_close hcovers h.isChain h.isLast
  · rintro rfl
    exact outlines_ofRows set changes activity

end Turn

end SessionReplay
