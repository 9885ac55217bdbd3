import SessionReplay.Proofs.Turn.Outline

/-!
# Turns in one pass

`Turn.ofRows` first cuts the rows at the top and then closes the turns of the pieces. The turns of a
session can also be put together as its rows go by: one turn is open at a time and takes every row
until a prompt ends it and opens the next one. When a turn ends, the time at which the next one
starts is set aside, and once all rows are in, each turn gets its model by that time. Both ways lead
to the same turns: `Turn.assemble_eq_ofRows`.

## The open turn

The open turn is at every moment the file of the rows that it took, `Turn.add_file`, and these rows
are a segment. So the rows that are left continue the segment up to the next prompt, and there the
cut is made: `segments_append`.
-/

namespace SessionReplay

namespace Turn

/-! ## One row more -/

/-- A turn that opens with a row, before the row is filed. -/
def opened (r : Row) : Turn where
  id := r.id
  prompt := none
  messages := []
  toolCalls := []
  delegations := []
  errors := []
  agent := none
  start := r.time
  stop := none
  isActive := false
  errored := false
  model := none

/-- A turn with one more row, filed by its kind. A prompt is no further row of a turn. -/
def add (groups : Table Group) (t : Turn) (r : Row) : Turn :=
  match r.body with
  | .prompt _ => t
  | .message .. => { t with messages := t.messages ++ [r], agent := t.agent.or (some r.agent) }
  | .tool call =>
    { t with
      toolCalls := t.toolCalls ++ [r]
      delegations := t.delegations ++ if call.delegates then (groups.get? r.id).toList else [] }
  | .error _ => { t with errors := t.errors ++ [r], errored := true }

variable {groups : Table Group} {changes : List ModelChange} {activity : Activity}

private theorem file_append (groups : Table Group) (id : String) (start : Instant)
    (rows more : List Row) :
    file groups id start (rows ++ more) =
      { file groups id start rows with
        prompt := (rows.find? Row.isPrompt).or (more.find? Row.isPrompt)
        messages := rows.filter Row.isMessage ++ more.filter Row.isMessage
        toolCalls := rows.filter Row.isTool ++ more.filter Row.isTool
        delegations := delegationsOf groups rows ++ delegationsOf groups more
        errors := rows.filter Row.isError ++ more.filter Row.isError
        agent := ((rows.find? Row.isMessage).or (more.find? Row.isMessage)).map Row.agent
        errored := rows.any Row.isError || more.any Row.isError } := by
  simp only [file, delegationsOf, List.find?_append, List.filter_append, List.filterMap_append,
    List.any_append]

theorem delegationsOf_singleton (groups : Table Group) (r : Row) :
    delegationsOf groups [r] = if r.delegates = true then (groups.get? r.id).toList else [] := by
  rw [delegationsOf]
  split
  · next hr =>
    rw [List.filter_cons_of_pos hr, List.filter_nil, List.filterMap_cons]
    cases groups.get? r.id <;> rfl
  · next hr => rw [List.filter_cons_of_neg hr, List.filter_nil, List.filterMap_nil]

/-- **One row more.** The file of some rows, with one row more, is the file of them all. -/
theorem add_file (id : String) (start : Instant) (rows : List Row) {r : Row}
    (hr : r.isPrompt = false) :
    (file groups id start rows).add groups r = file groups id start (rows ++ [r]) := by
  rw [file_append, delegationsOf_singleton]
  cases hbody : r.body
  case prompt text =>
    rw [Row.isPrompt, hbody] at hr
    cases hr
  -- the row goes into the list for its kind and into no other
  all_goals
    simp [add, file, Row.isPrompt, Row.isMessage, Row.isTool, Row.isError, Row.delegates, Row.tool?,
      hbody]

/-- A turn that opens with a prompt is the file of it. -/
theorem file_prompt {r : Row} (hr : r.isPrompt = true) :
    { opened r with prompt := some r } = file groups r.id r.time [r] := by
  cases hbody : r.body
  case prompt text =>
    simp [opened, file, delegationsOf_singleton, Row.isPrompt, Row.isMessage, Row.isTool,
      Row.isError, Row.delegates, Row.tool?, hbody]
  all_goals
    rw [Row.isPrompt, hbody] at hr
    cases hr

/-! ## All rows -/

/-- A turn with its model, if the next one starts at a given time. -/
def withModel (changes : List ModelChange) (t : Turn) (next : Option Instant) : Turn :=
  { t with model := ModelChange.effective? changes t.start next }

/-- The turn of a segment is closed by the first of the rows that follow. -/
theorem close_segments_cons (q : Row) (rest : List Row) (r : Row) (rows : List Row) :
    close changes activity (((q :: rest) :: segments (r :: rows)).filterMap (ofSegment? groups)) =
      withModel changes ((file groups q.id q.time (q :: rest)).endAt r.time) (some r.time) ::
        close changes activity ((segments (r :: rows)).filterMap (ofSegment? groups)) := by
  obtain ⟨rest', ss, hnext⟩ := exists_segments_cons r rows
  rw [hnext]
  rfl

/-- The turns that some rows have led to so far. -/
structure Assembly where
  /-- The turns that have ended. -/
  ended : List Turn
  /-- For each of them, when the next one starts. -/
  bounds : List (Option Instant)
  /-- The turn that is open. -/
  current : Option Turn

namespace Assembly

/-- One more row. A prompt ends the open turn and opens another one. Any other row goes into the
open turn, or opens one if there is none. -/
def step (groups : Table Group) (s : Assembly) (r : Row) : Assembly :=
  if r.isPrompt then
    let begun := some { opened r with prompt := some r }
    match s.current with
    | some t =>
      ⟨s.ended ++ [{ t with stop := t.stop.or (some r.time) }], s.bounds ++ [some r.time], begun⟩
    | none => { s with current := begun }
  else { s with current := some ((s.current.getD (opened r)).add groups r) }

/-- No row is left: the open turn is the last one. -/
def settle (activity : Activity) (s : Assembly) : Assembly :=
  match s.current with
  | some t => ⟨s.ended ++ [t.last activity], s.bounds ++ [none], none⟩
  | none => s

/-- The turns that have ended, each with its model. -/
def turns (changes : List ModelChange) (s : Assembly) : List Turn :=
  List.zipWith (withModel changes) s.ended s.bounds

variable {ended : List Turn} {bounds : List (Option Instant)} {r : Row}

/-- The first row opens a segment, whatever it is. -/
theorem step_none (groups : Table Group) (ended : List Turn) (bounds : List (Option Instant))
    (r : Row) : step groups ⟨ended, bounds, none⟩ r =
      ⟨ended, bounds, some (file groups r.id r.time [r])⟩ := by
  rw [step]
  split
  · next hr => rw [← file_prompt hr]
  · next hr =>
    have hopened : opened r = file groups r.id r.time [] := rfl
    rw [Option.getD_none, hopened, add_file _ _ _ (Bool.eq_false_iff.mpr hr), List.nil_append]

/-- A row that is no prompt continues the segment that is open. -/
theorem step_row (id : String) (start : Instant) (segment : List Row) (hr : r.isPrompt = false) :
    step groups ⟨ended, bounds, some (file groups id start segment)⟩ r =
      ⟨ended, bounds, some (file groups id start (segment ++ [r]))⟩ := by
  rw [step, if_neg (Bool.eq_false_iff.mp hr), Option.getD_some, add_file id start segment hr]

/-- A prompt ends the segment that is open. -/
theorem step_prompt (id : String) (start : Instant) (segment : List Row) (hr : r.isPrompt = true) :
    step groups ⟨ended, bounds, some (file groups id start segment)⟩ r =
      ⟨ended ++ [(file groups id start segment).endAt r.time], bounds ++ [some r.time],
        some (file groups r.id r.time [r])⟩ := by
  rw [step, if_pos hr, ← file_prompt hr]
  rfl

theorem turns_concat (h : ended.length = bounds.length) (t : Turn) (bound : Option Instant)
    (current current' : Option Turn) :
    turns changes ⟨ended ++ [t], bounds ++ [bound], current⟩ =
      turns changes ⟨ended, bounds, current'⟩ ++ [withModel changes t bound] :=
  List.zipWith_append h

/-- From an open segment on, the pass adds the turns of the segment and of the rows that follow. -/
theorem turns_settle_foldl_step (q : Row) {rest : List Row} (hrest : ∀ x ∈ rest, x.isPrompt = false)
    (h : ended.length = bounds.length) (rows : List Row) :
    turns changes (settle activity (rows.foldl (step groups)
        ⟨ended, bounds, some (file groups q.id q.time (q :: rest))⟩)) =
      turns changes ⟨ended, bounds, none⟩ ++ close changes activity
        ((segments (q :: rest ++ rows)).filterMap (ofSegment? groups)) := by
  induction rows generalizing q rest ended bounds with
  | nil =>
    have hcut : segments (q :: rest ++ []) = [q :: rest] :=
      segments_append ⟨q, rest, rfl, hrest⟩ (by rintro r ⟨⟩)
    rw [hcut]
    exact turns_concat h _ none _ _
  | cons r rows ih =>
    rw [List.foldl_cons]
    by_cases hr : r.isPrompt = true
    · -- the prompt ends the segment, and the rest is cut on its own
      have hcut : segments (q :: rest ++ r :: rows) = (q :: rest) :: segments (r :: rows) :=
        segments_append ⟨q, rest, rfl, hrest⟩ (by rintro x ⟨⟩; exact hr)
      have hlength : (ended ++ [(file groups q.id q.time (q :: rest)).endAt r.time]).length =
          (bounds ++ [some r.time]).length := by
        rw [List.length_append, List.length_append, h, List.length_singleton, List.length_singleton]
      rw [step_prompt _ _ _ hr, ih r (List.forall_mem_nil _) hlength, turns_concat h _ _ _ none,
        hcut, close_segments_cons, List.append_assoc, List.singleton_append, List.singleton_append]
    · have hr := Bool.eq_false_iff.mpr hr
      have hrest' : ∀ x ∈ rest ++ [r], x.isPrompt = false :=
        List.forall_mem_append.mpr ⟨hrest, List.forall_mem_singleton.mpr hr⟩
      rw [step_row _ _ _ hr, List.cons_append, ih q hrest' h, List.cons_append, List.append_assoc,
        List.singleton_append, List.cons_append]

end Assembly

/-- The turns of some rows, put together in one pass. -/
def assemble (groups : Table Group) (changes : List ModelChange) (activity : Activity)
    (rows : List Row) : List Turn :=
  ((rows.foldl (Assembly.step groups) ⟨[], [], none⟩).settle activity).turns changes

/-- **One pass.** The pass over the rows at the top leads to the turns of the session. -/
theorem assemble_eq_ofRows (set : RowSet) (changes : List ModelChange) (activity : Activity) :
    assemble set.groups changes activity set.topRows = ofRows set changes activity := by
  rw [assemble, ofRows, ← RowSet.topRows]
  cases set.topRows with
  | nil => rfl
  | cons r rows =>
    rw [List.foldl_cons, Assembly.step_none,
      Assembly.turns_settle_foldl_step r (List.forall_mem_nil _) rfl]
    rfl

end Turn

end SessionReplay
