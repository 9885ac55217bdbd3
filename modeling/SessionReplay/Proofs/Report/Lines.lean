import Mathlib.Algebra.GroupWithZero.Nat
import Mathlib.Data.List.TakeWhile
import SessionReplay.Proofs.Timeline
import SessionReplay.Report.Basic

/-!
# Lines of a report

A text report ends every entry with a line end, so a row has one line if its entry holds no other
line end. Of a text from the session only the first line is written, `lineEnds_preview`. The names
of agents and tools are written as they are, and a line end in one of them breaks the line of the
row: `laysOutRows_render`, and `not_hasLines_nameOnTwoLines` for an agent with such a name.
-/

namespace SessionReplay.Report

/-! ## Lines -/

/-- What stands before, between and after the line ends of a text. -/
def parts (text : String) : List String := (text.toList.splitOn '\n').map String.ofList

/-- A text is made of lines, each with a line end. -/
def HasLines (text : String) (lines : List String) : Prop := parts text = lines ++ [""]

/-- How many line ends a text holds. -/
def lineEnds (text : String) : Nat := text.toList.count '\n'

variable {text : String} {entries : List String}

theorem lineEnds_eq_zero_iff : lineEnds text = 0 ↔ '\n' ∉ text.toList := List.count_eq_zero

theorem length_parts (text : String) : (parts text).length = lineEnds text + 1 := by
  rw [parts, List.length_map, lineEnds]
  induction text.toList with
  | nil => rfl
  | cons c rest ih =>
    rw [List.splitOn_cons_eq_if_modifyHead, List.count_cons]
    split
    · rw [List.length_cons, ih]
    · rw [List.length_modifyHead, ih, Nat.add_zero]

private theorem parts_of_lineEnds_eq_zero (h : lineEnds text = 0) : parts text = [text] := by
  rw [parts, List.splitOn_eq_singleton (lineEnds_eq_zero_iff.mp h), List.map_singleton,
    String.ofList_toList]

/-- **A page** has the parts of its entries as its lines. -/
theorem parts_page (entries : List String) :
    parts (page entries) = entries.flatMap parts ++ [""] := by
  induction entries with
  | nil => rfl
  | cons e rest ih =>
    have hpage : (page (e :: rest)).toList = e.toList ++ '\n' :: (page rest).toList := by
      rw [page, String.toList_join, page, String.toList_join, List.map_cons, List.flatMap_cons,
        String.toList_append, List.append_assoc]
      rfl
    rw [parts, hpage, List.splitOn_append_cons_self, List.map_append, ← parts, ← parts, ih,
      List.flatMap_cons, List.append_assoc]

theorem hasLines_page_iff {lines : List String} :
    HasLines (page entries) lines ↔ lines = entries.flatMap parts := by
  rw [HasLines, parts_page, List.append_left_inj, eq_comm]

private theorem length_flatMap_parts (entries : List String) :
    (entries.flatMap parts).length = entries.length + (entries.map lineEnds).sum := by
  induction entries with
  | nil => rfl
  | cons e rest ih =>
    rw [List.flatMap_cons, List.length_append, length_parts, ih, List.length_cons, List.map_cons,
      List.sum_cons]
    omega

/-- A page has its entries as its lines if none of them holds a line end. -/
theorem hasLines_page_self_iff :
    HasLines (page entries) entries ↔ ∀ e ∈ entries, lineEnds e = 0 := by
  rw [hasLines_page_iff]
  constructor
  · intro h e he
    have hlength := length_flatMap_parts entries
    rw [← h] at hlength
    have hsum : (entries.map lineEnds).sum = 0 := by omega
    exact List.sum_eq_zero_iff_forall_eq_nat.mp hsum _ (List.mem_map_of_mem he)
  · intro h
    rw [List.flatMap_congr fun e he ↦ parts_of_lineEnds_eq_zero (h e he), List.flatMap_singleton']

/-! ## Rows -/

theorem lineEnds_append (s t : String) : lineEnds (s ++ t) = lineEnds s + lineEnds t := by
  rw [lineEnds, String.toList_append, List.count_append, lineEnds, lineEnds]

private theorem mem_of_mem_trimChars {c : Char} {cs : List Char} (h : c ∈ Text.trimChars cs) :
    c ∈ cs := by
  rw [Text.trimChars, List.mem_reverse] at h
  have h := (List.dropWhile_sublist _).subset h
  exact (List.dropWhile_sublist _).subset (List.mem_reverse.mp h)

/-- What is written of a text from the session stands on one line. -/
theorem lineEnds_preview (limit : Nat) (text : String) : lineEnds (preview limit text) = 0 := by
  have hline : '\n' ∉ Text.trimChars (text.toList.takeWhile (· != '\n')) := fun h ↦ by
    simpa using List.mem_takeWhile_imp (mem_of_mem_trimChars h)
  rw [preview]
  split
  · rw [lineEnds_append, lineEnds, String.toList_ofList,
      List.count_eq_zero.mpr fun h ↦ hline (List.mem_of_mem_take h)]
    rfl
  · rw [lineEnds, String.toList_ofList, List.count_eq_zero.mpr hline]

/-- The names that are written in the label of a row. -/
def writtenNames (r : Row) : List String :=
  match r.body with
  | .prompt _ => []
  | .message .. => [r.agent]
  | .tool t => [r.agent, t.name.getD "?"]
  | .error _ => []

private theorem lineEnds_rowLabel (r : Row) :
    lineEnds (rowLabel r) = ((writtenNames r).map lineEnds).sum := by
  rw [rowLabel, writtenNames]
  cases r.body with
  | prompt text => rw [lineEnds_append, lineEnds_preview]; rfl
  | message content thinking stream isLive =>
    have hlive : lineEnds (if isLive then " (streaming)" else "") = 0 := by cases isLive <;> rfl
    have hcolon : lineEnds ": " = 0 := rfl
    simp only [lineEnds_append, lineEnds_preview, hlive, hcolon, List.map_cons, List.map_nil,
      List.sum_cons, List.sum_nil, Nat.add_zero]
  | tool t =>
    have hdelegates : lineEnds (if t.delegates then " [delegate]" else "") = 0 := by
      cases t.delegates <;> rfl
    have hstate : lineEnds (callState t.result) = 0 := by
      cases t.result with
      | none => rfl
      | some result => cases h : result.isError <;> simp [callState, h] <;> rfl
    simp only [lineEnds_append, hdelegates, hstate, List.map_cons, List.map_nil, List.sum_cons,
      List.sum_nil, Nat.add_zero]
    rfl
  | error text => rw [lineEnds_append, lineEnds_preview]; rfl

theorem lineEnds_rowLine (r : Row) :
    lineEnds (rowLine r) = ((writtenNames r).map lineEnds).sum := by
  have hindent : lineEnds (String.ofList (List.replicate (2 * r.depth) ' ')) = 0 := by
    rw [lineEnds, String.toList_ofList, List.count_replicate]
    rfl
  rw [rowLine, lineEnds_append, hindent, Nat.zero_add, lineEnds_rowLabel]

private theorem forall_lineEnds_rowLine_iff {rows : List Row} :
    (∀ line ∈ rows.map rowLine, lineEnds line = 0) ↔
      ∀ r ∈ rows, ∀ name ∈ writtenNames r, '\n' ∉ name.toList := by
  simp only [List.forall_mem_map, lineEnds_rowLine, List.sum_eq_zero_iff_forall_eq_nat]
  simp only [lineEnds_eq_zero_iff]

/-- How the rows of a view stand on the lines of a report. -/
structure LaysOutRows (v : SessionView) (report : String) : Prop where
  hasLines : HasLines report (v.rows.flatMap fun r ↦ parts (rowLine r))
  /-- A row goes on to a new line at every line end in the names that are written. -/
  length_parts : ∀ r ∈ v.rows,
    (parts (rowLine r)).length = ((writtenNames r).map lineEnds).sum + 1
  linePerRow_iff : HasLines report (v.rows.map rowLine) ↔
    ∀ r ∈ v.rows, ∀ name ∈ writtenNames r, '\n' ∉ name.toList

/-- **Rows in a report** stand on one line each if the names of their agents and tools do. -/
theorem laysOutRows_render (v : SessionView) (now : Instant) :
    LaysOutRows v (render v now .rows .text) where
  hasLines := by
    rw [render, entries, hasLines_page_iff, rowEntries, List.flatMap_map]
  length_parts r _ := by rw [length_parts, lineEnds_rowLine]
  linePerRow_iff := by
    rw [render, entries, rowEntries, hasLines_page_self_iff, forall_lineEnds_rowLine_iff]

/-- A message of an agent with a name on two lines. -/
def nameOnTwoLines : List Event :=
  [⟨1, "s1", some "wor\nker", some 1000, .assistantMessage none "hi" none⟩]

/-- The row of the message stands on two lines. -/
theorem not_hasLines_nameOnTwoLines :
    ¬HasLines (render (SessionView.ofEvents "s1" nameOnTwoLines none default) 1000 .rows .text)
      ((SessionView.ofEvents "s1" nameOnTwoLines none default).rows.map rowLine) := by
  have htimeline : Timeline.ofEvents "s1" nameOnTwoLines default =
      nameOnTwoLines.map fun e ↦ ⟨e, "wor\nker", 1000⟩ := by
    rw [Timeline.ofEvents, Timeline.admitted_eq_self (by decide) (by decide)]
    rfl
  have hrows : (SessionView.ofEvents "s1" nameOnTwoLines none default).rows.map rowLine
      = ["wor\nker: hi"] := by
    rw [SessionView.ofEvents, htimeline]
    rfl
  rw [render, entries, rowEntries, hrows, hasLines_page_self_iff]
  intro h
  exact absurd (h _ List.mem_cons_self) (by decide)

end SessionReplay.Report
