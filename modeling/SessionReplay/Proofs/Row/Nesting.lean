import SessionReplay.Proofs.Row.Growth

/-!
# Rows are nested

A row that has a parent stands one level below an earlier row of that name, and a row without a
parent stands at the top: `RowSet.nested_ofTranscript`. The one exception is the end of a tool call
whose start was not seen and for which no place was found.

## Two books

The depth of a row comes from two books that are kept apart: the rows themselves, for a tool call
under a message, and the tracker, for what stands under the call of a delegation. The tracker notes
the depth of a call when the call is made and never looks at a row again. So the invariant
`RowBuilder.Nested` says, besides that the rows so far are nested, that every delegation in the
tracker has a row with its call as name and with the depth that the tracker has noted.
-/

namespace SessionReplay

open Delegation (Evolves)

/-! ## Rows -/

/-- The row is the end of a tool call whose start was not seen. -/
def Row.IsOrphan (r : Row) : Prop :=
  ∃ t result, r.body = .tool t ∧ t.arguments = none ∧ t.result = some result

/-- A row fits the rows before it: its parent is one of them and one level higher, or it has no
parent and stands at the top. An orphan may stand one level lower. -/
def Row.Fits (before : List Row) (r : Row) : Prop :=
  match r.parent with
  | some p => ∃ q ∈ before, q.id = p ∧ r.depth = q.depth + 1
  | none => r.depth = 0 ∨ r.depth = 1 ∧ r.IsOrphan

/-- Every row fits the rows before it. -/
def Nested (rows : List Row) : Prop :=
  ∀ before r after, rows = before ++ r :: after → r.Fits before

theorem Row.Fits.mono {rows rows' : List Row} {r : Row} (h : r.Fits rows) (hrows : rows ⊆ rows') :
    r.Fits rows' := by
  rw [Row.Fits] at h ⊢
  split
  · next p hp =>
    rw [hp] at h
    obtain ⟨q, hq, hfits⟩ := h
    exact ⟨q, hrows hq, hfits⟩
  · next hp =>
    rw [hp] at h
    exact h

theorem nested_nil : Nested [] := fun before r after h ↦ by
  cases before <;> cases h

theorem Nested.concat {rows : List Row} (h : Nested rows) {r : Row} (hr : r.Fits rows) :
    Nested (rows ++ [r]) :=
  forall_split_concat_iff.mpr ⟨h, hr⟩

/-- No place depends on the result of a tool call. -/
theorem Nested.map {rows : List Row} (h : Nested rows) {f : Row → Row}
    (hf : ∀ r : Row, r.Evolves (f r)) (horphan : ∀ r : Row, r.IsOrphan → (f r).IsOrphan) :
    Nested (rows.map f) := by
  intro before x after heq
  obtain ⟨before₀, rest, rfl, rfl, hrest⟩ := List.map_eq_append_iff.mp heq
  obtain ⟨x₀, after₀, rfl, rfl, -⟩ := List.map_eq_cons_iff.mp hrest
  have hx := h before₀ x₀ after₀ rfl
  rw [Row.Fits] at hx ⊢
  rw [(hf x₀).parent_eq, (hf x₀).depth_eq]
  split
  · next p hp =>
    rw [hp] at hx
    obtain ⟨q, hq, hqid, hqdepth⟩ := hx
    exact ⟨f q, List.mem_map_of_mem hq, (hf q).id_eq.trans hqid, by rw [(hf q).depth_eq, hqdepth]⟩
  · next hp =>
    rw [hp] at hx
    exact hx.imp_right fun ⟨hone, hr⟩ ↦ ⟨hone, horphan _ hr⟩

theorem Row.IsOrphan.withResult {r : Row} (h : r.IsOrphan) (result : ToolResult) :
    (r.withResult result).IsOrphan := by
  obtain ⟨t, _, hbody, harguments, -⟩ := h
  rw [Row.withResult, hbody]
  exact ⟨{ t with result := some result }, result, rfl, harguments, rfl⟩

/-! ## Delegations -/

namespace Tracker

variable {t : Tracker} {rows rows' : List Row}

/-- Every delegation has a row with its call as name and with the depth that is noted of it. -/
def ShownIn (t : Tracker) (rows : List Row) : Prop :=
  ∀ call d, t.groups.get? call = some d → ∃ q ∈ rows, q.id = d.call ∧ q.depth = d.depth

theorem ShownIn.mono (h : t.ShownIn rows)
    (hrows : ∀ q ∈ rows, ∃ q' ∈ rows', q'.id = q.id ∧ q'.depth = q.depth) : t.ShownIn rows' := by
  intro call d hd
  obtain ⟨q, hq, hqid, hqdepth⟩ := h call d hd
  obtain ⟨q', hq', hid, hdepth⟩ := hrows q hq
  exact ⟨q', hq', hid.trans hqid, hdepth.trans hqdepth⟩

theorem ShownIn.cons (h : t.ShownIn rows) (r : Row) : t.ShownIn (r :: rows) :=
  h.mono fun q hq ↦ ⟨q, List.mem_cons_of_mem r hq, rfl, rfl⟩

/-- A report changes no depth, and only a call adds a delegation. -/
theorem ShownIn.step (h : t.ShownIn rows) (ht : t.Orderly) {r : Report}
    (hr : ∀ o, r = .opened o → ∃ q ∈ rows, q.id = o.call ∧ q.depth = o.depth) :
    (t.step r).ShownIn rows := by
  intro call d hd
  obtain ⟨d₀, hd₀, hevolves⟩ := (ht.step r).2.exists_of_get?_eq_some hd
  rw [hevolves.call_eq, hevolves.depth_eq]
  cases r with
  | opened o =>
    rw [entered, Table.get?_insertNew] at hd₀
    split at hd₀
    · rcases Option.or_eq_some_iff.mp hd₀ with hd₀ | ⟨-, hd₀⟩
      · exact h _ d₀ hd₀
      · rw [← Option.some.inj hd₀]
        exact hr o rfl
    · exact h call d₀ hd₀
  | _ => exact h call d₀ hd₀

theorem exists_of_innermost? {agent : String} {d : Delegation} (h : t.innermost? agent = some d) :
    ∃ call, t.groups.get? call = some d := by
  obtain ⟨call, -, hd⟩ := Option.bind_eq_some_iff.mp h
  exact ⟨call, hd⟩

theorem exists_of_route? {agent : String} {d : Delegation} (h : t.route? agent = some d) :
    ∃ call, t.groups.get? call = some d := by
  obtain ⟨r, -, hd⟩ := Option.bind_eq_some_iff.mp (Option.eq_some_of_filter_eq_some h)
  exact ⟨r.group, hd⟩

end Tracker

/-! ## Places -/

/-- A place fits some rows: it is one level below one of them, or at the top. -/
def Placement.Fits (rows : List Row) (p : Placement) : Prop :=
  match p.parent with
  | some id => ∃ q ∈ rows, q.id = id ∧ p.depth = q.depth + 1
  | none => p.depth = 0

namespace RowBuilder

/-- What holds of a builder at all times. -/
structure Nested (b : RowBuilder) : Prop where
  rows : SessionReplay.Nested b.rows.reverse
  orderly : b.tracker.Orderly
  shown : b.tracker.ShownIn b.rows

variable {b : RowBuilder}

theorem fits_top (rows : List Row) : Placement.top.Fits rows := rfl

theorem Nested.fits_under (h : b.Nested) {call : String} {d : Delegation}
    (hd : b.tracker.groups.get? call = some d) (group : Option String) :
    (Placement.under d group).Fits b.rows := by
  obtain ⟨q, hq, hqid, hqdepth⟩ := h.shown call d hd
  exact ⟨q, hq, hqid, congrArg (· + 1) hqdepth.symm⟩

theorem Nested.fits_messagePlace (h : b.Nested) (agent : String) :
    (b.messagePlace agent).Fits b.rows := by
  rw [messagePlace]
  split
  · next d hd =>
    obtain ⟨call, hd⟩ := Tracker.exists_of_route? hd
    exact h.fits_under hd _
  · exact fits_top b.rows

theorem Nested.fits_anchor? (h : b.Nested) {agent : String} {p : Placement}
    (hp : b.anchor? agent = some p) : p.Fits b.rows := by
  rw [anchor?] at hp
  split at hp
  · next r hr =>
    rw [← Option.some.inj hp]
    have hmem : r ∈ b.rows := List.mem_of_find?_eq_some (Option.eq_some_of_filter_eq_some hr)
    exact ⟨r, hmem, rfl, rfl⟩
  · obtain ⟨d, hd, rfl⟩ := Option.map_eq_some_iff.mp hp
    obtain ⟨call, hd⟩ := Tracker.exists_of_route? hd
    exact h.fits_under hd _

theorem Nested.fits_toolPlace? (h : b.Nested) {agent : String} {p : Placement}
    (hp : b.toolPlace? agent = some p) : p.Fits b.rows := by
  rw [toolPlace?] at hp
  split at hp
  · next d hd =>
    rw [← Option.some.inj hp]
    obtain ⟨call, hd⟩ := Tracker.exists_of_innermost? hd
    exact h.fits_under hd _
  · exact h.fits_anchor? hp

theorem Nested.fits_getD_toolPlace? (h : b.Nested) (agent : String) :
    ((b.toolPlace? agent).getD .top).Fits b.rows := by
  cases hp : b.toolPlace? agent with
  | none => exact fits_top b.rows
  | some p => exact h.fits_toolPlace? hp

theorem fits_row {p : Placement} (hp : p.Fits b.rows) (id agent : String) (sequence : UInt64)
    (time : Instant) (body : Row.Body) : (b.row id agent sequence time p body).Fits b.rows := by
  rw [Placement.Fits] at hp
  rw [Row.Fits, row]
  dsimp only
  split
  · next id hid =>
    rw [hid] at hp
    exact hp
  · next hnone =>
    rw [hnone] at hp
    exact Or.inl hp

/-! ## Steps and runs -/

theorem Nested.add (h : b.Nested) {r : Row} (hr : r.Fits b.rows) : (b.add r).Nested where
  rows := by
    rw [RowBuilder.add, List.reverse_cons]
    exact h.rows.concat (hr.mono fun q hq ↦ List.mem_reverse.mpr hq)
  orderly := h.orderly
  shown := h.shown.cons r

theorem Nested.report (h : b.Nested) {r : Tracker.Report}
    (hr : ∀ o, r = .opened o → ∃ q ∈ b.rows, q.id = o.call ∧ q.depth = o.depth) :
    (b.report r).Nested :=
  ⟨h.rows, (h.orderly.step r).1, h.shown.step h.orderly hr⟩

theorem Nested.toolStart (h : b.Nested) (e : Entry) (call name : String) (arguments : Json) :
    (b.toolStart e call name arguments).Nested := by
  rw [RowBuilder.toolStart]
  split
  · exact h
  · have hadd := h.add (fits_row (h.fits_getD_toolPlace? e.agent) call e.agent e.sequence e.time
      (.tool ⟨call, some name, some arguments, b.options.isDelegationTool name, none⟩))
    dsimp only
    split
    · -- the tracker notes the depth of the row that was just added
      refine hadd.report (r := .opened _) fun o ho ↦ ⟨_, List.mem_cons_self, ?_⟩
      cases ho
      exact ⟨rfl, rfl⟩
    · exact hadd

theorem Nested.orphanEnd (h : b.Nested) (e : Entry) (call : String) (name : Option String)
    (result : ToolResult) : (b.orphanEnd e call name result).Nested := by
  rw [RowBuilder.orphanEnd]
  refine h.add ?_
  cases hp : b.anchor? e.agent with
  | some p => exact fits_row (h.fits_anchor? hp) ..
  | none => exact Or.inr ⟨rfl, _, result, rfl, rfl, rfl⟩

theorem Nested.toolEnd (h : b.Nested) (e : Entry) (call : String) (name : Option String)
    (result : ToolResult) : (b.toolEnd e call name result).Nested := by
  rw [RowBuilder.toolEnd]
  split
  · exact h.orphanEnd e call name result
  · next r _ =>
    have hevolves : ∀ r : Row, r.Evolves (if r.isCall call then r.withResult result else r) := by
      intro r
      split
      · exact r.evolves_withResult result
      · exact Row.Evolves.refl r
    -- the rows first: a result moves no row, so the tracker still fits them
    have hrows : RowBuilder.Nested
        { b with rows := b.rows.map fun r ↦ if r.isCall call then r.withResult result else r } := by
      refine ⟨?_, h.orderly, h.shown.mono fun q hq ↦ ?_⟩
      · rw [← List.map_reverse]
        refine h.rows.map hevolves fun r hr ↦ ?_
        split
        · exact hr.withResult result
        · exact hr
      · exact ⟨_, List.mem_map_of_mem hq, (hevolves q).id_eq, (hevolves q).depth_eq⟩
    split
    · next status _ _ =>
      exact hrows.report (r := .finishGroup call ⟨status, e.time, none⟩) fun o ho ↦ by cases ho
    · exact hrows

/-- **One thing of a transcript** keeps the rows nested. -/
theorem Nested.step (h : b.Nested) (i : Item) : (b.step i).Nested := by
  cases i with
  | message m => exact h.add (fits_row (h.fits_messagePlace m.agent) ..)
  | event e =>
    rw [RowBuilder.step, event]
    split
    · exact h.add (fits_row (fits_top b.rows) ..)
    · exact h.add (fits_row (fits_top b.rows) ..)
    · exact h.toolStart ..
    · exact h.toolEnd ..
    · exact h.report fun o ho ↦ by cases ho
    · exact h.report fun o ho ↦ by cases ho
    · exact h.report fun o ho ↦ by cases ho
    · exact h.report fun o ho ↦ by cases ho
    · exact h

theorem nested_start (session : String) (options : Options) : (start session options).Nested where
  rows := nested_nil
  orderly := Tracker.orderly_empty
  shown call d hd := by cases hd

theorem Nested.foldl_step (h : b.Nested) (items : List Item) :
    (items.foldl RowBuilder.step b).Nested := by
  induction items generalizing b with
  | nil => exact h
  | cons i rest ih => exact ih (h.step i)

end RowBuilder

/-- **Nesting.** Every row of a transcript fits the rows before it. -/
theorem RowSet.nested_ofTranscript (session : String) (options : Options) (items : List Item) :
    Nested (ofTranscript session options items).rows :=
  ((RowBuilder.nested_start session options).foldl_step items).rows

end SessionReplay
