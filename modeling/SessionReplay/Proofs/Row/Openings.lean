import SessionReplay.Proofs.Row.Inventory
import SessionReplay.Proofs.Row.Parts

/-!
# The group that a row opens

Every call that delegates opens a group, and the group says of the call what its row says: who
delegated, when, and how deep the row stands. `RowSet.exists_opens_of_delegates` finds the group of
a row, `RowSet.exists_row_of_group` the row of a group.

The builder tells the tracker of a call in the step that adds its row, and after that neither
changes: a row may get a result and a delegation may be paired or end, but all this stays.
-/

namespace SessionReplay

open Delegation (Evolves)

/-- The row is that of the call which opened the delegation. -/
structure Row.Opens (r : Row) (d : Delegation) : Prop where
  delegates : r.delegates = true
  id_eq : r.id = d.call
  agent_eq : r.agent = d.agent
  time_eq : r.time = d.start
  depth_eq : r.depth = d.depth

theorem Row.Opens.evolves {r r' : Row} {d d' : Delegation} (h : r.Opens d) (hr : r.Evolves r')
    (hd : d.Evolves d') : r'.Opens d' where
  delegates := hr.delegates_eq.symm.trans h.delegates
  id_eq := (hr.id_eq.trans h.id_eq).trans hd.call_eq.symm
  agent_eq := (hr.agent_eq.trans h.agent_eq).trans hd.agent_eq.symm
  time_eq := (hr.time_eq.trans h.time_eq).trans hd.start_eq.symm
  depth_eq := (hr.depth_eq.trans h.depth_eq).trans hd.depth_eq.symm

/-- Every delegation was opened by one of the rows. -/
def Tracker.OpenedBy (t : Tracker) (rows : List Row) : Prop :=
  ∀ call d, t.groups.get? call = some d → ∃ q ∈ rows, q.Opens d

namespace Tracker

variable {t : Tracker} {rows rows' : List Row}

theorem OpenedBy.mono (h : t.OpenedBy rows) (hrows : ∀ q ∈ rows, ∃ q' ∈ rows', q.Evolves q') :
    t.OpenedBy rows' := by
  intro call d hd
  obtain ⟨q, hq, hopens⟩ := h call d hd
  obtain ⟨q', hq', hevolves⟩ := hrows q hq
  exact ⟨q', hq', hopens.evolves hevolves (Evolves.refl d)⟩

/-- Only a call adds a delegation, and there is a row that made the call. -/
theorem OpenedBy.step (h : t.OpenedBy rows) (ht : t.Orderly) {r : Report}
    (hr : ∀ o, r = .opened o → ∃ q ∈ rows, q.Opens o.delegation) : (t.step r).OpenedBy rows := by
  intro call d hd
  obtain ⟨d₀, hd₀, hevolves⟩ := (ht.step r).2.exists_of_get?_eq_some hd
  have hold : ∃ q ∈ rows, q.Opens d₀ := by
    cases r with
    | opened o =>
      rw [entered, Table.get?_insertNew] at hd₀
      split at hd₀
      · rcases Option.or_eq_some_iff.mp hd₀ with hd₀ | ⟨-, hd₀⟩
        · exact h _ d₀ hd₀
        · exact Option.some.inj hd₀ ▸ hr o rfl
      · exact h call d₀ hd₀
    | _ => exact h call d₀ hd₀
  obtain ⟨q, hq, hopens⟩ := hold
  exact ⟨q, hq, hopens.evolves (Row.Evolves.refl q) hevolves⟩

end Tracker

namespace RowBuilder

variable {b : RowBuilder}

/-- What holds of rows and delegations at all times: each delegation was opened by a row. -/
structure OpenedByRows (b : RowBuilder) : Prop where
  orderly : b.tracker.Orderly
  openedBy : b.tracker.OpenedBy b.rows

/-- The tracker is told of a call in the step that adds the row of the call. -/
theorem exists_opens_of_report? {i : Item} {o : Opening} (h : b.report? i = some (.opened o)) :
    ∃ q ∈ (b.step i).rows, q.Opens o.delegation := by
  cases reports_of_report? h with
  | @opened e call name arguments he hnew hdelegates =>
    have hplace : b.place (.event e) = (b.toolPlace? e.agent).getD .top := by rw [place, he]
    rw [step, event, he]
    dsimp only
    rw [toolStart, hnew]
    exact ⟨_, List.mem_cons_self, hdelegates, rfl, rfl, rfl, hplace ▸ rfl⟩

/-- **One thing of a transcript.** -/
theorem OpenedByRows.step (h : b.OpenedByRows) (i : Item) : (b.step i).OpenedByRows := by
  have hrows : ∀ q ∈ b.rows, ∃ q' ∈ (b.step i).rows, q.Evolves q' := by
    intro q hq
    obtain ⟨q', hq', hevolves⟩ := (b.grows_step i).exists_of_mem (List.mem_reverse.mpr hq)
    exact ⟨q', List.mem_reverse.mp hq', hevolves⟩
  have hold := h.openedBy.mono hrows
  refine ⟨b.orderly_step h.orderly i, ?_⟩
  rw [tracker_step_eq]
  cases hreport : b.report? i with
  | none => exact hold
  | some r => exact hold.step h.orderly fun o ho ↦ exists_opens_of_report? (ho ▸ hreport)

/-- **Any number of things.** -/
theorem openedByRows_foldl_step (session : String) (options : Options) (items : List Item) :
    (items.foldl step (.start session options)).OpenedByRows := by
  induction items using List.reverseRecOn with
  | nil => exact ⟨Tracker.orderly_empty, fun call d hd ↦ by cases hd⟩
  | append_singleton before i ih =>
    rw [List.foldl_concat]
    exact ih.step i

end RowBuilder

namespace RowSet

variable {session : String} {options : Options} {items : List Item}

/-- **Groups.** A group was opened by a row. -/
theorem exists_row_of_group {call : String} {g : Group}
    (hg : (ofTranscript session options items).groups.get? call = some g) :
    g.call = call ∧ ∃ q ∈ (ofTranscript session options items).rows, q.Opens g.toDelegation := by
  refine ⟨((inventory_ofTranscript session options items).rows_eq call g hg).1, ?_⟩
  rw [ofTranscript, RowBuilder.get?_groups_finish] at hg
  obtain ⟨d, hd, rfl⟩ := Option.map_eq_some_iff.mp hg
  obtain ⟨q, hq, hopens⟩ :=
    (RowBuilder.openedByRows_foldl_step session options items).openedBy call d hd
  exact ⟨q, List.mem_reverse.mpr hq, hopens⟩

/-- No two rows that delegate have one identifier. -/
theorem eq_of_delegates {q r : Row} (hq : q ∈ (ofTranscript session options items).rows)
    (hr : r ∈ (ofTranscript session options items).rows) (hqdelegates : q.delegates = true)
    (hrdelegates : r.delegates = true) (hid : q.id = r.id) : q = r := by
  have hkeys := (inventory_ofTranscript session options items).perm_keys
  have hnodup := hkeys.nodup_iff.mp (Table.nodup_keys _)
  exact List.inj_on_of_nodup_map hnodup (List.mem_filter.mpr ⟨hq, hqdelegates⟩)
    (List.mem_filter.mpr ⟨hr, hrdelegates⟩) hid

/-- **Rows.** A row that delegates opened a group, the one of its own identifier. -/
theorem exists_opens_of_delegates {r : Row} (hr : r ∈ (ofTranscript session options items).rows)
    (hdelegates : r.delegates = true) :
    ∃ g, (ofTranscript session options items).groups.get? r.id = some g ∧
      r.Opens g.toDelegation := by
  have hkeys := (inventory_ofTranscript session options items).perm_keys
  have hkey := List.mem_map_of_mem (f := Row.id) (List.mem_filter.mpr ⟨hr, hdelegates⟩)
  obtain ⟨g, hg⟩ := Table.contains_iff.mp (Table.mem_keys_iff.mp (hkeys.mem_iff.mpr hkey))
  obtain ⟨hcall, q, hq, hopens⟩ := exists_row_of_group hg
  obtain rfl : q = r :=
    eq_of_delegates hq hr hopens.delegates hdelegates (hopens.id_eq.trans hcall)
  exact ⟨g, hg, hopens⟩

end RowSet

end SessionReplay
