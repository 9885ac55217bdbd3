import Mathlib.Data.List.Induction
import Mathlib.Data.List.Nodup
import SessionReplay.Proofs.Row.Nesting
import SessionReplay.Proofs.Row.Step
import SessionReplay.View

/-!
# What rows and groups there are

Rows come out in the order of their numbers. Every group that a row names is there, it holds the
rows that name it, and there is one for each tool call that delegates.

## Why a tool call has one row

A group is found by the identifier of its call, so there is one group for each call that delegates
only if no call has two rows. The builder looks a call up before it adds a row for it, and it is
this look-up that `RowBuilder.Inventory` carries along: a call that is not found is none of the
calls on display, `RowBuilder.call?_eq_none_iff`.
-/

namespace SessionReplay

namespace Tracker

variable {t : Tracker} {call : String}

/-- A report enters the delegation of its call and no other. -/
theorem Orderly.contains_step_iff (h : t.Orderly) (r : Report) :
    (t.step r).groups.contains call = true ↔
      t.groups.contains call = true ∨ r.call? = some call := by
  rw [(h.step r).2.contains_eq]
  cases r with
  | opened o =>
    rw [entered, Table.contains_insertNew_iff, Report.call?, Option.some_inj, eq_comm (a := call)]
  | _ => exact (or_iff_left fun h ↦ by cases h).symm

theorem Orderly.contains_call (h : t.Orderly) {d : Delegation} (hd : t.groups.get? call = some d) :
    t.groups.contains d.call = true := by
  rw [h.call_eq call d hd]
  exact Table.contains_iff.mpr ⟨d, hd⟩

theorem Orderly.contains_route? (h : t.Orderly) {agent : String} {d : Delegation}
    (hd : t.route? agent = some d) : t.groups.contains d.call = true := by
  obtain ⟨call, hgroup⟩ := exists_of_route? hd
  exact h.contains_call hgroup

theorem Orderly.contains_innermost? (h : t.Orderly) {agent : String} {d : Delegation}
    (hd : t.innermost? agent = some d) : t.groups.contains d.call = true := by
  obtain ⟨call, hgroup⟩ := exists_of_innermost? hd
  exact h.contains_call hgroup

end Tracker

namespace RowBuilder

variable {b : RowBuilder} {i : Item} {r : Row}

/-! ## The order of the rows -/

/-- The numbers of the rows, in order. -/
def sequences (b : RowBuilder) : List UInt64 := b.rows.reverse.map Row.sequence

private theorem sequences_answer (b : RowBuilder) (call : String) (result : ToolResult) :
    (b.answer call result).sequences = b.sequences := by
  obtain ⟨f, hf, hrows⟩ := b.exists_rows_answer call result
  rw [sequences, hrows, ← List.map_reverse, List.map_map, sequences]
  exact List.map_congr_left fun r _ ↦ (hf r).sequence_eq

/-- **One thing of a transcript** adds its own number at the end, or none. -/
theorem exists_sequences_step (b : RowBuilder) (i : Item) :
    ∃ new, new.Sublist [i.sequence] ∧ (b.step i).sequences = b.sequences ++ new := by
  have hadded : ∀ {r}, b.Fresh i r → (b.add r).sequences = b.sequences ++ [i.sequence] := by
    intro r hr
    rw [sequences, add, List.reverse_cons, List.map_append, List.map_singleton, hr.sequence_eq,
      sequences]
  have hsame : ∀ {c : RowBuilder}, c.sequences = b.sequences →
      ∃ new, new.Sublist [i.sequence] ∧ c.sequences = b.sequences ++ new :=
    fun hc ↦ ⟨[], List.nil_sublist _, by rw [hc, List.append_nil]⟩
  have heffect := b.effect_step i
  generalize b.step i = c at heffect ⊢
  cases heffect with
  | add hr _ => exact ⟨[i.sequence], List.Sublist.refl _, hadded hr⟩
  | delegate hr _ _ => exact ⟨[i.sequence], List.Sublist.refl _, hadded hr⟩
  | answer call result => exact hsame (b.sequences_answer call result)
  | close call result _ => exact hsame (b.sequences_answer call result)
  | report _ => exact hsame rfl
  | ignore => exact hsame rfl

/-- **Any number of things.** -/
theorem sequences_foldl_step_sublist (session : String) (options : Options) (items : List Item) :
    (items.foldl step (.start session options)).sequences.Sublist
      (items.map Item.sequence) := by
  induction items using List.reverseRecOn with
  | nil => exact List.Sublist.refl _
  | append_singleton before i ih =>
    obtain ⟨new, hnew, hstep⟩ :=
      exists_sequences_step (before.foldl step (.start session options)) i
    rw [List.foldl_concat, hstep, List.map_append, List.map_singleton]
    exact ih.append hnew

/-! ## The invariant -/

/-- What holds of rows and delegations at all times. -/
structure Inventory (b : RowBuilder) : Prop where
  orderly : b.tracker.Orderly
  /-- A row is named for its call, or for the event it was made from. -/
  id_eq : ∀ r ∈ b.rows, ∃ n, r.id = r.call?.getD (rowId b.session n)
  /-- No call has two rows. -/
  nodup_calls : (b.rows.filterMap Row.call?).Nodup
  /-- There is a delegation for each row that delegates. -/
  contains_iff : ∀ call, b.tracker.groups.contains call = true ↔
    call ∈ (b.rows.filter Row.delegates).map Row.id
  /-- A row lies in the group of a delegation only. -/
  contains_group : ∀ r ∈ b.rows, ∀ group, r.group = some group →
    b.tracker.groups.contains group = true

theorem inventory_start (session : String) (options : Options) :
    (start session options).Inventory where
  orderly := Tracker.orderly_empty
  id_eq _ h := by cases h
  nodup_calls := List.nodup_nil
  contains_iff call := iff_of_false Bool.false_ne_true List.not_mem_nil
  contains_group _ h := by cases h

theorem Fresh.nodup_calls (hr : b.Fresh i r) (h : (b.rows.filterMap Row.call?).Nodup) :
    ((r :: b.rows).filterMap Row.call?).Nodup := by
  cases hcall : r.call? with
  | none => rwa [List.filterMap_cons_none hcall]
  | some call =>
    rw [List.filterMap_cons_some hcall, List.nodup_cons]
    refine ⟨fun hmem ↦ ?_, h⟩
    obtain ⟨q, hq, hqcall⟩ := List.mem_filterMap.mp hmem
    exact call?_eq_none_iff.mp (hr.call_new call hcall) q hq hqcall

theorem Fresh.contains_group (hr : b.Fresh i r) (h : b.tracker.Orderly) {group : String}
    (hgroup : r.group = some group) : b.tracker.groups.contains group = true := by
  obtain ⟨d, hd, rfl⟩ := hr.exists_route? hgroup
  exact h.contains_route? hd

/-- A row that does not delegate. -/
theorem Inventory.add (h : b.Inventory) (hr : b.Fresh i r) (hplain : r.delegates = false) :
    (b.add r).Inventory where
  orderly := h.orderly
  id_eq := List.forall_mem_cons.mpr ⟨⟨i.sequence, hr.id_eq⟩, h.id_eq⟩
  nodup_calls := hr.nodup_calls h.nodup_calls
  contains_iff call := by
    rw [RowBuilder.add, List.filter_cons_of_neg (Bool.eq_false_iff.mp hplain)]
    exact h.contains_iff call
  contains_group := List.forall_mem_cons.mpr
    ⟨fun _ hgroup ↦ hr.contains_group h.orderly hgroup, h.contains_group⟩

/-- A row that delegates, of which the tracker is told. -/
theorem Inventory.delegate (h : b.Inventory) (hr : b.Fresh i r) (hdelegates : r.delegates = true)
    {o : Opening} (ho : o.call = r.id) : ((b.add r).report (.opened o)).Inventory where
  orderly := (h.orderly.step (.opened o)).1
  id_eq := List.forall_mem_cons.mpr ⟨⟨i.sequence, hr.id_eq⟩, h.id_eq⟩
  nodup_calls := hr.nodup_calls h.nodup_calls
  contains_iff call := by
    rw [report, RowBuilder.add, List.filter_cons_of_pos hdelegates, List.map_cons, List.mem_cons,
      h.orderly.contains_step_iff, h.contains_iff, Tracker.Report.call?, Option.some_inj, ho,
      or_comm, eq_comm]
  contains_group := by
    have hkept : ∀ group, b.tracker.groups.contains group = true →
        ((b.add r).report (.opened o)).tracker.groups.contains group = true :=
      fun group hgroup ↦ (h.orderly.contains_step_iff _).mpr (Or.inl hgroup)
    refine List.forall_mem_cons.mpr ⟨fun group hgroup ↦ ?_, fun q hq group hgroup ↦ ?_⟩
    · exact hkept group (hr.contains_group h.orderly hgroup)
    · exact hkept group (h.contains_group q hq group hgroup)

theorem Inventory.report (h : b.Inventory) {x : Tracker.Report} (hx : x.call? = none) :
    (b.report x).Inventory := by
  have hcontains : ∀ call, (b.report x).tracker.groups.contains call = true ↔
      b.tracker.groups.contains call = true := by
    intro call
    refine (h.orderly.contains_step_iff x).trans (or_iff_left fun hcall ↦ ?_)
    rw [hx] at hcall
    cases hcall
  exact ⟨(h.orderly.step x).1, h.id_eq, h.nodup_calls,
    fun call ↦ (hcontains call).trans (h.contains_iff call),
    fun r hr group hgroup ↦ (hcontains group).mpr (h.contains_group r hr group hgroup)⟩

theorem Inventory.answer (h : b.Inventory) (call : String) (result : ToolResult) :
    (b.answer call result).Inventory := by
  obtain ⟨f, hf, hrows⟩ := b.exists_rows_answer call result
  refine ⟨h.orderly, ?_, ?_, fun call' ↦ ?_, ?_⟩
  · rw [hrows]
    refine List.forall_mem_map.mpr fun r hr ↦ ?_
    rw [(hf r).id_eq, (hf r).call?_eq]
    exact h.id_eq r hr
  · have hcalls : Row.call? ∘ f = Row.call? := funext fun r ↦ (hf r).call?_eq
    rw [hrows, List.filterMap_map, hcalls]
    exact h.nodup_calls
  · have hdelegates : Row.delegates ∘ f = Row.delegates := funext fun r ↦ (hf r).delegates_eq.symm
    have hids : Row.id ∘ f = Row.id := funext fun r ↦ (hf r).id_eq
    rw [hrows, List.filter_map, List.map_map, hdelegates, hids]
    exact h.contains_iff call'
  · rw [hrows]
    refine List.forall_mem_map.mpr fun r hr group hgroup ↦ ?_
    exact h.contains_group r hr group ((hf r).group_eq.symm.trans hgroup)

/-- **One thing of a transcript.** -/
theorem Inventory.step (h : b.Inventory) (i : Item) : (b.step i).Inventory := by
  have heffect := b.effect_step i
  generalize b.step i = c at heffect ⊢
  cases heffect with
  | add hr hplain => exact h.add hr hplain
  | delegate hr hdelegates ho => exact h.delegate hr hdelegates ho
  | answer call result => exact h.answer call result
  | close call result _ => exact (h.answer call result).report rfl
  | report hx => exact h.report hx
  | ignore => exact h

theorem Inventory.foldl_step (h : b.Inventory) (items : List Item) :
    (items.foldl RowBuilder.step b).Inventory := by
  induction items generalizing b with
  | nil => exact h
  | cons i rest ih => exact ih (h.step i)

/-- A delegation has the row of its call. -/
theorem Inventory.exists_row (h : b.Inventory) {call : String}
    (hcontains : b.tracker.groups.contains call = true) :
    ∃ q ∈ b.rows, q.id = call ∧ q.delegates = true := by
  obtain ⟨q, hq, hid⟩ := List.mem_map.mp ((h.contains_iff call).mp hcontains)
  obtain ⟨hmem, hdelegates⟩ := List.mem_filter.mp hq
  exact ⟨q, hmem, hid, hdelegates⟩

/-- No two rows that delegate have one identifier. -/
theorem Inventory.nodup_delegating (h : b.Inventory) :
    ((b.rows.filter Row.delegates).map Row.id).Nodup := by
  have hids : (b.rows.filter Row.delegates).map Row.id
      = (b.rows.filter Row.delegates).filterMap Row.call? := by
    rw [← List.filterMap_eq_map]
    refine List.filterMap_congr fun r hr ↦ ?_
    obtain ⟨hmem, hdelegates⟩ := List.mem_filter.mp hr
    obtain ⟨n, hid⟩ := h.id_eq r hmem
    obtain ⟨call, hcall⟩ := Row.exists_call?_of_delegates hdelegates
    rw [Function.comp_apply, hid, hcall, Option.getD_some]
  rw [hids]
  exact h.nodup_calls.sublist (List.filter_sublist.filterMap _)

end RowBuilder

namespace RowSet

/-! ## Rows and groups -/

/-- What holds of rows and their groups. -/
structure Inventory (s : RowSet) : Prop where
  /-- There is a group for each row that delegates. -/
  perm_keys : s.groups.keys.Perm ((s.rows.filter Row.delegates).map Row.id)
  /-- A row lies in a group that is there. -/
  contains_group : ∀ r ∈ s.rows, ∀ group, r.group = some group → s.groups.contains group = true
  /-- A group holds the rows that lie in it. -/
  rows_eq : ∀ call g, s.groups.get? call = some g →
    g.call = call ∧ g.rows = s.rows.filter fun r ↦ r.group == some call

theorem inventory_ofTranscript (session : String) (options : Options) (items : List Item) :
    (ofTranscript session options items).Inventory := by
  have h := (RowBuilder.inventory_start session options).foldl_step items
  rw [ofTranscript]
  generalize items.foldl RowBuilder.step (.start session options) = b at h
  have hcontains : ∀ call, b.finish.groups.contains call = b.tracker.groups.contains call :=
    fun call ↦ Table.contains_map _ _ _
  refine ⟨?_, fun r hr group hgroup ↦ ?_, fun call g hg ↦ ?_⟩
  · have hperm : ((b.rows.reverse.filter Row.delegates).map Row.id).Perm
        ((b.rows.filter Row.delegates).map Row.id) :=
      ((List.reverse_perm b.rows).filter _).map _
    refine List.Perm.trans ?_ hperm.symm
    rw [List.perm_ext_iff_of_nodup b.finish.groups.nodup_keys h.nodup_delegating]
    intro call
    rw [Table.mem_keys_iff, hcontains, h.contains_iff]
  · rw [hcontains]
    exact h.contains_group r (List.mem_reverse.mp hr) group hgroup
  · rw [RowBuilder.get?_groups_finish] at hg
    obtain ⟨d, hd, rfl⟩ := Option.map_eq_some_iff.mp hg
    have hcall : d.call = call := h.orderly.call_eq call d hd
    subst hcall
    exact ⟨rfl, rfl⟩

/-- **Order.** The rows of a session's events are in the order of their numbers. -/
theorem pairwise_ofEvents (session : String) (events : List Event) (options : Options) :
    (ofEvents session events options).rows.Pairwise fun r r' ↦ r.sequence < r'.sequence := by
  have hitems := Transcript.pairwise_ofEvents session events options
  rw [← List.pairwise_map] at hitems ⊢
  exact hitems.sublist (RowBuilder.sequences_foldl_step_sublist session options _)

end RowSet

end SessionReplay
