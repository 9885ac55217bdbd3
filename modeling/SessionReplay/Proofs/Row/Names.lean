import Mathlib.Data.List.Count
import SessionReplay.Proofs.Row.Conservation
import SessionReplay.Proofs.Row.Identity

/-!
# What rows are called

Rows and groups refer to rows by their identifiers, so an identifier should lead to one row. Whether
it does depends on what the tool calls of a session are called: `RowSet.idsResolve_ofEvents_iff`.

## Two name spaces

A row of a tool call is named as the call, which is a text of the agent's choice. Every other row is
named for the session and the number of its first event. Inside each of the two no name is given
twice: a call has one row (`RowBuilder.Inventory`), and numbers rise along the rows. But nothing
keeps a call from being named like an event, and when one is, the two rows have one name, and every
row that stands under one of them seems to stand under both:
`RowSet.not_idsResolve_calledLikeMessage`.
-/

namespace SessionReplay

/-! ## The name of a row -/

theorem RowBuilder.rowId_inj {session : String} {m n : UInt64} :
    rowId session m = rowId session n ↔ m = n := by
  refine ⟨fun h ↦ ?_, fun h ↦ congrArg (rowId session) h⟩
  have hchars := congrArg String.toList h
  rw [rowId, rowId, String.toList_append, String.toList_append (s := session ++ ":"),
    String.toList_ofList, String.toList_ofList] at hchars
  have hdigits := congrArg Decimal.ofDigits (List.append_cancel_left hchars)
  rw [Decimal.ofDigits_toDigits, Decimal.ofDigits_toDigits] at hdigits
  exact UInt64.toNat_inj.mp hdigits

/-- The name that a row of a session should have. -/
def Row.name (session : String) (r : Row) : String :=
  r.call?.getD (RowBuilder.rowId session r.sequence)

theorem Item.id_eq_of_row? {session : String} {options : Options}
    {result : String → Option ToolResult} {i : Item} {r : Row}
    (h : i.row? session options result = some r) : r.id = r.name session := by
  cases i with
  | message m =>
    cases h
    rfl
  | event e =>
    rw [row?, Entry.plainRow?, Entry.callRow?] at h
    cases hpayload : e.payload with
    | userPrompt text => rw [hpayload] at h; cases h; rfl
    | systemError text => rw [hpayload] at h; cases h; rfl
    | toolStart call name arguments => rw [hpayload] at h; cases h; rfl
    | toolEnd call name value isError => rw [hpayload] at h; cases h; rfl
    | _ => rw [hpayload] at h; cases h

namespace RowSet

variable {session : String} {options : Options}

/-- A tool call's row is named as the call, any other row for its number. -/
theorem id_eq_name {items : List Item} {r : Row}
    (h : r ∈ (ofTranscript session options items).rows) : r.id = r.name session := by
  have hshown := List.mem_map_of_mem (f := Row.unplaced) h
  rw [unplaced_ofTranscript, rowsShown, List.mem_filterMap] at hshown
  obtain ⟨i, -, hrow⟩ := hshown
  have hname : r.unplaced.id = r.unplaced.name session := Item.id_eq_of_row? hrow
  exact hname

private theorem nodup_calls_ofTranscript (session : String) (options : Options)
    (items : List Item) :
    ((ofTranscript session options items).rows.filterMap Row.call?).Nodup := by
  have h := (RowBuilder.inventory_start session options).foldl_step items
  rw [ofTranscript, RowBuilder.finish, List.filterMap_reverse, List.nodup_reverse]
  exact h.nodup_calls

/-! ## Names that lead to one row -/

/-- Whether exactly one row goes by an identifier. -/
def Resolves (s : RowSet) (id : String) : Prop := (s.rows.map Row.id).count id = 1

/-- Identifiers lead to one row each. -/
structure IdsResolve (s : RowSet) : Prop where
  /-- No two rows have one identifier. -/
  nodup : (s.rows.map Row.id).Nodup
  /-- A parent is one row. -/
  parent : ∀ r ∈ s.rows, ∀ p, r.parent = some p → s.Resolves p
  /-- So is the call of the group that a row lies in. -/
  group : ∀ r ∈ s.rows, ∀ g, r.group = some g → s.Resolves g
  /-- And so is the call of every group that there is. -/
  key : ∀ call, s.groups.contains call = true → s.Resolves call

/-- No tool call is called what a row that shows no tool call is named. -/
def CallsApart (s : RowSet) (session : String) : Prop :=
  ∀ r ∈ s.rows, r.call? = none → ∀ q ∈ s.rows, q.call? ≠ some (RowBuilder.rowId session r.sequence)

private theorem nodup_ids_of_callsApart {events : List Event}
    (h : (ofEvents session events options).CallsApart session) :
    ((ofEvents session events options).rows.map Row.id).Nodup := by
  have hcalls : ((ofEvents session events options).rows.filterMap Row.call?).Nodup :=
    nodup_calls_ofTranscript session options _
  have hrising := pairwise_ofEvents session events options
  have hboth := (List.pairwise_filterMap.mp hcalls).and hrising
  refine List.pairwise_map.mpr (hboth.imp_of_mem fun {r q} hr hq hrq ↦ ?_)
  obtain ⟨hcall, hlt⟩ := hrq
  rw [id_eq_name hr, id_eq_name hq, Row.name, Row.name]
  cases hrcall : r.call? with
  | none =>
    cases hqcall : q.call? with
    | none => exact fun heq ↦ UInt64.ne_of_lt hlt (RowBuilder.rowId_inj.mp heq)
    | some call =>
      rintro rfl
      exact h r hr hrcall q hq hqcall
  | some call =>
    cases hqcall : q.call? with
    | none =>
      intro heq
      exact h q hq hqcall r hr (hrcall.trans (congrArg some heq))
    | some call' => exact hcall call hrcall call' hqcall

private theorem callsApart_of_nodup_ids {items : List Item}
    (h : ((ofTranscript session options items).rows.map Row.id).Nodup) :
    (ofTranscript session options items).CallsApart session := by
  intro r hr hrcall q hq hqcall
  have hids : r.id = q.id := by
    rw [id_eq_name hr, id_eq_name hq, Row.name, Row.name, hrcall, hqcall]
    rfl
  obtain rfl : r = q := List.inj_on_of_nodup_map h hr hq hids
  rw [hrcall] at hqcall
  cases hqcall

private theorem resolves_of_mem {s : RowSet} (h : (s.rows.map Row.id).Nodup) {q : Row}
    (hq : q ∈ s.rows) :
    s.Resolves q.id :=
  List.count_eq_one_of_mem h (List.mem_map_of_mem hq)

/-- A parent is the name of a row. -/
theorem exists_row_of_parent {items : List Item} {r : Row}
    (hr : r ∈ (ofTranscript session options items).rows) {p : String} (hp : r.parent = some p) :
    ∃ q ∈ (ofTranscript session options items).rows, q.id = p := by
  obtain ⟨before, after, hrows⟩ := List.append_of_mem hr
  have hnested := (RowBuilder.nested_start session options).foldl_step items
  have hfits := hnested.rows before r after hrows
  rw [Row.Fits, hp] at hfits
  obtain ⟨q, hq, hid, -⟩ := hfits
  exact ⟨q, hrows ▸ List.mem_append_left _ hq, hid⟩

/-- A group has the row of its call. -/
theorem exists_row_of_contains {items : List Item} {call : String}
    (h : (ofTranscript session options items).groups.contains call = true) :
    ∃ q ∈ (ofTranscript session options items).rows, q.id = call := by
  have hkeys := (inventory_ofTranscript session options items).perm_keys
  obtain ⟨q, hq, hid⟩ := List.mem_map.mp (hkeys.mem_iff.mp (Table.mem_keys_iff.mpr h))
  exact ⟨q, List.mem_of_mem_filter hq, hid⟩

/-- **Names.** The identifiers of a session's rows lead to one row each exactly when no tool call is
called what another row is named. -/
theorem idsResolve_ofEvents_iff (session : String) (events : List Event) (options : Options) :
    (ofEvents session events options).IdsResolve ↔
      (ofEvents session events options).CallsApart session := by
  refine ⟨fun h ↦ callsApart_of_nodup_ids h.nodup, fun h ↦ ?_⟩
  have hnodup := nodup_ids_of_callsApart h
  have hkey : ∀ call, (ofEvents session events options).groups.contains call = true →
      (ofEvents session events options).Resolves call := by
    intro call hcall
    obtain ⟨q, hq, rfl⟩ := exists_row_of_contains hcall
    exact resolves_of_mem hnodup hq
  refine ⟨hnodup, fun r hr p hp ↦ ?_, fun r hr g hg ↦ hkey g ?_, hkey⟩
  · obtain ⟨q, hq, rfl⟩ := exists_row_of_parent hr hp
    exact resolves_of_mem hnodup hq
  · exact (inventory_ofTranscript session options _).contains_group r hr g hg

/-- A message, a call that is called what the message is named, and a call of its own. -/
def calledLikeMessage : List Event :=
  [⟨1, "s1", some "main", some 1000, .assistantMessage none "plan" none⟩,
   ⟨2, "s1", some "main", some 2000,
      .toolStart "s1:1" "delegate" (.object [("agent_id", .string "worker")])⟩,
   ⟨3, "s1", some "main", some 3000, .toolStart "tc2" "read" .null⟩]

/-- The call stands under its own name. -/
theorem not_idsResolve_calledLikeMessage :
    ¬ (ofEvents "s1" calledLikeMessage default).IdsResolve := by
  have htimeline : Timeline.ofEvents "s1" calledLikeMessage default =
      calledLikeMessage.map fun e ↦ ⟨e, "main", e.time.getD 0⟩ := by
    rw [Timeline.ofEvents, Timeline.admitted_eq_self (by decide) (by decide)]
    rfl
  have hids : (ofEvents "s1" calledLikeMessage default).rows.map Row.id =
      ["s1:1", "s1:1", "tc2"] := by
    rw [ofEvents, htimeline]
    rfl
  intro h
  have hnodup := h.nodup
  rw [hids] at hnodup
  exact absurd hnodup (by decide)

end RowSet

end SessionReplay
