import Mathlib.Data.List.Nodup
import SessionReplay.Proofs.Row.Inventory
import SessionReplay.Proofs.Turn

/-!
# Everything has one place

A view shows its rows three times: as a list, in the turns and in the groups of delegations. The
turns hold the rows at the top and the groups hold the others, and nothing is lost on the way or
stands in two places: `SessionView.filedOnce_ofEvents`.

The three come about separately. Rows are added one by one and their numbers rise, turns are cut out
of the rows at the top, and groups are collected by the names that the rows carry. What the builder
has to contribute is that every name is that of a group, `RowSet.inventory_ofTranscript`.
-/

namespace SessionReplay

/-- What is in one of several lists, of which no two have anything in common, is in no other. -/
private theorem exists_split_of_nodup_flatMap {α β : Type} {xs : List α} {f : α → List β} {y : β}
    (h : (xs.flatMap f).Nodup) (hy : y ∈ xs.flatMap f) :
    ∃ before x after, xs = before ++ x :: after ∧ y ∈ f x ∧ ∀ x' ∈ before ++ after, y ∉ f x' := by
  obtain ⟨x, hx, hyx⟩ := List.mem_flatMap.mp hy
  obtain ⟨before, after, rfl⟩ := List.append_of_mem hx
  have hapart := (List.nodup_flatMap.mp h).2
  rw [List.pairwise_append, List.pairwise_cons] at hapart
  obtain ⟨-, ⟨hafter, -⟩, hbefore⟩ := hapart
  refine ⟨before, x, after, rfl, hyx, fun x' hx' hyx' ↦ ?_⟩
  rcases List.mem_append.mp hx' with hx' | hx'
  · exact hbefore x' hx' x List.mem_cons_self hyx' hyx
  · exact hafter x' hx' hyx hyx'

namespace Turn

variable {groups : Table Group} {rows : List Row}

/-- Where every delegating call has its group, the delegations are those of the calls, in their
order. -/
theorem map_call_delegationsOf (h : ∀ r ∈ rows, r.delegates = true →
    ∃ g, groups.get? r.id = some g ∧ g.call = r.id) :
    (delegationsOf groups rows).map (fun g ↦ g.call)
      = (rows.filter Row.delegates).map Row.id := by
  rw [delegationsOf, List.map_filterMap, ← List.filterMap_eq_map]
  refine List.filterMap_congr fun r hr ↦ ?_
  obtain ⟨hmem, hdelegates⟩ := List.mem_filter.mp hr
  obtain ⟨g, hg, hcall⟩ := h r hmem hdelegates
  rw [hg, Option.map_some, hcall, Function.comp_apply]

end Turn

namespace SessionView

/-- The rows at the top. -/
def topRows (v : SessionView) : List Row := v.rows.filter fun r ↦ r.group.isNone

/-- Everything on display stands in one place. -/
structure FiledOnce (v : SessionView) : Prop where
  /-- The numbers of the rows rise, so no row is shown twice. -/
  rising : v.rows.Pairwise fun r r' ↦ r.sequence < r'.sequence
  /-- The turns hold the rows at the top and nothing else. -/
  perm_turns : (v.turns.flatMap Turn.rows).Perm v.topRows
  /-- Nothing stands in two turns, or in two lists of one turn. -/
  nodup_turns : (v.turns.flatMap Turn.rows).Nodup
  unique_turn : ∀ r ∈ v.topRows, ∃ before t after, v.turns = before ++ t :: after ∧ r ∈ t.rows ∧
    ∀ t' ∈ before ++ after, r ∉ t'.rows
  prompts_eq : (v.turns.flatMap fun t ↦ t.prompt.toList) = v.topRows.filter Row.isPrompt
  messages_eq : v.turns.flatMap Turn.messages = v.topRows.filter Row.isMessage
  toolCalls_eq : v.turns.flatMap Turn.toolCalls = v.topRows.filter Row.isTool
  errors_eq : v.turns.flatMap Turn.errors = v.topRows.filter Row.isError
  /-- A row that is not at the top lies in a group that is there, and in no turn. -/
  contains_group : ∀ r ∈ v.rows, ∀ group, r.group = some group →
    v.groups.contains group = true ∧ ∀ t ∈ v.turns, r ∉ t.rows
  /-- A group holds the rows that lie in it, in their order. -/
  rows_eq : ∀ call g, v.groups.get? call = some g →
    g.call = call ∧ g.rows = v.rows.filter fun r ↦ r.group == some call
  /-- There is one group for each tool call that delegates. -/
  perm_keys : v.groups.keys.Perm ((v.rows.filter Row.delegates).map Row.id)
  /-- A turn has the groups of its tool calls that delegate. -/
  delegations_eq : ∀ t ∈ v.turns,
    t.delegations.map (fun g ↦ g.call) = (t.toolCalls.filter Row.delegates).map Row.id ∧
    ∀ g ∈ t.delegations, v.groups.get? g.call = some g

section Parts

variable {v : SessionView}
  (hfiles : List.Forall₂ (Turn.Files v.groups) v.turns (segments v.topRows))
  (hrising : v.rows.Pairwise fun r r' ↦ r.sequence < r'.sequence)
  (hinventory : (⟨v.rows, v.groups⟩ : RowSet).Inventory)

include hfiles

theorem flatMap_turns_eq_filter {f : Turn → List Row} {p : Row → Bool}
    (hf : ∀ t rows, t.Files v.groups rows → f t = rows.filter p) :
    v.turns.flatMap f = v.topRows.filter p := by
  rw [Turn.flatMap_eq_filter hfiles hf, flatten_segments]

theorem perm_turns : (v.turns.flatMap Turn.rows).Perm v.topRows := by
  have h := Turn.perm_flatMap_rows hfiles
  rwa [flatten_segments] at h

private theorem group_eq_none_of_mem_turn {t : Turn} {r : Row} (ht : t ∈ v.turns)
    (hr : r ∈ t.rows) :
    r.group = none := by
  have htop := (perm_turns hfiles).mem_iff.mp (List.mem_flatMap.mpr ⟨t, ht, hr⟩)
  exact Option.isNone_iff_eq_none.mp (List.mem_filter.mp htop).2

include hrising in
private theorem nodup_turns : (v.turns.flatMap Turn.rows).Nodup := by
  have hnodup : v.rows.Nodup := by
    refine hrising.imp fun hlt heq ↦ ?_
    rw [heq] at hlt
    exact UInt64.lt_irrefl _ hlt
  exact (perm_turns hfiles).nodup_iff.mpr (hnodup.filter _)

include hinventory in
/-- The group of a delegating call in a turn. -/
theorem exists_group_of_mem_toolCalls {t : Turn} {r : Row} (ht : t ∈ v.turns)
    (hr : r ∈ t.toolCalls) (hdelegates : r.delegates = true) :
    ∃ g, v.groups.get? r.id = some g ∧ g.call = r.id := by
  have htools := flatMap_turns_eq_filter hfiles fun t rows h ↦ h.toolCalls_eq
  have htop : r ∈ v.topRows.filter Row.isTool := htools ▸ List.mem_flatMap.mpr ⟨t, ht, hr⟩
  have hmem : r ∈ v.rows := (List.mem_filter.mp (List.mem_filter.mp htop).1).1
  have hkey : r.id ∈ v.groups.keys := hinventory.perm_keys.mem_iff.mpr
    (List.mem_map_of_mem (List.mem_filter.mpr ⟨hmem, hdelegates⟩))
  obtain ⟨g, hg⟩ := Table.contains_iff.mp (Table.mem_keys_iff.mp hkey)
  exact ⟨g, hg, (hinventory.rows_eq r.id g hg).1⟩

include hinventory in
private theorem delegations_of_mem_turns {t : Turn} (ht : t ∈ v.turns) :
    t.delegations.map (fun g ↦ g.call) = (t.toolCalls.filter Row.delegates).map Row.id ∧
      ∀ g ∈ t.delegations, v.groups.get? g.call = some g := by
  rw [Turn.delegations_eq_of_mem hfiles t ht]
  constructor
  · exact Turn.map_call_delegationsOf fun r hr hdelegates ↦
      exists_group_of_mem_toolCalls hfiles hinventory ht hr hdelegates
  · intro g hg
    obtain ⟨r, -, hr⟩ := List.mem_filterMap.mp hg
    rw [(hinventory.rows_eq r.id g hr).1]
    exact hr

include hrising hinventory in
private theorem filedOnce_of_files : v.FiledOnce where
  rising := hrising
  perm_turns := perm_turns hfiles
  nodup_turns := nodup_turns hfiles hrising
  unique_turn r hr := exists_split_of_nodup_flatMap (nodup_turns hfiles hrising)
    ((perm_turns hfiles).mem_iff.mpr hr)
  prompts_eq := flatMap_turns_eq_filter hfiles fun t rows h ↦ h.prompt_eq
  messages_eq := flatMap_turns_eq_filter hfiles fun t rows h ↦ h.messages_eq
  toolCalls_eq := flatMap_turns_eq_filter hfiles fun t rows h ↦ h.toolCalls_eq
  errors_eq := flatMap_turns_eq_filter hfiles fun t rows h ↦ h.errors_eq
  contains_group r hr group hgroup := by
    refine ⟨hinventory.contains_group r hr group hgroup, fun t ht hrt ↦ ?_⟩
    rw [group_eq_none_of_mem_turn hfiles ht hrt] at hgroup
    cases hgroup
  rows_eq := hinventory.rows_eq
  perm_keys := hinventory.perm_keys
  delegations_eq t ht := delegations_of_mem_turns hfiles hinventory ht

end Parts

/-- **Filing.** In the view of a session every row has one place. -/
theorem filedOnce_ofEvents (session : String) (events : List Event) (activity : Option Activity)
    (options : Options) : (ofEvents session events activity options).FiledOnce := by
  have hinventory := RowSet.inventory_ofTranscript session options
    (Transcript.ofTimeline (Timeline.ofEvents session events options))
  exact filedOnce_of_files (Turn.forall₂_files_ofRows _ _ _)
    (RowSet.pairwise_ofEvents session events options) hinventory

end SessionView

end SessionReplay
