import Mathlib.Data.List.Forall2
import SessionReplay.Turn

/-!
# What turns hold

Every turn is made from one segment of the rows at the top, and holds each row of it in the list for
its kind: `Turn.forall₂_files_ofRows`.

## Why a turn loses no prompt

A turn has room for one prompt only. That is enough because a segment has a prompt only at its
beginning, `isSegment_of_mem_segments`: the cut is made before every prompt, and nothing else ends a
segment.
-/

namespace SessionReplay

/-! ## Kinds -/

/-- Every row is of one kind. -/
theorem perm_filter_kinds (rows : List Row) :
    (rows.filter Row.isPrompt ++ rows.filter Row.isMessage ++ rows.filter Row.isTool
      ++ rows.filter Row.isError).Perm rows := by
  induction rows with
  | nil => exact List.Perm.refl _
  | cons r rest ih =>
    -- the row stands at the head of the list for its kind, behind those for the kinds before
    obtain ⟨id, session, agent, sequence, time, depth, parent, group, body⟩ := r
    cases body with
    | prompt text => exact ih.cons _
    | message content thinking stream isLive =>
      exact ((List.perm_middle.append_right _).append_right _).trans (ih.cons _)
    | tool t => exact (List.perm_middle.append_right _).trans (ih.cons _)
    | error text => exact List.perm_middle.trans (ih.cons _)

theorem Row.isTool_of_delegates {r : Row} (h : r.delegates = true) : r.isTool = true := by
  rw [Row.delegates, Option.any_eq_true] at h
  obtain ⟨t, ht, -⟩ := h
  exact Option.isSome_of_eq_some ht

/-! ## Segments -/

/-- The rows begin a segment: there are some, and only the first one may be a prompt. -/
def IsSegment (rows : List Row) : Prop :=
  ∃ r rest, rows = r :: rest ∧ ∀ x ∈ rest, x.isPrompt = false

theorem IsSegment.find?_isPrompt {rows : List Row} (h : IsSegment rows) :
    (rows.find? Row.isPrompt).toList = rows.filter Row.isPrompt := by
  obtain ⟨r, rest, rfl, hrest⟩ := h
  have hnone : rest.filter Row.isPrompt = [] :=
    List.filter_eq_nil_iff.mpr fun x hx ↦ Bool.eq_false_iff.mp (hrest x hx)
  by_cases hr : r.isPrompt = true
  · rw [List.find?_cons_of_pos hr, List.filter_cons_of_pos hr, hnone, Option.toList_some]
  · rw [List.find?_cons_of_neg hr, List.filter_cons_of_neg hr, hnone, ← List.head?_filter, hnone,
      List.head?_nil, Option.toList_none]

private theorem isSegment_of_mem_addToSegments {r : Row} {ss : List (List Row)}
    (h : ∀ s ∈ ss, IsSegment s) : ∀ s ∈ addToSegments r ss, IsSegment s := by
  have halone : IsSegment [r] := ⟨r, [], rfl, List.forall_mem_nil _⟩
  cases ss with
  | nil => exact List.forall_mem_singleton.mpr halone
  | cons segment rest =>
    rw [addToSegments]
    split
    · exact List.forall_mem_cons.mpr ⟨halone, h⟩
    · next hhead =>
      obtain ⟨hsegment, hrest⟩ := List.forall_mem_cons.mp h
      obtain ⟨q, qs, rfl, hqs⟩ := hsegment
      have hq : q.isPrompt = false := Bool.eq_false_iff.mpr hhead
      exact List.forall_mem_cons.mpr
        ⟨⟨r, q :: qs, rfl, List.forall_mem_cons.mpr ⟨hq, hqs⟩⟩, hrest⟩

theorem isSegment_of_mem_segments (rows : List Row) : ∀ s ∈ segments rows, IsSegment s := by
  induction rows with
  | nil => exact List.forall_mem_nil _
  | cons r rest ih => exact isSegment_of_mem_addToSegments ih

/-! ## Filing -/

namespace Turn

/-- A turn holds some rows, each in the list for its kind. -/
structure Files (groups : Table Group) (t : Turn) (rows : List Row) : Prop where
  prompt_eq : t.prompt.toList = rows.filter Row.isPrompt
  messages_eq : t.messages = rows.filter Row.isMessage
  toolCalls_eq : t.toolCalls = rows.filter Row.isTool
  errors_eq : t.errors = rows.filter Row.isError
  delegations_eq : t.delegations = delegationsOf groups rows

variable {groups : Table Group} {t : Turn} {rows : List Row}

theorem Files.perm_rows (h : t.Files groups rows) : t.rows.Perm rows := by
  rw [Turn.rows, h.prompt_eq, h.messages_eq, h.toolCalls_eq, h.errors_eq]
  exact perm_filter_kinds rows

/-- The delegations of a turn are those of its tool calls. -/
theorem Files.delegations_eq_delegationsOf (h : t.Files groups rows) :
    t.delegations = delegationsOf groups t.toolCalls := by
  have hdelegates : (rows.filter Row.isTool).filter Row.delegates = rows.filter Row.delegates := by
    rw [List.filter_filter]
    refine List.filter_congr fun r _ ↦ ?_
    rw [Bool.and_eq_left_iff_imp]
    exact Row.isTool_of_delegates
  rw [h.delegations_eq, h.toolCalls_eq, delegationsOf, delegationsOf, hdelegates]

theorem files_file (groups : Table Group) (id : String) (start : Instant) (h : IsSegment rows) :
    (file groups id start rows).Files groups rows :=
  ⟨h.find?_isPrompt, rfl, rfl, rfl, rfl⟩

theorem Files.moved (h : t.Files groups rows) (isActive : Bool) (stop : Option Instant)
    (model : Option ModelLabel) : Files groups { t with isActive, stop, model } rows :=
  ⟨h.prompt_eq, h.messages_eq, h.toolCalls_eq, h.errors_eq, h.delegations_eq⟩

/-! ## Turn by turn -/

section Relation

variable {R : Turn → List Row → Prop}

theorem forall₂_filterMap (hR : ∀ r rest, IsSegment (r :: rest) →
    R (file groups r.id r.time (r :: rest)) (r :: rest)) {ss : List (List Row)}
    (h : ∀ s ∈ ss, IsSegment s) : List.Forall₂ R (ss.filterMap (ofSegment? groups)) ss := by
  induction ss with
  | nil => exact List.Forall₂.nil
  | cons s ss ih =>
    obtain ⟨hs, hss⟩ := List.forall_mem_cons.mp h
    have hfile := fun r rest (heq : s = r :: rest) ↦ hR r rest (heq ▸ hs)
    obtain ⟨r, rest, rfl, -⟩ := hs
    exact List.Forall₂.cons (hfile r rest rfl) (ih hss)

/-- When a turn ended, whether it is active and which model it had is decided as turns are
closed. -/
theorem forall₂_close (hR : ∀ t rows, R t rows → ∀ isActive stop model,
    R { t with isActive, stop, model } rows) (changes : List ModelChange) (activity : Activity)
    {ts : List Turn} {ss : List (List Row)} (h : List.Forall₂ R ts ss) :
    List.Forall₂ R (close changes activity ts) ss := by
  induction h with
  | nil => exact List.Forall₂.nil
  | @cons t s ts ss ht hts ih =>
    cases hts with
    | nil => exact List.Forall₂.cons (hR t s ht _ _ _) List.Forall₂.nil
    | cons _ _ => exact List.Forall₂.cons (hR t s ht _ _ _) ih

end Relation

/-- **Filing.** The turns of a session are made from the segments of its rows at the top, one by
one. -/
theorem forall₂_files_ofRows (set : RowSet) (changes : List ModelChange) (activity : Activity) :
    List.Forall₂ (Files set.groups) (ofRows set changes activity)
      (segments (set.rows.filter fun r ↦ r.group.isNone)) :=
  forall₂_close (fun _ _ ↦ Files.moved) changes activity
    (forall₂_filterMap (fun r _ ↦ files_file _ r.id r.time) (isSegment_of_mem_segments _))

/-! ## All turns together -/

variable {ts : List Turn} {ss : List (List Row)}

/-- The lists for a kind, one after the other, are the rows of the kind in their order. -/
theorem flatMap_eq_filter {f : Turn → List Row} {p : Row → Bool}
    (h : List.Forall₂ (Files groups) ts ss)
    (hf : ∀ t rows, t.Files groups rows → f t = rows.filter p) :
    ts.flatMap f = ss.flatten.filter p := by
  induction h with
  | nil => rfl
  | @cons t s ts ss ht _ ih =>
    rw [List.flatMap_cons, List.flatten_cons, List.filter_append, hf t s ht, ih]

theorem perm_flatMap_rows (h : List.Forall₂ (Files groups) ts ss) :
    (ts.flatMap Turn.rows).Perm ss.flatten := by
  induction h with
  | nil => exact List.Perm.refl _
  | cons ht _ ih => exact ht.perm_rows.append ih

theorem delegations_eq_of_mem (h : List.Forall₂ (Files groups) ts ss) :
    ∀ t ∈ ts, t.delegations = delegationsOf groups t.toolCalls := by
  induction h with
  | nil => exact List.forall_mem_nil _
  | cons ht _ ih => exact List.forall_mem_cons.mpr ⟨ht.delegations_eq_delegationsOf, ih⟩

end Turn

end SessionReplay
