import Mathlib.Data.List.Induction
import SessionReplay.Proofs.Timeline
import SessionReplay.Proofs.Transcript.Growth

/-!
# Transcripts keep the order

A message stands where its first event stood, and every other event stands where it was. So the
numbers of a transcript are numbers of its timeline, in the same order, and each one stands there
once: `Transcript.pairwise_ofEvents`. The events that are no part of a message are all there:
`Transcript.filterMap_event?_ofTimeline`.
-/

namespace SessionReplay

/-- The stream that a piece or a stored form names, if any; nothing if it is neither. -/
def Payload.stream? : Payload → Option (Option String)
  | .contentDelta stream _ => some stream
  | .thinkingDelta stream _ => some stream
  | .assistantMessage stream _ _ => some stream
  | _ => none

/-- The event that a thing in a transcript is, if it is no message. -/
def Item.event? : Item → Option Entry
  | .event e => some e
  | .message _ => none

/-- The number of the event that a thing in a transcript began with. -/
def Item.sequence : Item → UInt64
  | .event e => e.sequence
  | .message m => m.sequence

namespace Transcript

variable {t u : Transcript} {e : Entry} {place : Nat} {m m' : Message}

/-- The numbers of a transcript, in order. -/
def sequences (t : Transcript) : List UInt64 := t.items.toList.map Item.sequence

private theorem sequences_push {i : Item} (h : u.items = t.items.push i) :
    u.sequences = t.sequences ++ [i.sequence] := by
  rw [sequences, h, Array.toList_push, List.map_append, List.map_singleton, sequences]

/-- A message in place of an older state of it changes nothing that the two have in common. -/
theorem map_replace {α : Type} {f : Item → α} (hm : t.message? place = some m)
    (hf : f (.message m') = f (.message m)) :
    (t.replace place m').items.toList.map f = t.items.toList.map f := by
  have hplace : (t.items.toList.map f)[place]? = some (f (.message m)) := by
    rw [List.getElem?_map, Array.getElem?_toList, message?_eq_some_iff.mp hm, Option.map_some]
  obtain ⟨hlt, hvalue⟩ := List.getElem?_eq_some_iff.mp hplace
  rw [replace, Array.toList_setIfInBounds, List.map_set, hf, ← hvalue, List.set_getElem_self]

theorem filterMap_replace {α : Type} {f : Item → Option α} (hm : t.message? place = some m)
    (hf : f (.message m') = f (.message m)) :
    (t.replace place m').items.toList.filterMap f = t.items.toList.filterMap f := by
  have hreduce : ∀ items : List Item, items.filterMap f = (items.map f).filterMap id :=
    fun items ↦ by rw [List.filterMap_map, Function.id_comp]
  rw [hreduce, map_replace hm hf, ← hreduce]

private theorem sequences_replace (hm : t.message? place = some m) (h : m.Evolves m') :
    (t.replace place m').sequences = t.sequences :=
  map_replace hm h.sequence_eq

/-- **One entry** adds its own number at the end, or none. -/
theorem exists_sequences_step (t : Transcript) (e : Entry) :
    ∃ new, new.Sublist [e.sequence] ∧ (t.step e).sequences = t.sequences ++ new := by
  have hadded : ∀ {u : Transcript} {i : Item}, u.items = t.items.push i →
      i.sequence = e.sequence →
      ∃ new, new.Sublist [e.sequence] ∧ u.sequences = t.sequences ++ new := by
    intro u i hu hi
    exact ⟨[e.sequence], List.Sublist.refl _, by rw [sequences_push hu, hi]⟩
  have hsame : ∀ {u : Transcript}, u.sequences = t.sequences →
      ∃ new, new.Sublist [e.sequence] ∧ u.sequences = t.sequences ++ new :=
    fun hu ↦ ⟨[], List.nil_sublist _, by rw [hu, List.append_nil]⟩
  have heffect := t.effect_step e
  generalize t.step e = u at heffect ⊢
  cases heffect with
  | pass _ _ => exact hadded rfl rfl
  | grow _ _ hm hlive => exact hsame (sequences_replace hm (Message.evolves_grow hlive _ _))
  | @begin part _ _ _ _ => exact hadded rfl (by cases part <;> rfl)
  | ignorePiece _ _ _ => exact hsame rfl
  | @close _ _ _ _ m _ _ hm =>
    cases hlive : m.isLive with
    | true =>
      rw [settle, hlive, if_pos rfl]
      exact hsame (sequences_replace hm (Message.evolves_close hlive _ _ _))
    | false =>
      rw [settle, hlive, if_neg Bool.false_ne_true]
      exact hsame rfl
  | stand _ _ _ => exact hadded rfl rfl
  | ignoreStored _ _ _ => exact hsame rfl

/-- **Any number of entries.** -/
theorem exists_sequences_foldl_step (t : Transcript) (entries : List Entry) :
    ∃ new, new.Sublist (entries.map Entry.sequence) ∧
      (entries.foldl step t).sequences = t.sequences ++ new := by
  induction entries generalizing t with
  | nil => exact ⟨[], List.Sublist.refl _, (List.append_nil _).symm⟩
  | cons e rest ih =>
    obtain ⟨first, hfirst, hstep⟩ := exists_sequences_step t e
    obtain ⟨new, hnew, hrest⟩ := ih (t.step e)
    refine ⟨first ++ new, hfirst.append hnew, ?_⟩
    rw [List.foldl_cons, hrest, hstep, List.append_assoc]

theorem sequences_ofTimeline_sublist (timeline : List Entry) :
    ((ofTimeline timeline).map Item.sequence).Sublist (timeline.map Entry.sequence) := by
  obtain ⟨new, hnew, hfold⟩ := exists_sequences_foldl_step empty timeline
  change (timeline.foldl step empty).sequences.Sublist _
  rw [hfold]
  exact hnew

/-- Later entries change the states of what was there, and add what they begin. -/
theorem exists_ofTimeline_append (timeline later : List Entry) :
    ∃ old new, ofTimeline (timeline ++ later) = old ++ new ∧
      List.Forall₂ Item.Evolves (ofTimeline timeline) old ∧
      (∀ i ∈ old, ∃ e ∈ timeline, e.sequence = i.sequence) ∧
      (∀ i ∈ new, ∃ e ∈ later, e.sequence = i.sequence) := by
  obtain ⟨old, new, hitems, hold⟩ := (grows_ofTimeline timeline later).exists_append
  obtain ⟨added, hadded, hfold⟩ := exists_sequences_foldl_step (timeline.foldl step empty) later
  have hsequences : old.map Item.sequence ++ new.map Item.sequence
      = (ofTimeline timeline).map Item.sequence ++ added := by
    rw [← List.map_append, ← hitems, ofTimeline, List.foldl_append]
    exact hfold
  have hlength : (old.map Item.sequence).length
      = ((ofTimeline timeline).map Item.sequence).length := by
    rw [List.length_map, List.length_map, hold.length_eq]
  obtain ⟨hsame, rfl⟩ := List.append_inj hsequences hlength
  refine ⟨old, new, hitems, hold, fun i hi ↦ ?_, fun i hi ↦ ?_⟩
  · have hmem : i.sequence ∈ (ofTimeline timeline).map Item.sequence :=
      hsame ▸ List.mem_map_of_mem hi
    exact List.mem_map.mp ((sequences_ofTimeline_sublist timeline).subset hmem)
  · exact List.mem_map.mp (hadded.subset (List.mem_map_of_mem hi))

/-- **Order.** The things of a transcript are in the order of their numbers. -/
theorem pairwise_ofTimeline {timeline : List Entry}
    (h : timeline.Pairwise fun a b ↦ a.sequence < b.sequence) :
    (ofTimeline timeline).Pairwise fun i j ↦ i.sequence < j.sequence := by
  rw [← List.pairwise_map] at h ⊢
  exact h.sublist (sequences_ofTimeline_sublist _)

theorem pairwise_ofEvents (session : String) (events : List Event) (options : Options) :
    (ofTimeline (Timeline.ofEvents session events options)).Pairwise fun i j ↦
      i.sequence < j.sequence :=
  pairwise_ofTimeline (Timeline.pairwise_ofEvents session events options)

/-! ## Events that are no part of a message -/

/-- The events of a transcript, in order. -/
def passed (t : Transcript) : List Entry := t.items.toList.filterMap Item.event?

private theorem passed_push (i : Item) (h : u.items = t.items.push i) :
    u.passed = t.passed ++ i.event?.toList := by
  rw [passed, h, Array.toList_push, List.filterMap_append, passed]
  cases i <;> rfl

private theorem passed_replace (hm : t.message? place = some m) (m' : Message) :
    (t.replace place m').passed = t.passed :=
  filterMap_replace hm rfl

theorem stream?_piece (part : Message.Part) (stream : Option String) (text : String) :
    (Payload.piece part stream text).stream? = some stream := by
  cases part <;> rfl

private theorem stream?_eq_none {p : Payload}
    (hpiece : ∀ part stream text, p ≠ .piece part stream text)
    (hstored : ¬∃ stream content thinking, p = .assistantMessage stream content thinking) :
    p.stream? = none := by
  cases p with
  | contentDelta stream text => exact absurd rfl (hpiece .content stream text)
  | thinkingDelta stream text => exact absurd rfl (hpiece .thinking stream text)
  | assistantMessage stream content thinking =>
    exact absurd ⟨stream, content, thinking, rfl⟩ hstored
  | _ => rfl

/-- **One entry** is passed on if it is no part of a message. -/
theorem passed_step (t : Transcript) (e : Entry) :
    (t.step e).passed = t.passed ++ [e].filter fun e ↦ e.payload.stream?.isNone := by
  have hpart : ∀ {u : Transcript} {stream : Option String}, e.payload.stream? = some stream →
      u.passed = t.passed →
      u.passed = t.passed ++ [e].filter fun e ↦ e.payload.stream?.isNone := by
    intro u stream he hu
    rw [hu, List.filter_cons_of_neg (by rw [he]; exact Bool.false_ne_true), List.filter_nil,
      List.append_nil]
  have hpiece : ∀ {part : Message.Part} {stream : Option String} {text : String},
      e.payload = .piece part stream text → e.payload.stream? = some stream := by
    intro part stream text he
    rw [he, stream?_piece]
  have hstored : ∀ {stream : Option String} {content : String} {thinking : Option String},
      e.payload = .assistantMessage stream content thinking → e.payload.stream? = some stream := by
    intro stream content thinking he
    rw [he, Payload.stream?]
  have heffect := t.effect_step e
  generalize t.step e = u at heffect ⊢
  cases heffect with
  | pass hnopiece hnostored =>
    rw [passed_push (.event e) rfl,
      List.filter_cons_of_pos (by rw [stream?_eq_none hnopiece hnostored]; rfl)]
    rfl
  | grow he _ hm _ => exact hpart (hpiece he) (passed_replace hm _)
  | begin he _ =>
    refine hpart (hpiece he) ((passed_push (.message _) rfl).trans ?_)
    exact List.append_nil _
  | ignorePiece he _ _ => exact hpart (hpiece he) rfl
  | @close _ _ _ _ m he _ hm =>
    refine hpart (hstored he) ?_
    cases hlive : m.isLive with
    | true =>
      rw [settle, hlive]
      exact passed_replace hm _
    | false =>
      rw [settle, hlive]
      rfl
  | stand he _ _ =>
    refine hpart (hstored he) ((passed_push (.message _) rfl).trans ?_)
    exact List.append_nil _
  | ignoreStored he _ _ => exact hpart (hstored he) rfl

/-- **Any number of entries.** The events of a transcript are those of its timeline that are no part
of a message. -/
theorem filterMap_event?_ofTimeline (timeline : List Entry) :
    (ofTimeline timeline).filterMap Item.event?
      = timeline.filter fun e ↦ e.payload.stream?.isNone := by
  change (timeline.foldl step empty).passed = _
  induction timeline using List.reverseRecOn with
  | nil => rfl
  | append_singleton before e ih =>
    rw [List.foldl_concat, passed_step, ih, List.filter_append]

end Transcript

end SessionReplay
