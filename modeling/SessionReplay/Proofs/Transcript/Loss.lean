import Mathlib.Data.List.Induction
import SessionReplay.Proofs.Timeline
import SessionReplay.Proofs.Transcript.Growth

/-!
# Text that is lost

What names no stream belongs to the message to which its agent last added a piece. That message may
have been closed meanwhile by the stored form of another agent, which forgets its own pointer alone.
Then the pointer is stale, `Transcript.IsStale`, and what follows it is lost: a piece is ignored,
and a stored form is taken for a repetition of the one that closed the message.

This is the only way to lose text that names no stream: `Transcript.losesOnlyToStale_ofEvents`. It
takes two agents, `Transcript.losesNothing_of_agent_eq`, and it happens,
`Transcript.not_losesNothing_interrupted`.

## Why the pointers are followed backwards

A stale pointer is found long after the entry that made it stale. So the step lemma
`PointsToMessages.isStale_step` goes backwards: a pointer that is stale after an entry was so
before, or the entry is a stored form of someone else.
-/

namespace SessionReplay

namespace Transcript

/-- The transcript after some entries. -/
def upTo (entries : List Entry) : Transcript := entries.foldl step empty

/-- The message to which an agent last added a piece is closed. -/
def IsStale (t : Transcript) (agent : String) : Prop :=
  ∃ place m, t.liveBy.get? agent = some place ∧ t.message? place = some m ∧ m.isLive = false

/-- The second transcript has a message with one more piece than in the first, or one that begins
with the piece. -/
def Takes (t t' : Transcript) (part : Message.Part) (text : String) : Prop :=
  ∃ place m, t'.message? place = some (m.grow part text) ∧
    (t.message? place = some m ∨ place = t.items.size ∧ m.content = "" ∧ m.thinking = "")

/-- The second transcript has a closed message with a content, which was not closed in the first. -/
def Stores (t t' : Transcript) (content : String) : Prop :=
  ∃ place m, t'.message? place = some m ∧ m.content = content ∧ m.isLive = false ∧
    ∀ m₀, t.message? place = some m₀ → m₀.isLive = true

/-- Every piece that names no stream is added to a message when its turn comes, and every stored
form that names no stream and is not empty is a closed message in the end. -/
def LosesNothing (timeline : List Entry) : Prop :=
  ∀ before e after, timeline = before ++ e :: after →
    (∀ part text, e.payload = .piece part none text →
      (upTo before).Takes ((upTo before).step e) part text) ∧
    ∀ content thinking, e.payload = .assistantMessage none content thinking → content ≠ "" →
      ∃ m, .message m ∈ ofTimeline timeline ∧ m.content = content ∧ m.isLive = false

/-- What becomes of an entry that names no stream, after some others. -/
structure Fate (timeline before : List Entry) (e : Entry) : Prop where
  takes_iff : ∀ part text, e.payload = .piece part none text →
    ((upTo before).Takes ((upTo before).step e) part text ↔ ¬ (upTo before).IsStale e.agent)
  stores_iff : ∀ content thinking, e.payload = .assistantMessage none content thinking →
    content ≠ "" →
    ((upTo before).Stores ((upTo before).step e) content ↔ ¬ (upTo before).IsStale e.agent)
  /-- What is stored is there in the end. -/
  exists_of_stores : ∀ content, (upTo before).Stores ((upTo before).step e) content →
    ∃ m, .message m ∈ ofTimeline timeline ∧ m.content = content ∧ m.isLive = false
  /-- A pointer is stale through a stored form of someone else. -/
  exists_of_isStale : (upTo before).IsStale e.agent → ∃ x ∈ before, x.IsStored ∧ x.agent ≠ e.agent

/-- Nothing that names no stream is lost except through a stale pointer. -/
def LosesOnlyToStale (timeline : List Entry) : Prop :=
  ∀ before e after, timeline = before ++ e :: after → Fate timeline before e

variable {t : Transcript} {e : Entry} {agent : String} {place : Nat} {m m' : Message}

theorem upTo_concat (before : List Entry) (e : Entry) :
    upTo (before ++ [e]) = (upTo before).step e := List.foldl_concat _ _ _ _

/-! ## Pointers -/

/-- Where an agent last added something there is a message. -/
def PointsToMessages (t : Transcript) : Prop :=
  ∀ agent place, t.liveBy.get? agent = some place → ∃ m, t.message? place = some m

/-- A pointer is an old one or leads to a live message. -/
theorem get?_liveBy_step (h : (t.step e).liveBy.get? agent = some place) :
    t.liveBy.get? agent = some place ∨
      ∃ m, (t.step e).message? place = some m ∧ m.isLive = true := by
  have heffect := t.effect_step e
  generalize t.step e = u at heffect h ⊢
  cases heffect with
  | pass _ _ => exact Or.inl h
  | @grow part _ text q m _ _ hm hlive =>
    rw [touch, Table.get?_insert] at h
    split at h
    · refine Or.inr ⟨m.grow part text, ?_, by rw [Message.isLive_grow, hlive]⟩
      rw [message?_touch, message?_replace hm, if_pos (Option.some.inj h).symm]
    · exact Or.inl h
  | @begin part stream text _ _ =>
    rw [touch, Table.get?_insert] at h
    split at h
    · refine Or.inr ⟨.begin e stream part text, ?_, Message.isLive_begin ..⟩
      rw [message?_touch, message?_add, if_pos (Option.some.inj h).symm]
    · exact Or.inl h
  | ignorePiece _ _ _ => exact Or.inl h
  | close _ _ _ =>
    rw [settle] at h
    dsimp only at h
    split at h
    · rw [Table.get?_erase] at h
      split at h
      · cases h
      · exact Or.inl h
    · exact Or.inl h
  | stand _ _ _ => exact Or.inl h
  | ignoreStored _ _ _ => exact Or.inl h

theorem PointsToMessages.step (h : t.PointsToMessages) (e : Entry) :
    (t.step e).PointsToMessages := by
  intro agent place hplace
  rcases get?_liveBy_step hplace with hold | ⟨m, hm, -⟩
  · obtain ⟨m, hm⟩ := h agent place hold
    obtain ⟨m', hm', -⟩ := exists_message?_of_grows (grows_step t e) hm
    exact ⟨m', hm'⟩
  · exact ⟨m, hm⟩

theorem pointsToMessages_upTo (entries : List Entry) : (upTo entries).PointsToMessages := by
  induction entries using List.reverseRecOn with
  | nil =>
    intro agent place h
    cases h
  | append_singleton before e ih =>
    rw [upTo_concat]
    exact ih.step e

/-- Only a stored form closes a message, and its agent does not point there afterwards. -/
theorem isStored_of_closes (hm : t.message? place = some m) (hlive : m.isLive = true)
    (hm' : (t.step e).message? place = some m') (hclosed : m'.isLive = false) :
    e.IsStored ∧ (t.step e).liveBy.get? e.agent ≠ some place := by
  -- where nothing happens the message is the same, so it cannot be live and closed
  have hsame : t.message? place ≠ some m' := by
    intro hm'
    rw [hm, Option.some_inj] at hm'
    rw [hm', hclosed] at hlive
    cases hlive
  have hne : place ≠ t.items.size := (lt_size_of_message? hm).ne
  have heffect := t.effect_step e
  generalize t.step e = u at heffect hm' ⊢
  cases heffect with
  | pass _ _ =>
    rw [message?_pass] at hm'
    exact absurd hm' hsame
  | grow _ _ hn hnlive =>
    rw [message?_touch, message?_replace hn] at hm'
    split at hm'
    · rw [← Option.some.inj hm', Message.isLive_grow, hnlive] at hclosed
      cases hclosed
    · exact absurd hm' hsame
  | begin _ _ =>
    rw [message?_touch, message?_add, if_neg hne] at hm'
    exact absurd hm' hsame
  | ignorePiece _ _ _ => exact absurd hm' hsame
  | @close stream content thinking q n he _ hn =>
    refine ⟨⟨stream, content, thinking, he⟩, ?_⟩
    have hq : place = q := by
      by_contra hq
      rw [message?_settle hn, if_neg hq] at hm'
      exact hsame hm'
    rw [settle, hq]
    dsimp only
    split
    · rw [Table.get?_erase, if_pos rfl]
      exact (Option.some_ne_none q).symm
    · next hpoints => exact hpoints
  | stand _ _ _ =>
    have hadd := (message?_add t _ place).symm.trans hm'
    rw [if_neg hne] at hadd
    exact absurd hadd hsame
  | ignoreStored _ _ _ => exact absurd hm' hsame

/-- A stale pointer was stale before, or someone else has just closed its message. -/
theorem PointsToMessages.isStale_step (h : t.PointsToMessages) (hstale : (t.step e).IsStale agent) :
    t.IsStale agent ∨ e.IsStored ∧ e.agent ≠ agent := by
  obtain ⟨place, m', hplace, hm', hclosed⟩ := hstale
  rcases get?_liveBy_step hplace with hold | ⟨n, hn, hlive⟩
  · obtain ⟨m, hm⟩ := h agent place hold
    cases hlive : m.isLive with
    | false => exact Or.inl ⟨place, m, hold, hm, hlive⟩
    | true =>
      -- who closes a message forgets it, so the pointer that is left is someone else's
      obtain ⟨hstored, hpoints⟩ := isStored_of_closes hm hlive hm' hclosed
      refine Or.inr ⟨hstored, ?_⟩
      rintro rfl
      exact hpoints hplace
  · rw [hm', Option.some_inj] at hn
    rw [← hn, hclosed] at hlive
    cases hlive

private theorem exists_of_isStale_upTo {entries : List Entry} (h : (upTo entries).IsStale agent) :
    ∃ x ∈ entries, x.IsStored ∧ x.agent ≠ agent := by
  induction entries using List.reverseRecOn with
  | nil =>
    obtain ⟨place, m, hplace, -⟩ := h
    cases hplace
  | append_singleton before e ih =>
    rw [upTo_concat] at h
    rcases (pointsToMessages_upTo before).isStale_step h with h | ⟨hstored, hagent⟩
    · obtain ⟨x, hx, hxother⟩ := ih h
      exact ⟨x, List.mem_append_left _ hx, hxother⟩
    · exact ⟨e, List.mem_append_right _ List.mem_cons_self, hstored, hagent⟩

/-! ## Pieces -/

theorem IsStale.isLive_eq_false (h : t.IsStale agent) (hplace : t.liveBy.get? agent = some place)
    (hm : t.message? place = some m) : m.isLive = false := by
  obtain ⟨q, n, hq, hn, hclosed⟩ := h
  rw [hplace, Option.some_inj] at hq
  rw [← hq, hm, Option.some_inj] at hn
  rwa [hn]

theorem not_takes_self (t : Transcript) (part : Message.Part) (text : String) :
    ¬ t.Takes t part text := by
  rintro ⟨place, m, hm, hold | ⟨hplace, -⟩⟩
  · rw [hold, Option.some_inj] at hm
    have hdeltas : m.deltas = (m.grow part text).deltas := congrArg Message.deltas hm
    cases part <;> exact absurd hdeltas (Nat.ne_of_lt (Nat.lt_succ_self m.deltas))
  · rw [hplace, message?_size] at hm
    cases hm

theorem PointsToMessages.takes_iff (h : t.PointsToMessages) {part : Message.Part} {text : String}
    (he : e.payload = .piece part none text) :
    t.Takes (t.step e) part text ↔ ¬ t.IsStale e.agent := by
  rw [step_piece he]
  rcases t.delta_cases e none part text with
    ⟨place, m, hplace, hm, hlive, heq⟩ | ⟨place, hplace, hclosed, heq⟩ | ⟨hnone, heq⟩
  · rw [heq]
    refine iff_of_true ⟨place, m, ?_, Or.inl hm⟩ fun hstale ↦ ?_
    · rw [message?_touch, message?_replace hm, if_pos rfl]
    · rw [hstale.isLive_eq_false hplace hm] at hlive
      cases hlive
  · rw [heq]
    refine iff_of_false (not_takes_self t part text) (not_not_intro ?_)
    obtain ⟨m, hm⟩ := h e.agent place hplace
    exact ⟨place, m, hplace, hm, hclosed m hm⟩
  · rw [heq]
    refine iff_of_true ⟨t.items.size, ⟨e.agent, e.sequence, e.time, none, "", "", true, 0⟩, ?_,
      Or.inr ⟨rfl, rfl, rfl⟩⟩ ?_
    · rw [message?_touch, message?_add, if_pos rfl]
      rfl
    · rintro ⟨place, m, hplace, -⟩
      exact Option.some_ne_none place (hplace.symm.trans hnone)

/-! ## Stored forms -/

/-- A stored form that names no stream goes where its agent last added a piece. -/
theorem PointsToMessages.placeOfStored_none (h : t.PointsToMessages) (e : Entry) :
    t.placeOfStored e none = t.liveBy.get? e.agent := by
  rw [placeOfStored, Option.bind_none, Option.none_or]
  cases hplace : t.liveBy.get? e.agent with
  | none => rfl
  | some place =>
    obtain ⟨m, hm⟩ := h e.agent place hplace
    rw [Option.bind_some, hm]
    rfl

theorem PointsToMessages.stores_iff (h : t.PointsToMessages)
    (hpassed : t.isPassed e.sequence = false) {content : String} {thinking : Option String}
    (he : e.payload = .assistantMessage none content thinking) (hcontent : content ≠ "") :
    t.Stores (t.step e) content ↔ ¬ t.IsStale e.agent := by
  rw [step_stored he]
  rcases t.stored_cases e none content thinking with
    ⟨place, m, hplace, hm, heq⟩ | ⟨hplace, hnone, -⟩ | ⟨hplace, -, heq⟩
  · rw [h.placeOfStored_none] at hplace
    rw [heq]
    cases hlive : m.isLive with
    | true =>
      refine iff_of_true ⟨place, m.close none content thinking, ?_, if_neg hcontent, rfl, ?_⟩ ?_
      · rw [message?_settle hm, if_pos rfl, hlive, if_pos rfl]
      · intro m₀ hm₀
        rw [hm, Option.some_inj] at hm₀
        rw [← hm₀, hlive]
      · intro hstale
        rw [hstale.isLive_eq_false hplace hm] at hlive
        cases hlive
    | false =>
      refine iff_of_false ?_ (not_not_intro ⟨place, m, hplace, hm, hlive⟩)
      rintro ⟨q, n, hn, -, hclosed, hold⟩
      rw [message?_settle_of_closed hlive] at hn
      rw [hold n hn] at hclosed
      cases hclosed
  · -- it is neither late nor without a message
    exfalso
    rw [h.placeOfStored_none] at hplace hnone
    cases hpoints : t.liveBy.get? e.agent with
    | none =>
      rw [hnone hpoints] at hpassed
      cases hpassed
    | some place =>
      obtain ⟨m, hm⟩ := h e.agent place hpoints
      rw [hplace place hpoints] at hm
      cases hm
  · rw [h.placeOfStored_none] at hplace
    rw [heq]
    refine iff_of_true ⟨t.items.size, _, (message?_add t _ _).trans (if_pos rfl), rfl, rfl, ?_⟩ ?_
    · intro m hm
      rw [message?_size] at hm
      cases hm
    · rintro ⟨place, m, hpoints, -⟩
      rw [hplace] at hpoints
      cases hpoints

private theorem lastStored_step (t : Transcript) (e : Entry) :
    (t.step e).lastStored = t.lastStored ∨ (t.step e).lastStored = some e.sequence := by
  have heffect := t.effect_step e
  generalize t.step e = u at heffect ⊢
  cases heffect with
  | close _ _ _ => exact Or.inr rfl
  | stand _ _ _ => exact Or.inr rfl
  | _ => exact Or.inl rfl

private theorem exists_of_lastStored_upTo {entries : List Entry} {n : UInt64}
    (h : (upTo entries).lastStored = some n) : ∃ x ∈ entries, x.sequence = n := by
  induction entries using List.reverseRecOn with
  | nil => cases h
  | append_singleton before e ih =>
    rw [upTo_concat] at h
    rcases lastStored_step (upTo before) e with heq | heq
    · obtain ⟨x, hx, hxn⟩ := ih (heq.symm.trans h)
      exact ⟨x, List.mem_append_left _ hx, hxn⟩
    · exact ⟨e, List.mem_append_right _ List.mem_cons_self, Option.some.inj (heq.symm.trans h)⟩

/-- No entry comes too late after entries with lower numbers. -/
theorem isPassed_upTo_eq_false {before : List Entry} {n : UInt64}
    (h : ∀ x ∈ before, x.sequence < n) : (upTo before).isPassed n = false := by
  rw [isPassed]
  split
  · next last hlast =>
    obtain ⟨x, hx, rfl⟩ := exists_of_lastStored_upTo hlast
    exact decide_eq_false (UInt64.not_le.mpr (h x hx))
  · rfl

/-! ## All entries -/

/-- A closed message is there in the end. -/
theorem exists_mem_ofTimeline_of_stores {timeline before after : List Entry} {content : String}
    (htimeline : timeline = before ++ e :: after)
    (h : (upTo before).Stores ((upTo before).step e) content) :
    ∃ m, .message m ∈ ofTimeline timeline ∧ m.content = content ∧ m.isLive = false := by
  obtain ⟨place, m, hm, hcontent, hclosed, -⟩ := h
  have hrest : upTo timeline = after.foldl step ((upTo before).step e) := by
    rw [htimeline, upTo, List.foldl_append]
    rfl
  obtain ⟨m', hm', hevolves⟩ := exists_message?_of_grows (grows_foldl_step _ after) hm
  rw [hevolves.eq_of_stored hclosed, ← hrest] at hm'
  refine ⟨m, ?_, hcontent, hclosed⟩
  exact Array.mem_toList_iff.mpr (Array.mem_of_getElem? (message?_eq_some_iff.mp hm'))

theorem fate_of_eq_append {session : String} {events : List Event} {options : Options}
    {before after : List Entry}
    (htimeline : Timeline.ofEvents session events options = before ++ e :: after) :
    Fate (Timeline.ofEvents session events options) before e := by
  have hpoints := pointsToMessages_upTo before
  have hbelow : ∀ x ∈ before, x.sequence < e.sequence := by
    have hrising := Timeline.pairwise_ofEvents session events options
    rw [htimeline, List.pairwise_append] at hrising
    exact fun x hx ↦ hrising.2.2 x hx e List.mem_cons_self
  exact {
    takes_iff := fun part text he ↦ hpoints.takes_iff he
    stores_iff := fun content thinking he hcontent ↦
      hpoints.stores_iff (isPassed_upTo_eq_false hbelow) he hcontent
    exists_of_stores := fun content h ↦ exists_mem_ofTimeline_of_stores htimeline h
    exists_of_isStale := exists_of_isStale_upTo }

/-- **Loss.** Of what names no stream, a timeline loses exactly what follows a stale pointer. -/
theorem losesOnlyToStale_ofEvents (session : String) (events : List Event) (options : Options) :
    LosesOnlyToStale (Timeline.ofEvents session events options) :=
  fun _ _ _ htimeline ↦ fate_of_eq_append htimeline

/-- An agent that is alone loses nothing. -/
theorem losesNothing_of_agent_eq {session : String} {events : List Event} {options : Options}
    (h : ∀ x ∈ Timeline.ofEvents session events options, x.agent = agent) :
    LosesNothing (Timeline.ofEvents session events options) := by
  intro before e after htimeline
  have hfate := fate_of_eq_append htimeline
  have hagent : ∀ x ∈ before ++ e :: after, x.agent = agent := htimeline ▸ h
  have hstale : ¬ (upTo before).IsStale e.agent := by
    intro hstale
    obtain ⟨x, hx, -, hother⟩ := hfate.exists_of_isStale hstale
    refine hother ?_
    rw [hagent x (List.mem_append_left _ hx),
      hagent e (List.mem_append_right _ List.mem_cons_self)]
  refine ⟨fun part text he ↦ (hfate.takes_iff part text he).mpr hstale, ?_⟩
  intro content thinking he hcontent
  exact hfate.exists_of_stores content ((hfate.stores_iff content thinking he hcontent).mpr hstale)

/-- A stream of a worker that is closed by a stored form without an agent, and what the worker says
next. -/
def interrupted : List Event :=
  [⟨1, "s1", some "worker", some 1000, .contentDelta (some "m1") "Let me see."⟩,
   ⟨2, "s1", none, some 2000, .assistantMessage (some "m1") "Let me see." none⟩,
   ⟨3, "s1", some "worker", some 3000, .assistantMessage none "It is done." none⟩]

/-- The last message of the worker is lost. -/
theorem not_losesNothing_interrupted :
    ¬ LosesNothing (Timeline.ofEvents "s1" interrupted default) := by
  have htimeline : Timeline.ofEvents "s1" interrupted default =
      [⟨⟨1, "s1", some "worker", some 1000, .contentDelta (some "m1") "Let me see."⟩, "worker",
          1000⟩,
       ⟨⟨2, "s1", none, some 2000, .assistantMessage (some "m1") "Let me see." none⟩, "unknown",
          2000⟩] ++
      ⟨⟨3, "s1", some "worker", some 3000, .assistantMessage none "It is done." none⟩, "worker",
          3000⟩ :: [] := by
    rw [Timeline.ofEvents, Timeline.admitted_eq_self (by decide) (by decide)]
    rfl
  intro h
  obtain ⟨m, hm, hcontent, -⟩ := (h _ _ _ htimeline).2 "It is done." none rfl (by decide)
  rw [htimeline] at hm
  obtain rfl : m = ⟨"worker", 1, 1000, some "m1", "Let me see.", "", false, 1⟩ :=
    Item.message.inj (List.mem_singleton.mp hm)
  exact absurd hcontent (by decide)

end Transcript

end SessionReplay
