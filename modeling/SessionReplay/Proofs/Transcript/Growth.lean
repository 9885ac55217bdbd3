import SessionReplay.Proofs.Growth
import SessionReplay.Proofs.Transcript.Step

/-!
# Transcripts grow

An entry adds one thing at the end of a transcript, or gives a live message a later state in its
place, or changes nothing on display: `Transcript.grows_step`. So the transcript of a longer
timeline starts with that of a shorter one, up to messages that were live:
`Transcript.grows_ofTimeline`.

## What stays of a message

The agent, number and time of a message are those of its first event and never change, and neither
does a stream that is known. Everything else may change while the message is live, and nothing once
it is stored.
-/

namespace SessionReplay

/-- The second state of a message is a later one. -/
structure Message.Evolves (m m' : Message) : Prop where
  agent_eq : m'.agent = m.agent
  sequence_eq : m'.sequence = m.sequence
  time_eq : m'.time = m.time
  stream_eq : ∀ id, m.stream = some id → m'.stream = some id
  eq_of_stored : m.isLive = false → m' = m

/-- The second state of a thing in a transcript is a later one. -/
inductive Item.Evolves : Item → Item → Prop
  | event (e : Entry) : Evolves (.event e) (.event e)
  | message {m m' : Message} (h : m.Evolves m') : Evolves (.message m) (.message m')

namespace Message

variable {m m' m'' : Message}

theorem Evolves.refl (m : Message) : m.Evolves m := ⟨rfl, rfl, rfl, fun _ h ↦ h, fun _ ↦ rfl⟩

theorem Evolves.trans (h : m.Evolves m') (h' : m'.Evolves m'') : m.Evolves m'' where
  agent_eq := h'.agent_eq.trans h.agent_eq
  sequence_eq := h'.sequence_eq.trans h.sequence_eq
  time_eq := h'.time_eq.trans h.time_eq
  stream_eq id hid := h'.stream_eq id (h.stream_eq id hid)
  eq_of_stored hm := by
    obtain rfl : m' = m := h.eq_of_stored hm
    exact h'.eq_of_stored hm

theorem evolves_grow (h : m.isLive = true) (part : Part) (delta : String) :
    m.Evolves (m.grow part delta) := by
  have hlive : m.isLive ≠ false := by rw [h]; decide
  cases part with
  | content => exact ⟨rfl, rfl, rfl, fun _ h ↦ h, fun hm ↦ absurd hm hlive⟩
  | thinking => exact ⟨rfl, rfl, rfl, fun _ h ↦ h, fun hm ↦ absurd hm hlive⟩

theorem evolves_close (h : m.isLive = true) (stream : Option String) (content : String)
    (thinking : Option String) : m.Evolves (m.close stream content thinking) := by
  have hlive : m.isLive ≠ false := by rw [h]; decide
  refine ⟨rfl, rfl, rfl, fun id hid ↦ ?_, fun hm ↦ absurd hm hlive⟩
  rw [close, hid, Option.some_or]

end Message

namespace Item

theorem Evolves.refl : ∀ i : Item, i.Evolves i
  | .event e => .event e
  | .message m => .message (.refl m)

theorem Evolves.trans {i j k : Item} (h : i.Evolves j) (h' : j.Evolves k) : i.Evolves k := by
  cases h with
  | event e => exact h'
  | message hm =>
    cases h' with
    | message hm' => exact .message (hm.trans hm')

end Item

namespace Transcript

variable {t : Transcript} {place : Nat} {m m' : Message}

/-! ## Growth -/

private theorem grows_push (t : Transcript) (i : Item) :
    Grows Item.Evolves t.items.toList (t.items.push i).toList := by
  rw [Array.toList_push]
  exact Grows.append Item.Evolves.refl _ _

private theorem grows_replace (hm : t.message? place = some m) (h : m.Evolves m') :
    Grows Item.Evolves t.items.toList (t.replace place m').items.toList := by
  rw [replace, Array.toList_setIfInBounds]
  refine Grows.set Item.Evolves.refl ?_ (.message h)
  rw [Array.getElem?_toList]
  exact message?_eq_some_iff.mp hm

/-- One entry. -/
theorem grows_step (t : Transcript) (e : Entry) :
    Grows Item.Evolves t.items.toList (t.step e).items.toList := by
  have heffect := t.effect_step e
  generalize t.step e = u at heffect ⊢
  cases heffect with
  | pass _ _ => exact grows_push t _
  | grow _ _ hm hlive => exact grows_replace hm (Message.evolves_grow hlive _ _)
  | begin _ _ => exact grows_push t _
  | ignorePiece _ _ _ => exact Grows.refl Item.Evolves.refl _
  | close _ _ hm =>
    rw [settle]
    dsimp only
    split
    · next hlive => exact grows_replace hm (Message.evolves_close hlive _ _ _)
    · exact Grows.refl Item.Evolves.refl _
  | stand _ _ _ => exact grows_push t _
  | ignoreStored _ _ _ => exact Grows.refl Item.Evolves.refl _

/-- Any number of entries. -/
theorem grows_foldl_step (t : Transcript) (entries : List Entry) :
    Grows Item.Evolves t.items.toList (entries.foldl step t).items.toList := by
  induction entries generalizing t with
  | nil => exact Grows.refl Item.Evolves.refl _
  | cons e rest ih => exact (grows_step t e).trans Item.Evolves.trans (ih (t.step e))

/-- A message stays in its place. -/
theorem exists_message?_of_grows {u : Transcript}
    (h : Grows Item.Evolves t.items.toList u.items.toList) (hm : t.message? place = some m) :
    ∃ m', u.message? place = some m' ∧ m.Evolves m' := by
  rw [message?_eq_some_iff, ← Array.getElem?_toList] at hm
  obtain ⟨i, hi, hevolves⟩ := h.exists_getElem? hm
  rw [Array.getElem?_toList] at hi
  cases hevolves with
  | message hm' => exact ⟨_, message?_eq_some_iff.mpr hi, hm'⟩

/-- **Growth.** The transcript of a longer timeline starts with that of a shorter one. -/
theorem grows_ofTimeline (timeline later : List Entry) :
    Grows Item.Evolves (ofTimeline timeline) (ofTimeline (timeline ++ later)) := by
  rw [ofTimeline, ofTimeline, List.foldl_append]
  exact grows_foldl_step _ later

end Transcript

end SessionReplay
