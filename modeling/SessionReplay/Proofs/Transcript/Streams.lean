import Mathlib.Data.List.Nodup
import SessionReplay.Proofs.Transcript.Loss
import SessionReplay.Proofs.Transcript.Order

/-!
# Streams and their messages

A message may come by its stream in two ways. It begins with an entry that names the stream, or it
begins with a piece that names none and is taken over by a stored form that names one. The table
`byStream` follows the first way alone. So what names a stream finds the message that began with
it, and misses one that was taken over; then the stream gets a second message.

This is the only way to a second message: `Transcript.followsStreams_ofEvents`. It takes a piece
that names no stream, `Transcript.streamsApart_of_named`, and it happens,
`Transcript.not_streamsApart_takenOver`.

## The invariant

`Transcript.Indexed` says of a message with a stream that the table leads to it or that it is closed
and began without a stream. Where the table leads, no message of the stream stands further on: it is
asked before a message is begun or taken over, so whatever else has the stream was there before the
table learned of it.
-/

namespace SessionReplay

/-- The entry is a piece or a stored form, and this is the stream that it names, if any. -/
def Entry.Names (e : Entry) (stream : Option String) : Prop :=
  (∃ part text, e.payload = .piece part stream text) ∨
    ∃ content thinking, e.payload = .assistantMessage stream content thinking

namespace Message

/-- A message after an entry that goes to it. A closed one stays as it is. -/
def take (m : Message) (e : Entry) : Message :=
  if m.isLive then
    match e.payload with
    | .contentDelta _ text => m.grow .content text
    | .thinkingDelta _ text => m.grow .thinking text
    | .assistantMessage stream content thinking => m.close stream content thinking
    | _ => m
  else m

@[simp] theorem stream_grow (m : Message) (part : Part) (delta : String) :
    (m.grow part delta).stream = m.stream := by
  cases part <;> rfl

@[simp] theorem sequence_grow (m : Message) (part : Part) (delta : String) :
    (m.grow part delta).sequence = m.sequence := by
  cases part <;> rfl

@[simp] theorem stream_begin (e : Entry) (stream : Option String) (part : Part) (text : String) :
    (Message.begin e stream part text).stream = stream :=
  stream_grow _ _ _

@[simp] theorem sequence_begin (e : Entry) (stream : Option String) (part : Part) (text : String) :
    (Message.begin e stream part text).sequence = e.sequence :=
  sequence_grow _ _ _

theorem take_of_closed {m : Message} (h : m.isLive = false) (e : Entry) : m.take e = m := by
  rw [take, h]
  rfl

theorem take_piece {m : Message} {e : Entry} {part : Part} {stream : Option String} {text : String}
    (h : m.isLive = true) (he : e.payload = .piece part stream text) :
    m.take e = m.grow part text := by
  rw [take, h, if_pos rfl, he]
  cases part <;> rfl

theorem take_stored {m : Message} {e : Entry} {stream : Option String} {content : String}
    {thinking : Option String} (h : m.isLive = true)
    (he : e.payload = .assistantMessage stream content thinking) :
    m.take e = m.close stream content thinking := by
  rw [take, h, if_pos rfl, he]

end Message

namespace Transcript

/-- The first entry of a message names this stream, or none. -/
def Begins (entries : List Entry) (m : Message) (stream : Option String) : Prop :=
  ∃ e ∈ entries, e.sequence = m.sequence ∧ e.Names stream

/-- No two messages are of one stream. -/
def StreamsApart (t : Transcript) : Prop :=
  ∀ p q m n id, t.message? p = some m → t.message? q = some n → m.stream = some id →
    n.stream = some id → p = q

/-- In the second transcript a message is of a stream that was not of it in the first. -/
def Gains (t t' : Transcript) (id : String) : Prop :=
  ∃ place m, t'.message? place = some m ∧ m.stream = some id ∧
    ∀ m₀, t.message? place = some m₀ → m₀.stream ≠ some id

/-- The message to which an agent last added a piece is closed, and no stream is known of it. -/
def IsStaleUnnamed (t : Transcript) (agent : String) : Prop :=
  ∃ place m, t.liveBy.get? agent = some place ∧ t.message? place = some m ∧ m.isLive = false ∧
    m.stream = none

/-- What becomes of an entry that names a stream, after some others. -/
structure StreamFate (before : List Entry) (e : Entry) (id : String) : Prop where
  /-- It goes to the message that began with the stream, and nothing else changes. -/
  message?_step : ∀ place m, (upTo before).message? place = some m → m.stream = some id →
    Begins before m (some id) →
    ∀ q, ((upTo before).step e).message? q
      = if q = place then some (m.take e) else (upTo before).message? q
  /-- Without such a message the stream gets one more, unless a stored form is taken for a
  repetition. -/
  gains_iff : (upTo before).Gains ((upTo before).step e) id ↔
    (∀ place m, (upTo before).message? place = some m → m.stream = some id →
      ¬ Begins before m (some id)) ∧
    ¬ (e.IsStored ∧ (upTo before).IsStaleUnnamed e.agent)

/-- Of two messages of a stream the earlier one began without a stream, and what names a stream
goes to the message that began with it. -/
structure FollowsStreams (timeline : List Entry) : Prop where
  begins_none_of_lt : ∀ p q m n id, p < q → (upTo timeline).message? p = some m →
    (upTo timeline).message? q = some n → m.stream = some id → n.stream = some id →
    Begins timeline m none
  fate : ∀ before e after id, timeline = before ++ e :: after → e.Names (some id) →
    StreamFate before e id

variable {t : Transcript} {e : Entry} {id : String} {place p q : Nat} {m m' n : Message}

/-! ## First entries -/

theorem Begins.mono {entries : List Entry} {stream : Option String} (h : Begins entries m stream)
    (hsequence : m'.sequence = m.sequence) (e : Entry) : Begins (entries ++ [e]) m' stream := by
  obtain ⟨x, hx, hxsequence, hnames⟩ := h
  exact ⟨x, List.mem_append_left _ hx, hxsequence.trans hsequence.symm, hnames⟩

private theorem eq_of_names {stream stream' : Option String} (h : e.Names stream)
    (h' : e.Names stream') :
    stream = stream' := by
  rcases h with ⟨part, text, he⟩ | ⟨content, thinking, he⟩
  · rcases h' with ⟨part', text', he'⟩ | ⟨content', thinking', he'⟩
    · rw [he] at he'
      cases part <;> cases part' <;> cases he' <;> rfl
    · rw [he] at he'
      cases part <;> cases he'
  · rcases h' with ⟨part', text', he'⟩ | ⟨content', thinking', he'⟩
    · rw [he] at he'
      cases part' <;> cases he'
    · rw [he] at he'
      cases he'
      rfl

/-- Numbers tell entries apart, so a message has one first entry. -/
theorem Begins.unique {entries : List Entry} {stream stream' : Option String}
    (hrising : entries.Pairwise fun a b ↦ a.sequence < b.sequence) (h : Begins entries m stream)
    (h' : Begins entries m stream') : stream = stream' := by
  obtain ⟨x, hx, hxsequence, hnames⟩ := h
  obtain ⟨y, hy, hysequence, hnames'⟩ := h'
  have hnodup : (entries.map Entry.sequence).Nodup :=
    List.pairwise_map.mpr (hrising.imp UInt64.ne_of_lt)
  obtain rfl : x = y :=
    List.inj_on_of_nodup_map hnodup hx hy (hxsequence.trans hysequence.symm)
  exact eq_of_names hnames hnames'

/-! ## What an entry does to streams -/

private theorem get?_byStream_add (t : Transcript) (m : Message) (id : String) :
    (t.add m).byStream.get? id
      = if m.stream = some id then some t.items.size else t.byStream.get? id := by
  rw [add]
  dsimp only
  split
  · next id' hid' =>
    rw [Table.get?_insert, hid']
    simp only [Option.some_inj, eq_comm]
  · next hnone =>
    rw [hnone]
    rfl

/-- A stored form goes where the table of streams leads. -/
theorem placeOfStored_of_byStream (h : t.byStream.get? id = some place) (e : Entry) :
    t.placeOfStored e (some id) = some place := by
  rw [placeOfStored, Option.bind_some, h, Option.some_or]

/-- Without the table, a stored form that names a stream goes to its agent's message if no stream
is known of that. -/
theorem placeOfStored_eq_some_iff (h : t.byStream.get? id = none) (e : Entry) :
    t.placeOfStored e (some id) = some place ↔
      t.liveBy.get? e.agent = some place ∧ ∃ m, t.message? place = some m ∧ m.stream = none := by
  rw [placeOfStored, Option.bind_some, h, Option.none_or, Option.bind_eq_some_iff]
  constructor
  · rintro ⟨place', hplace', hplace⟩
    split at hplace
    · next m hm =>
      split at hplace
      · next hnone =>
        rw [Option.some_inj] at hplace
        subst hplace
        exact ⟨hplace', m, hm, Option.isNone_iff_eq_none.mp hnone⟩
      · cases hplace
    · cases hplace
  · rintro ⟨hplace, m, hm, hnone⟩
    refine ⟨place, hplace, ?_⟩
    rw [hm]
    dsimp only
    rw [hnone]
    rfl

/-- What an entry does to streams: nothing, or it gives a message a stream that the table does not
know elsewhere, or it adds a message. -/
inductive StreamEffect (t : Transcript) (e : Entry) : Transcript → Prop
  | keep {u : Transcript} (hbyStream : u.byStream = t.byStream)
      (hmessage : ∀ q m', u.message? q = some m' → ∃ m, t.message? q = some m ∧
        m'.sequence = m.sequence ∧ m'.stream = m.stream) : StreamEffect t e u
  | takeOver {u : Transcript} {place : Nat} {m m' : Message} {id : String}
      (hbyStream : u.byStream = t.byStream) (hm : t.message? place = some m)
      (hnone : m.stream = none) (hsequence : m'.sequence = m.sequence)
      (hstream : m'.stream = some id) (hplace : ∀ p, t.byStream.get? id = some p → p = place)
      (hmessage : ∀ q, u.message? q = if q = place then some m' else t.message? q) :
      StreamEffect t e u
  | add {u : Transcript} {m : Message} (hsequence : m.sequence = e.sequence)
      (hnames : e.Names m.stream) (hunknown : ∀ id, m.stream = some id → t.byStream.get? id = none)
      (hbyStream : ∀ id, u.byStream.get? id
        = if m.stream = some id then some t.items.size else t.byStream.get? id)
      (hmessage : ∀ q, u.message? q = if q = t.items.size then some m else t.message? q) :
      StreamEffect t e u

theorem StreamEffect.keep_self (t : Transcript) (e : Entry) : t.StreamEffect e t :=
  .keep rfl fun _ m' hm' ↦ ⟨m', hm', rfl, rfl⟩

private theorem streamEffect_close {stream : Option String} {content : String}
    {thinking : Option String} (he : e.payload = .assistantMessage stream content thinking)
    (hplace : t.placeOfStored e stream = some place) (hm : t.message? place = some m) :
    t.StreamEffect e (t.settle e place m (m.close stream content thinking)) := by
  cases hlive : m.isLive with
  | false =>
    refine .keep (by rw [settle, hlive]; rfl) fun q m' hm' ↦ ?_
    rw [message?_settle_of_closed hlive] at hm'
    exact ⟨m', hm', rfl, rfl⟩
  | true =>
    have hbyStream : (t.settle e place m (m.close stream content thinking)).byStream
        = t.byStream := by
      rw [settle, hlive]
      rfl
    have hmessage : ∀ q, (t.settle e place m (m.close stream content thinking)).message? q
        = if q = place then some (m.close stream content thinking) else t.message? q := by
      intro q
      rw [message?_settle hm, hlive]
      rfl
    by_cases hsame : m.stream.or stream = m.stream
    · refine .keep hbyStream fun q m' hm' ↦ ?_
      rw [hmessage] at hm'
      split at hm'
      · next hq =>
        rw [← Option.some.inj hm']
        exact ⟨m, hq ▸ hm, rfl, hsame⟩
      · exact ⟨m', hm', rfl, rfl⟩
    · -- the message has no stream and the stored form has one
      have hnone : m.stream = none := by
        by_contra hne
        exact hsame (Option.or_of_isSome (Option.isSome_iff_ne_none.mpr hne))
      rw [hnone, Option.none_or] at hsame
      obtain ⟨id, rfl⟩ := Option.ne_none_iff_exists'.mp hsame
      have hstream : (m.close (some id) content thinking).stream = some id := by
        rw [Message.close, hnone, Option.none_or]
      have hsequence : (m.close (some id) content thinking).sequence = m.sequence := rfl
      refine .takeOver hbyStream hm hnone hsequence hstream (fun p hp ↦ ?_) hmessage
      · rw [placeOfStored_of_byStream hp, Option.some_inj] at hplace
        exact hplace

private theorem streamEffect_step (t : Transcript) (e : Entry) : t.StreamEffect e (t.step e) := by
  have heffect := t.effect_step e
  generalize t.step e = u at heffect ⊢
  cases heffect with
  | pass _ _ =>
    refine .keep rfl fun q m' hm' ↦ ⟨m', ?_, rfl, rfl⟩
    rwa [message?_pass] at hm'
  | @grow part _ text place m _ _ hm _ =>
    refine .keep rfl fun q m' hm' ↦ ?_
    rw [message?_touch, message?_replace hm] at hm'
    split at hm'
    · next hq =>
      rw [← Option.some.inj hm']
      exact ⟨m, hq ▸ hm, m.sequence_grow part text, m.stream_grow part text⟩
    · exact ⟨m', hm', rfl, rfl⟩
  | @begin part stream text he hplace =>
    refine .add (Message.sequence_begin e stream part text) ?_ ?_ (get?_byStream_add t _)
      (message?_add t _)
    · rw [Message.stream_begin]
      exact Or.inl ⟨part, text, he⟩
    · intro id hid
      rw [Message.stream_begin] at hid
      rwa [hid] at hplace
  | ignorePiece _ _ _ => exact .keep_self t e
  | close he hplace hm => exact streamEffect_close he hplace hm
  | @stand stream content thinking he hplace _ =>
    refine .add rfl (Or.inr ⟨content, thinking, he⟩) (fun id hid ↦ ?_) (get?_byStream_add t _)
      (message?_add t _)
    obtain rfl : stream = some id := hid
    rw [placeOfStored, Option.bind_some, Option.or_eq_none_iff] at hplace
    exact hplace.1
  | ignoreStored _ _ _ => exact .keep_self t e

/-! ## The invariant -/

/-- The table of streams leads to the last message of a stream, and what it does not know began
without a stream. -/
structure Indexed (entries : List Entry) : Prop where
  known : ∀ id p, (upTo entries).byStream.get? id = some p →
    ∃ m, (upTo entries).message? p = some m ∧ m.stream = some id ∧ Begins entries m (some id)
  le_known : ∀ id p q n, (upTo entries).byStream.get? id = some p →
    (upTo entries).message? q = some n → n.stream = some id → q ≤ p
  named : ∀ id p m, (upTo entries).message? p = some m → m.stream = some id →
    (upTo entries).byStream.get? id = some p ∨ Begins entries m none
  unnamed : ∀ p m, (upTo entries).message? p = some m → m.stream = none → Begins entries m none

theorem indexed_nil : Indexed [] where
  known id p h := by cases h
  le_known id p q n h := by cases h
  named id p m h := by cases h
  unnamed p m h := by cases h

section Concat

variable {before : List Entry}

theorem streamEffect_concat (before : List Entry) (e : Entry) :
    (upTo before).StreamEffect e (upTo (before ++ [e])) := by
  rw [upTo_concat]
  exact (upTo before).streamEffect_step e

/-- Where the table leads, it leads after one more entry. -/
theorem Indexed.exists_of_byStream (h : Indexed before)
    (hp : (upTo before).byStream.get? id = some p) (e : Entry) :
    ∃ m, (upTo (before ++ [e])).message? p = some m ∧ m.stream = some id ∧
      Begins (before ++ [e]) m (some id) := by
  obtain ⟨m, hm, hid, hbegins⟩ := h.known id p hp
  obtain ⟨m', hm', hevolves⟩ := exists_message?_of_grows (grows_step (upTo before) e) hm
  rw [← upTo_concat] at hm'
  exact ⟨m', hm', hevolves.stream_eq id hid, hbegins.mono hevolves.sequence_eq e⟩

theorem Indexed.known_concat (h : Indexed before) (e : Entry)
    (hp : (upTo (before ++ [e])).byStream.get? id = some p) :
    ∃ m, (upTo (before ++ [e])).message? p = some m ∧ m.stream = some id ∧
      Begins (before ++ [e]) m (some id) := by
  cases streamEffect_concat before e with
  | keep hbyStream _ => exact h.exists_of_byStream (hbyStream ▸ hp) e
  | takeOver hbyStream _ _ _ _ _ _ => exact h.exists_of_byStream (hbyStream ▸ hp) e
  | @add m hsequence hnames _ hbyStream hmessage =>
    rw [hbyStream] at hp
    split at hp
    · next hid =>
      have hbegins : Begins (before ++ [e]) m m.stream :=
        ⟨e, List.mem_append_right _ List.mem_cons_self, hsequence.symm, hnames⟩
      refine ⟨m, ?_, hid, hid ▸ hbegins⟩
      rw [hmessage, if_pos (Option.some.inj hp).symm]
    · exact h.exists_of_byStream hp e

theorem Indexed.le_known_concat (h : Indexed before) (e : Entry)
    (hp : (upTo (before ++ [e])).byStream.get? id = some p)
    (hn : (upTo (before ++ [e])).message? q = some n) (hid : n.stream = some id) : q ≤ p := by
  cases streamEffect_concat before e with
  | keep hbyStream hmessage =>
    rw [hbyStream] at hp
    obtain ⟨n₀, hn₀, -, hstream⟩ := hmessage q n hn
    exact h.le_known id p q n₀ hp hn₀ (hstream ▸ hid)
  | @takeOver place m m' id' hbyStream _ _ _ hstream hplace hmessage =>
    rw [hbyStream] at hp
    rw [hmessage] at hn
    split at hn
    · -- a message is taken over only where the table leads, or where it leads nowhere
      next hq =>
      rw [← Option.some.inj hn, hstream, Option.some_inj] at hid
      rw [hplace p (hid ▸ hp), hq]
    · exact h.le_known id p q n hp hn hid
  | add _ _ _ hbyStream hmessage =>
    rw [hbyStream] at hp
    rw [hmessage] at hn
    split at hp
    · rw [← Option.some.inj hp]
      split at hn
      · next hq => exact hq.le
      · exact (lt_size_of_message? hn).le
    · next hne =>
      split at hn
      · rw [← Option.some.inj hn] at hid
        exact absurd hid hne
      · exact h.le_known id p q n hp hn hid

theorem Indexed.named_concat (h : Indexed before) (e : Entry)
    (hn : (upTo (before ++ [e])).message? p = some n) (hid : n.stream = some id) :
    (upTo (before ++ [e])).byStream.get? id = some p ∨ Begins (before ++ [e]) n none := by
  cases streamEffect_concat before e with
  | keep hbyStream hmessage =>
    obtain ⟨n₀, hn₀, hsequence, hstream⟩ := hmessage p n hn
    rw [hbyStream]
    exact (h.named id p n₀ hn₀ (hstream ▸ hid)).imp_right fun hbegins ↦ hbegins.mono hsequence e
  | @takeOver place m m' id' hbyStream hm hnone hsequence hstream _ hmessage =>
    rw [hbyStream]
    rw [hmessage] at hn
    split at hn
    · rw [← Option.some.inj hn]
      exact Or.inr ((h.unnamed place m hm hnone).mono hsequence e)
    · exact (h.named id p n hn hid).imp_right fun hbegins ↦ hbegins.mono rfl e
  | add _ _ hunknown hbyStream hmessage =>
    rw [hmessage] at hn
    rw [hbyStream]
    split at hn
    · next hp =>
      rw [Option.some.inj hn, if_pos hid, hp]
      exact Or.inl rfl
    · refine (h.named id p n hn hid).imp (fun hp ↦ ?_) fun hbegins ↦ hbegins.mono rfl e
      -- the table did not know the stream of the new message, so it does not turn away from `p`
      split
      · next hm =>
        rw [hunknown id hm] at hp
        cases hp
      · exact hp

theorem Indexed.unnamed_concat (h : Indexed before) (e : Entry)
    (hn : (upTo (before ++ [e])).message? p = some n) (hnone : n.stream = none) :
    Begins (before ++ [e]) n none := by
  cases streamEffect_concat before e with
  | keep _ hmessage =>
    obtain ⟨n₀, hn₀, hsequence, hstream⟩ := hmessage p n hn
    exact (h.unnamed p n₀ hn₀ (hstream ▸ hnone)).mono hsequence e
  | takeOver _ _ _ _ hstream _ hmessage =>
    rw [hmessage] at hn
    split at hn
    · rw [← Option.some.inj hn, hstream] at hnone
      cases hnone
    · exact (h.unnamed p n hn hnone).mono rfl e
  | @add m hsequence hnames _ _ hmessage =>
    rw [hmessage] at hn
    split at hn
    · obtain rfl : m = n := Option.some.inj hn
      rw [hnone] at hnames
      exact ⟨e, List.mem_append_right _ List.mem_cons_self, hsequence.symm, hnames⟩
    · exact (h.unnamed p n hn hnone).mono rfl e

/-- **One entry** keeps the invariant. -/
theorem Indexed.concat (h : Indexed before) (e : Entry) : Indexed (before ++ [e]) where
  known _ _ hp := h.known_concat e hp
  le_known _ _ _ _ hp hn hid := h.le_known_concat e hp hn hid
  named _ _ _ hn hid := h.named_concat e hn hid
  unnamed _ _ hn hnone := h.unnamed_concat e hn hnone

end Concat

theorem indexed_upTo (entries : List Entry) : Indexed entries := by
  induction entries using List.reverseRecOn with
  | nil => exact indexed_nil
  | append_singleton before e ih => exact ih.concat e

/-! ## Entries that name a stream -/

/-- The table leads to a message exactly if it is of the stream and began with it. -/
theorem Indexed.byStream_eq_some {before : List Entry} (h : Indexed before)
    (hrising : before.Pairwise fun a b ↦ a.sequence < b.sequence)
    (hm : (upTo before).message? place = some m) (hid : m.stream = some id)
    (hbegins : Begins before m (some id)) : (upTo before).byStream.get? id = some place := by
  refine (h.named id place m hm hid).resolve_right fun hnone ↦ ?_
  cases hbegins.unique hrising hnone

theorem items_replace_self (hm : t.message? place = some m) :
    (t.replace place m).items = t.items := by
  have hmap : (t.replace place m).items.toList.map id = t.items.toList.map id := map_replace hm rfl
  rw [List.map_id, List.map_id] at hmap
  exact Array.toList_inj.mp hmap

/-- What the table leads to takes the entry in. -/
theorem items_step_of_byStream (hnames : e.Names (some id))
    (hplace : t.byStream.get? id = some place) (hm : t.message? place = some m) :
    (t.step e).items = (t.replace place (m.take e)).items := by
  rcases hnames with ⟨part, text, he⟩ | ⟨content, thinking, he⟩
  · rw [step_piece he]
    rcases t.delta_cases e (some id) part text with
      ⟨place', m', hplace', hm', hlive, heq⟩ | ⟨place', hplace', hclosed, heq⟩ | ⟨hnone, -⟩
    · obtain rfl : place' = place := Option.some.inj (hplace'.symm.trans hplace)
      obtain rfl : m' = m := Option.some.inj (hm'.symm.trans hm)
      rw [heq, Message.take_piece hlive he]
      rfl
    · obtain rfl : place' = place := Option.some.inj (hplace'.symm.trans hplace)
      rw [heq, Message.take_of_closed (hclosed m hm), items_replace_self hm]
    · exact absurd (hplace.symm.trans hnone) (Option.some_ne_none place)
  · have hstored := placeOfStored_of_byStream hplace e
    rw [step_stored he]
    rcases t.stored_cases e (some id) content thinking with
      ⟨place', m', hplace', hm', heq⟩ | ⟨hnone, -, -⟩ | ⟨hnone, -, -⟩
    · obtain rfl : place' = place := Option.some.inj (hplace'.symm.trans hstored)
      obtain rfl : m' = m := Option.some.inj (hm'.symm.trans hm)
      rw [heq, settle]
      cases hlive : m'.isLive with
      | true => rw [Message.take_stored hlive he]; rfl
      | false => rw [Message.take_of_closed hlive, items_replace_self hm]; rfl
    · exact absurd (hm.symm.trans (hnone place hstored)) (Option.some_ne_none m)
    · exact absurd (hstored.symm.trans hnone) (Option.some_ne_none place)

/-- Nothing else changes. -/
theorem message?_step_of_byStream (hnames : e.Names (some id))
    (hplace : t.byStream.get? id = some place) (hm : t.message? place = some m) (q : Nat) :
    (t.step e).message? q = if q = place then some (m.take e) else t.message? q := by
  rw [← message?_replace hm, message?, message?, items_step_of_byStream hnames hplace hm]

private theorem not_gains_of_byStream (hnames : e.Names (some id))
    (hplace : t.byStream.get? id = some place) (hm : t.message? place = some m)
    (hid : m.stream = some id) : ¬ t.Gains (t.step e) id := by
  rintro ⟨q, n, hn, hnid, hold⟩
  rw [message?_step_of_byStream hnames hplace hm] at hn
  split at hn
  · next hq => exact hold m (hq ▸ hm) hid
  · exact hold n hn hnid

theorem gains_of_add {u : Transcript}
    (hmessage : ∀ q, u.message? q = if q = t.items.size then some m else t.message? q)
    (hid : m.stream = some id) : t.Gains u id := by
  refine ⟨t.items.size, m, (hmessage _).trans (if_pos rfl), hid, fun m₀ hm₀ ↦ ?_⟩
  rw [message?_size] at hm₀
  cases hm₀

/-- A message without a stream gets one from the stored form that closes it, if it was live. -/
theorem gains_settle_iff (hm : t.message? place = some m) (hunnamed : m.stream = none) (e : Entry)
    (content : String) (thinking : Option String) :
    t.Gains (t.settle e place m (m.close (some id) content thinking)) id ↔ m.isLive = true := by
  constructor
  · rintro ⟨q, n, hn, hid, hold⟩
    by_contra hclosed
    rw [message?_settle_of_closed (Bool.not_eq_true _ ▸ hclosed)] at hn
    exact hold n hn hid
  · intro hlive
    refine ⟨place, m.close (some id) content thinking, ?_, ?_, fun m₀ hm₀ ↦ ?_⟩
    · rw [message?_settle hm, if_pos rfl, hlive, if_pos rfl]
    · rw [Message.close, hunnamed, Option.none_or]
    · rw [hm, Option.some_inj] at hm₀
      rw [← hm₀, hunnamed]
      exact (Option.some_ne_none id).symm

private theorem isStaleUnnamed_iff {agent : String} (hpoints : t.liveBy.get? agent = some place)
    (hm : t.message? place = some m) (hunnamed : m.stream = none) :
    t.IsStaleUnnamed agent ↔ m.isLive = false := by
  constructor
  · rintro ⟨q, n, hq, hn, hclosed, -⟩
    obtain rfl : q = place := Option.some.inj (hq.symm.trans hpoints)
    obtain rfl : n = m := Option.some.inj (hn.symm.trans hm)
    exact hclosed
  · intro hclosed
    exact ⟨place, m, hpoints, hm, hclosed, hunnamed⟩

/-- A stored form with a stream that the table does not know gives the stream one more message,
unless it is taken for a repetition. -/
theorem gains_iff_of_stored {content : String} {thinking : Option String}
    (he : e.payload = .assistantMessage (some id) content thinking)
    (hpassed : t.isPassed e.sequence = false) (hnone : t.byStream.get? id = none) :
    t.Gains (t.step e) id ↔ ¬ t.IsStaleUnnamed e.agent := by
  rw [step_stored he]
  rcases t.stored_cases e (some id) content thinking with
    ⟨place, m, hplace, hm, heq⟩ | ⟨hplace, hlate, -⟩ | ⟨hplace, -, heq⟩
  · -- it closes the message of its agent, which is of no stream
    obtain ⟨hpoints, m', hm', hunnamed⟩ := (placeOfStored_eq_some_iff hnone e).mp hplace
    obtain rfl : m' = m := Option.some.inj (hm'.symm.trans hm)
    rw [heq, gains_settle_iff hm hunnamed, isStaleUnnamed_iff hpoints hm hunnamed,
      Bool.not_eq_false]
  · -- it is neither late nor without a message
    exfalso
    cases hstands : t.placeOfStored e (some id) with
    | none =>
      rw [hlate hstands] at hpassed
      cases hpassed
    | some place =>
      obtain ⟨-, m, hm, -⟩ := (placeOfStored_eq_some_iff hnone e).mp hstands
      rw [hplace place hstands] at hm
      cases hm
  · rw [heq]
    refine iff_of_true (gains_of_add (message?_add t _) rfl) ?_
    rintro ⟨q, n, hq, hn, -, hunnamed⟩
    have hsome := (placeOfStored_eq_some_iff hnone e).mpr ⟨hq, n, hn, hunnamed⟩
    exact absurd (hsome.symm.trans hplace) (Option.some_ne_none q)

/-- What the table does not know gets one more message, unless it is taken for a repetition. -/
theorem gains_iff_of_byStream_eq_none (hpassed : t.isPassed e.sequence = false)
    (hnames : e.Names (some id)) (hnone : t.byStream.get? id = none) :
    t.Gains (t.step e) id ↔ ¬ (e.IsStored ∧ t.IsStaleUnnamed e.agent) := by
  rcases hnames with ⟨part, text, he⟩ | ⟨content, thinking, he⟩
  · have hstored : ¬ e.IsStored := by
      rintro ⟨stream, content, thinking, he'⟩
      rw [he] at he'
      cases part <;> cases he'
    rw [step_piece he, delta, placeOfDelta, hnone]
    exact iff_of_true (gains_of_add (message?_add t _) (Message.stream_begin ..))
      fun h ↦ hstored h.1
  · have hstored : e.IsStored := ⟨some id, content, thinking, he⟩
    rw [gains_iff_of_stored he hpassed hnone, and_iff_right hstored]

/-! ## All entries -/

private theorem streamFate {before : List Entry}
    (hrising : before.Pairwise fun a b ↦ a.sequence < b.sequence)
    (hbelow : ∀ x ∈ before, x.sequence < e.sequence) (hnames : e.Names (some id)) :
    StreamFate before e id := by
  have h := indexed_upTo before
  refine ⟨fun place m hm hid hbegins ↦ ?_, ?_⟩
  · exact message?_step_of_byStream hnames (h.byStream_eq_some hrising hm hid hbegins) hm
  · cases hplace : (upTo before).byStream.get? id with
    | some place =>
      obtain ⟨m, hm, hid, hbegins⟩ := h.known id place hplace
      exact iff_of_false (not_gains_of_byStream hnames hplace hm hid) fun hunknown ↦
        hunknown.1 place m hm hid hbegins
    | none =>
      have hpassed : (upTo before).isPassed e.sequence = false :=
        isPassed_upTo_eq_false hbelow
      refine (gains_iff_of_byStream_eq_none hpassed hnames hplace).trans
        (iff_and_self.mpr fun _ place m hm hid hbegins ↦ ?_)
      rw [h.byStream_eq_some hrising hm hid hbegins] at hplace
      cases hplace

/-- Of two messages of a stream the table leads to the later one or to neither. -/
theorem Indexed.begins_none_of_lt {entries : List Entry} (h : Indexed entries) (hpq : p < q)
    (hm : (upTo entries).message? p = some m) (hn : (upTo entries).message? q = some n)
    (hid : m.stream = some id) (hnid : n.stream = some id) : Begins entries m none :=
  (h.named id p m hm hid).resolve_left fun hp ↦
    Nat.not_lt_of_le (h.le_known id p q n hp hn hnid) hpq

/-- **Streams.** A stream has more than one message only through messages that were taken over, and
gets one exactly when something names it while no message that began with it is there. -/
theorem followsStreams_ofEvents (session : String) (events : List Event) (options : Options) :
    FollowsStreams (Timeline.ofEvents session events options) where
  begins_none_of_lt p q m n id hpq hm hn hid hnid :=
    (indexed_upTo _).begins_none_of_lt hpq hm hn hid hnid
  fate before e after id htimeline hnames := by
    have hrising := Timeline.pairwise_ofEvents session events options
    rw [htimeline, List.pairwise_append] at hrising
    exact streamFate hrising.1 (fun x hx ↦ hrising.2.2 x hx e List.mem_cons_self) hnames

/-- Where every piece and stored form names its stream, streams have one message each. -/
theorem streamsApart_of_named {entries : List Entry} (h : ∀ e ∈ entries, ¬ e.Names none) :
    (upTo entries).StreamsApart := by
  have hbegins : ∀ m, ¬ Begins entries m none := fun m ⟨e, he, _, hnames⟩ ↦ h e he hnames
  intro p q m n id hm hn hid hnid
  have hindexed := indexed_upTo entries
  rcases Nat.lt_trichotomy p q with hlt | heq | hlt
  · exact absurd (hindexed.begins_none_of_lt hlt hm hn hid hnid) (hbegins m)
  · exact heq
  · exact absurd (hindexed.begins_none_of_lt hlt hn hm hnid hid) (hbegins n)

/-- A piece without a stream, its stored form with one, and the stored form once more. -/
def takenOver : List Event :=
  [⟨1, "s1", some "worker", some 1000, .contentDelta none "Let me see."⟩,
   ⟨2, "s1", some "worker", some 2000, .assistantMessage (some "m1") "Let me see." none⟩,
   ⟨3, "s1", some "worker", some 3000, .assistantMessage (some "m1") "Let me see." none⟩]

/-- The stream has two messages. -/
theorem not_streamsApart_takenOver :
    ¬ (upTo (Timeline.ofEvents "s1" takenOver default)).StreamsApart := by
  have htimeline : Timeline.ofEvents "s1" takenOver default =
      [⟨⟨1, "s1", some "worker", some 1000, .contentDelta none "Let me see."⟩, "worker", 1000⟩,
       ⟨⟨2, "s1", some "worker", some 2000, .assistantMessage (some "m1") "Let me see." none⟩,
          "worker", 2000⟩,
       ⟨⟨3, "s1", some "worker", some 3000, .assistantMessage (some "m1") "Let me see." none⟩,
          "worker", 3000⟩] := by
    rw [Timeline.ofEvents, Timeline.admitted_eq_self (by decide) (by decide)]
    rfl
  rw [htimeline]
  intro h
  exact absurd (h 0 1 ⟨"worker", 1, 1000, some "m1", "Let me see.", "", false, 1⟩
    ⟨"worker", 3, 3000, some "m1", "Let me see.", "", false, 0⟩ "m1" rfl rfl rfl rfl) (by decide)

end Transcript

end SessionReplay
