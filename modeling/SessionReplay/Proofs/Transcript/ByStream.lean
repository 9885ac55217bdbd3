import Mathlib.Data.List.TakeWhile
import SessionReplay.Proofs.Firsts
import SessionReplay.Proofs.Transcript.Streams

/-!
# Transcripts stream by stream

Where every piece and every stored form names its stream, a transcript can be told without saying
how it is made. A stream has one message, where the first entry stands that names it, and what the
message says is a matter of the entries that name the stream: the pieces up to the first stored
form, and that form. Every other entry stands for itself. This is `Transcript.streamwise`, and
`Transcript.ofEvents_eq_streamwise` says that it is the transcript.

## One entry on both sides

The two are compared entry by entry. On the one side, one more entry goes to the message to which
the table of streams leads. On the other side it changes the message of its stream, wherever that
stands, and may be the first of a new one. These are the same change, `Item.told`, because no two
messages have one stream, and the same addition, because the table knows the streams that were
named.
-/

namespace SessionReplay

namespace Payload

/-- The text that a piece adds to a part of its message. -/
def delta? : Message.Part → Payload → Option String
  | .content, .contentDelta _ text => some text
  | .thinking, .thinkingDelta _ text => some text
  | _, _ => none

/-- The content and the thinking of a stored form. -/
def stored? : Payload → Option (String × Option String)
  | .assistantMessage _ content thinking => some (content, thinking)
  | _ => none

end Payload

/-- The stream that an entry names. -/
def Entry.stream? (e : Entry) : Option String := e.payload.stream?.join

namespace Message

/-- A message of a stream to which nothing was added yet. -/
def blank (first : Entry) (id : String) : Message :=
  ⟨first.agent, first.sequence, first.time, some id, "", "", true, 0⟩

/-- The message that is made of the entries that name its stream. The content of the stored form
replaces that of the pieces unless it is empty, its thinking stands in only if the pieces have
none. -/
def ofNaming (first : Entry) (id : String) (naming : List Entry) : Message :=
  let pieces := naming.takeWhile fun e ↦ e.payload.stored?.isNone
  let stored := naming.findSome? fun e ↦ e.payload.stored?
  let text (part : Part) := String.join (pieces.filterMap fun e ↦ e.payload.delta? part)
  let content := (stored.map Prod.fst).getD ""
  { agent := first.agent
    sequence := first.sequence
    time := first.time
    stream := some id
    content := if content = "" then text .content else content
    thinking := if text .thinking = "" then (stored.bind Prod.snd).getD "" else text .thinking
    isLive := stored.isNone
    deltas := pieces.length }

/-- The message of a stream in a timeline, which begins with its first entry. -/
def ofStream (timeline : List Entry) (first : Entry) (id : String) : Message :=
  ofNaming first id (timeline.filter fun e ↦ e.stream? == some id)

end Message

/-- What a timeline shows for an entry: the message of the stream that it names, or the entry
itself. -/
def Item.shown (timeline : List Entry) (e : Entry) : Item :=
  match e.stream? with
  | some id => .message (.ofStream timeline e id)
  | none => .event e

/-- A timeline with one message for each stream, where the stream is first named. -/
def Transcript.streamwise (timeline : List Entry) : List Item :=
  (firstOfEach Entry.stream? timeline).map (Item.shown timeline)

variable {e first : Entry} {id : String} {naming timeline : List Entry}

theorem Entry.names_iff {stream : Option String} :
    e.Names stream ↔ e.payload.stream? = some stream := by
  constructor
  · rintro (⟨part, text, he⟩ | ⟨content, thinking, he⟩)
    · rw [he, Transcript.stream?_piece]
    · rw [he, Payload.stream?]
  · intro h
    rw [Names]
    cases he : e.payload with
    | contentDelta stream' text =>
      rw [he, Payload.stream?, Option.some_inj] at h
      exact Or.inl ⟨.content, text, h ▸ rfl⟩
    | thinkingDelta stream' text =>
      rw [he, Payload.stream?, Option.some_inj] at h
      exact Or.inl ⟨.thinking, text, h ▸ rfl⟩
    | assistantMessage stream' content thinking =>
      rw [he, Payload.stream?, Option.some_inj] at h
      exact Or.inr ⟨content, thinking, h ▸ rfl⟩
    | _ =>
      rw [he] at h
      cases h

theorem Entry.stream?_eq_some_iff : e.stream? = some id ↔ e.Names (some id) := by
  rw [names_iff, stream?, Option.join_eq_some_iff]

namespace Message

/-! ## Messages made of entries -/

/-- To close a message to which nothing was added is to begin with the stored form. -/
theorem close_of_nothing (e : Entry) (stream stream' : Option String) (content : String)
    (thinking : Option String) :
    close ⟨e.agent, e.sequence, e.time, stream, "", "", true, 0⟩ stream' content thinking
      = Message.stored e (stream.or stream') content thinking := by
  have hcontent : (if content = "" then "" else content) = content := by
    split
    · next hempty => exact hempty.symm
    · rfl
  simp [close, Message.stored, hcontent]

private theorem take_blank_of_stored {content : String} {thinking : Option String}
    (he : e.payload = .assistantMessage (some id) content thinking) :
    (blank e id).take e = Message.stored e (some id) content thinking := by
  rw [take_stored rfl he]
  exact close_of_nothing ..

/-- Without a stored form the message is its pieces. -/
theorem ofNaming_of_pieces (h : ∀ e ∈ naming, e.payload.stored? = none) (first : Entry)
    (id : String) : ofNaming first id naming =
      { agent := first.agent
        sequence := first.sequence
        time := first.time
        stream := some id
        content := String.join (naming.filterMap fun e ↦ e.payload.delta? .content)
        thinking := String.join (naming.filterMap fun e ↦ e.payload.delta? .thinking)
        isLive := true
        deltas := naming.length } := by
  have hpieces : naming.takeWhile (fun e ↦ e.payload.stored?.isNone) = naming :=
    List.takeWhile_eq_self_iff.mpr fun e he ↦ by rw [h e he, Option.isNone_none]
  have hstored : naming.findSome? (fun e ↦ e.payload.stored?) = none :=
    List.findSome?_eq_none_iff.mpr h
  simp [ofNaming, hpieces, hstored]

/-- **One more entry** that names the stream goes to the message. -/
theorem ofNaming_concat (hnames : e.Names (some id)) :
    ofNaming first id (naming ++ [e]) = (ofNaming first id naming).take e := by
  cases hstored : naming.findSome? fun x ↦ x.payload.stored? with
  | some stored =>
    -- what comes after the first stored form changes nothing
    have hclosed : (ofNaming first id naming).isLive = false := by simp [ofNaming, hstored]
    have hpieces : (naming ++ [e]).takeWhile (fun x ↦ x.payload.stored?.isNone)
        = naming.takeWhile fun x ↦ x.payload.stored?.isNone := by
      rw [List.takeWhile_append, if_neg]
      intro hlength
      have hall := List.takeWhile_eq_self_iff.mp ((List.takeWhile_prefix _).eq_of_length hlength)
      obtain ⟨x, hx, hxstored⟩ := List.exists_of_findSome?_eq_some hstored
      have hxpiece := hall x hx
      rw [hxstored] at hxpiece
      cases hxpiece
    rw [take_of_closed hclosed]
    simp [ofNaming, hstored, hpieces, List.findSome?_append]
  | none =>
    have hopen : ∀ x ∈ naming, x.payload.stored? = none := List.findSome?_eq_none_iff.mp hstored
    rw [ofNaming_of_pieces hopen]
    rcases hnames with ⟨part, text, he⟩ | ⟨content, thinking, he⟩
    · have hpiece : e.payload.stored? = none := by
        rw [he]
        cases part <;> rfl
      have hopen' : ∀ x ∈ naming ++ [e], x.payload.stored? = none :=
        List.forall_mem_append.mpr ⟨hopen, List.forall_mem_singleton.mpr hpiece⟩
      rw [take_piece rfl he, ofNaming_of_pieces hopen']
      cases part <;> simp [he, grow, Payload.piece, Payload.delta?]
    · have hclosing : e.payload.stored? = some (content, thinking) := by rw [he, Payload.stored?]
      have hpieces : (naming ++ [e]).takeWhile (fun x ↦ x.payload.stored?.isNone) = naming := by
        rw [List.takeWhile_append_of_pos fun x hx ↦ by rw [hopen x hx, Option.isNone_none]]
        simp [hclosing]
      rw [take_stored rfl he]
      simp [ofNaming, hstored, hpieces, hclosing, close, List.findSome?_append]

theorem ofStream_concat (timeline : List Entry) (first e : Entry) (id : String) :
    ofStream (timeline ++ [e]) first id
      = if e.stream? = some id then (ofStream timeline first id).take e
        else ofStream timeline first id := by
  rw [ofStream, ofStream, List.filter_append]
  split
  · next hid =>
    rw [List.filter_cons_of_pos (by rw [hid, BEq.rfl]), List.filter_nil,
      ofNaming_concat (Entry.stream?_eq_some_iff.mp hid)]
  · next hid =>
    rw [List.filter_cons_of_neg (by simpa using hid), List.filter_nil, List.append_nil]

end Message

/-! ## Things that are shown -/

namespace Item

/-- The stream of a message. -/
def stream? : Item → Option String
  | .event _ => none
  | .message m => m.stream

/-- A thing after one more entry: the message of the stream that the entry names takes it in. -/
def told (e : Entry) : Item → Item
  | .event x => .event x
  | .message m =>
    if e.stream? ≠ none ∧ m.stream = e.stream? then .message (m.take e) else .message m

theorem stream?_shown (timeline : List Entry) (e : Entry) :
    (shown timeline e).stream? = e.stream? := by
  rw [shown]
  cases e.stream? <;> rfl

private theorem told_of_stream?_eq_none (h : e.stream? = none) (i : Item) : i.told e = i := by
  cases i with
  | event x => rfl
  | message m => rw [told, if_neg fun hm ↦ hm.1 h]

theorem told_of_stream?_ne {i : Item} (h : i.stream? ≠ e.stream?) : i.told e = i := by
  cases i with
  | event x => rfl
  | message m => rw [told, if_neg fun hm ↦ h hm.2]

theorem told_message {m : Message} (hid : e.stream? = some id) (hm : m.stream = some id) :
    (Item.message m).told e = .message (m.take e) := by
  rw [told, if_pos ⟨hid ▸ Option.some_ne_none id, hm.trans hid.symm⟩]

/-- What was shown for an entry is told of one more entry. -/
theorem shown_concat (timeline : List Entry) (e x : Entry) :
    shown (timeline ++ [e]) x = (shown timeline x).told e := by
  rw [shown, shown]
  cases x.stream? with
  | none => rfl
  | some id =>
    dsimp only
    rw [Message.ofStream_concat]
    split
    · next hid => rw [told_message hid rfl]
    · next hid => rw [told_of_stream?_ne (Ne.symm hid)]

end Item

namespace Transcript

/-- **One more entry** is taken in by the message of its stream, and is shown unless it has one. -/
theorem streamwise_concat (timeline : List Entry) (e : Entry) :
    streamwise (timeline ++ [e]) = (streamwise timeline).map (Item.told e) ++
      if e.stream? ≠ none ∧ ∃ x ∈ timeline, x.stream? = e.stream? then []
      else [Item.shown (timeline ++ [e]) e] := by
  have hshown : Item.shown (timeline ++ [e]) = Item.told e ∘ Item.shown timeline :=
    funext fun x ↦ Item.shown_concat timeline e x
  rw [streamwise, firstOfEach_concat, List.map_append, streamwise, List.map_map, ← hshown]
  split <;> rfl

/-- A stream that was not named before gets a message of its one entry. -/
theorem streamwise_concat_of_new (hid : e.stream? = some id)
    (hnew : ∀ x ∈ timeline, x.stream? ≠ some id) :
    streamwise (timeline ++ [e]) = streamwise timeline ++
      [.message ((Message.blank e id).take e)] := by
  have hsame : ∀ i ∈ streamwise timeline, i.told e = i := by
    intro i hi
    obtain ⟨x, hx, rfl⟩ := List.mem_map.mp hi
    refine Item.told_of_stream?_ne ?_
    rw [Item.stream?_shown, hid]
    exact hnew x (mem_of_mem_firstOfEach hx)
  have hnaming : timeline.filter (fun x ↦ x.stream? == some id) = [] :=
    List.filter_eq_nil_iff.mpr fun x hx ↦ by simpa using hnew x hx
  have hshown : Item.shown (timeline ++ [e]) e = .message ((Message.blank e id).take e) := by
    rw [Item.shown, hid]
    dsimp only
    rw [Message.ofStream_concat, if_pos hid, Message.ofStream, hnaming]
    rfl
  rw [streamwise_concat, List.map_congr_left hsame, List.map_id', hshown, hid, if_neg]
  rintro ⟨-, x, hx, hxid⟩
  exact hnew x hx hxid

/-! ## The transcript -/

theorem step_of_stream?_eq_none {t : Transcript} (h : e.payload.stream? = none) :
    t.step e = t.pass e := by
  rw [step]
  split
  · next he => rw [he] at h; cases h
  · next he => rw [he] at h; cases h
  · next he => rw [he] at h; cases h
  · rfl

/-- To change the one element that a function changes is to map the function. -/
private theorem set_eq_map {α : Type} {xs : List α} {place : Nat} {x : α} {f : α → α}
    (hx : xs[place]? = some x) (hf : ∀ q y, xs[q]? = some y → q ≠ place → f y = y) :
    xs.set place (f x) = xs.map f := by
  refine List.ext_getElem? fun q ↦ ?_
  rw [List.getElem?_set, List.getElem?_map]
  split
  · next hq =>
    rw [← hq, hx, if_pos (List.getElem?_eq_some_iff.mp hx).1, Option.map_some]
  · next hq =>
    cases hy : xs[q]? with
    | none => rfl
    | some y => rw [Option.map_some, hf q y hy (Ne.symm hq)]

section Named

variable {before : List Entry} (hnamed : ∀ e ∈ before, e.payload.stream? ≠ some none)
include hnamed

theorem not_begins_none (m : Message) : ¬ Begins before m none := by
  rintro ⟨x, hx, -, hnames⟩
  exact hnamed x hx (Entry.names_iff.mp hnames)

/-- The table leads wherever a message of the stream stands. -/
theorem byStream_of_message? {place : Nat} {m : Message}
    (hm : (upTo before).message? place = some m) (hid : m.stream = some id) :
    (upTo before).byStream.get? id = some place :=
  ((indexed_upTo before).named id place m hm hid).resolve_right (not_begins_none hnamed m)

/-- The table knows the streams that are shown. -/
theorem exists_byStream_iff (h : (upTo before).items.toList = streamwise before) :
    (∃ place, (upTo before).byStream.get? id = some place) ↔
      ∃ x ∈ before, x.stream? = some id := by
  rw [← exists_mem_firstOfEach_iff]
  constructor
  · rintro ⟨place, hplace⟩
    obtain ⟨m, hm, hid, -⟩ := (indexed_upTo before).known id place hplace
    have hmem : .message m ∈ streamwise before := by
      rw [← h]
      exact Array.mem_toList_iff.mpr (Array.mem_of_getElem? (message?_eq_some_iff.mp hm))
    obtain ⟨x, hx, hshown⟩ := List.mem_map.mp hmem
    refine ⟨x, hx, ?_⟩
    rw [← Item.stream?_shown before, hshown, Item.stream?, hid]
  · rintro ⟨x, hx, hid⟩
    have hmem : Item.shown before x ∈ (upTo before).items.toList := by
      rw [h]
      exact List.mem_map_of_mem hx
    obtain ⟨place, hplace⟩ := List.getElem?_of_mem hmem
    rw [Array.getElem?_toList, Item.shown, hid] at hplace
    exact ⟨place, byStream_of_message? hnamed (message?_eq_some_iff.mpr hplace) rfl⟩

/-- An entry whose stream has a message goes there. -/
theorem items_concat_of_known {place : Nat} (hid : e.stream? = some id)
    (hplace : (upTo before).byStream.get? id = some place) :
    (upTo (before ++ [e])).items.toList = (upTo before).items.toList.map (Item.told e) := by
  obtain ⟨m, hm, hmid, -⟩ := (indexed_upTo before).known id place hplace
  rw [upTo_concat, items_step_of_byStream (Entry.stream?_eq_some_iff.mp hid) hplace hm, replace,
    Array.toList_setIfInBounds, ← Item.told_message hid hmid]
  refine set_eq_map ?_ fun q i hi hq ↦ ?_
  · rw [Array.getElem?_toList]
    exact message?_eq_some_iff.mp hm
  · -- no other message has the stream
    rw [Array.getElem?_toList] at hi
    refine Item.told_of_stream?_ne fun hsame ↦ hq ?_
    cases i with
    | event x => exact absurd (hsame.trans hid) (Option.some_ne_none id).symm
    | message n =>
      have hn := byStream_of_message? hnamed (message?_eq_some_iff.mpr hi) (hsame.trans hid)
      exact Option.some.inj (hn.symm.trans hplace)

/-- An entry whose stream has no message begins one. -/
theorem items_concat_of_new (hbelow : ∀ x ∈ before, x.sequence < e.sequence)
    (hid : e.stream? = some id) (hplace : (upTo before).byStream.get? id = none) :
    (upTo (before ++ [e])).items.toList = (upTo before).items.toList ++
      [.message ((Message.blank e id).take e)] := by
  rw [upTo_concat, ← Array.toList_push]
  refine congrArg Array.toList ?_
  rcases Entry.stream?_eq_some_iff.mp hid with ⟨part, text, he⟩ | ⟨content, thinking, he⟩
  · rw [step_piece he, delta, placeOfDelta, hplace, Message.take_piece rfl he]
    rfl
  · -- no message is without a stream, so there is none to take over
    have hnone : (upTo before).placeOfStored e (some id) = none := by
      rw [Option.eq_none_iff_forall_ne_some]
      intro place hsome
      obtain ⟨-, m, hm, hunnamed⟩ := (placeOfStored_eq_some_iff hplace e).mp hsome
      exact not_begins_none hnamed m ((indexed_upTo before).unnamed place m hm hunnamed)
    rw [step_stored he, stored, hnone, Message.take_blank_of_stored he, Message.stored]
    simp [isPassed_upTo_eq_false hbelow, add]

end Named

/-- **The transcript of a timeline** whose pieces and stored forms all name their streams. -/
theorem ofTimeline_eq_streamwise (hrising : timeline.Pairwise fun a b ↦ a.sequence < b.sequence)
    (hnamed : ∀ e ∈ timeline, e.payload.stream? ≠ some none) :
    ofTimeline timeline = streamwise timeline := by
  change (upTo timeline).items.toList = _
  induction timeline using List.reverseRecOn with
  | nil => rfl
  | append_singleton before e ih =>
    rw [List.pairwise_append] at hrising
    have hbelow : ∀ x ∈ before, x.sequence < e.sequence := fun x hx ↦
      hrising.2.2 x hx e List.mem_cons_self
    have hbefore : ∀ x ∈ before, x.payload.stream? ≠ some none := fun x hx ↦
      hnamed x (List.mem_append_left _ hx)
    have ih := ih hrising.1 hbefore
    -- the entry is passed on, or goes to the message of its stream, or begins one
    cases hid : e.stream? with
    | none =>
      have hpass : e.payload.stream? = none := by
        rcases Option.join_eq_none_iff.mp hid with hnone | hunnamed
        · exact hnone
        · exact absurd hunnamed (hnamed e (List.mem_append_right _ List.mem_cons_self))
      have htold : Item.told e = id := funext fun i ↦ Item.told_of_stream?_eq_none hid i
      rw [streamwise_concat, hid, if_neg fun h ↦ h.1 rfl, ← ih, upTo_concat,
        step_of_stream?_eq_none hpass, pass, Array.toList_push, htold, List.map_id, Item.shown, hid]
    | some id =>
      have hknown : (∃ place, (upTo before).byStream.get? id = some place) ↔
          ∃ x ∈ before, x.stream? = some id := exists_byStream_iff hbefore ih
      cases hplace : (upTo before).byStream.get? id with
      | some place =>
        have hold := hknown.mp ⟨place, hplace⟩
        rw [streamwise_concat, hid, if_pos ⟨Option.some_ne_none id, hold⟩, List.append_nil, ← ih]
        exact items_concat_of_known hbefore hid hplace
      | none =>
        have hnew : ∀ x ∈ before, x.stream? ≠ some id := by
          intro x hx hxid
          obtain ⟨place, hsome⟩ := hknown.mpr ⟨x, hx, hxid⟩
          exact Option.some_ne_none place (hsome.symm.trans hplace)
        rw [streamwise_concat_of_new hid hnew, ← ih]
        exact items_concat_of_new hbefore hbelow hid hplace

/-- **Streams are merged stream by stream.** Where every piece and every stored form of a session
names its stream, however they are mixed, the transcript has one message for each stream. -/
theorem ofEvents_eq_streamwise {session : String} {events : List Event}
    (h : ∀ e ∈ events, e.session = session → e.payload.stream? ≠ some none) (options : Options) :
    ofTimeline (Timeline.ofEvents session events options)
      = streamwise (Timeline.ofEvents session events options) := by
  refine ofTimeline_eq_streamwise (Timeline.pairwise_ofEvents session events options) fun x hx ↦ ?_
  obtain ⟨hmem, hsession⟩ := Timeline.mem_of_mem_admitted (Timeline.event_mem_admitted hx)
  exact h x.event hmem hsession

/-- Two streams and a prompt, mixed. One stream gets pieces of two agents, a stored form without a
content, and a piece that comes too late. -/
def interleaved : List Event :=
  [⟨1, "s1", some "main", some 1000, .contentDelta (some "m1") "Let me "⟩,
   ⟨2, "s1", some "worker", some 2000, .thinkingDelta (some "m2") "Hm."⟩,
   ⟨3, "s1", none, some 3000, .userPrompt "go"⟩,
   ⟨4, "s1", some "worker", some 4000, .contentDelta (some "m1") "see."⟩,
   ⟨5, "s1", some "main", some 5000, .assistantMessage (some "m1") "" (some "So.")⟩,
   ⟨6, "s1", some "main", some 6000, .contentDelta (some "m1") "late"⟩]

theorem streamwise_interleaved :
    (∀ e ∈ interleaved, e.session = "s1" → e.payload.stream? ≠ some none) ∧
      ofTimeline (Timeline.ofEvents "s1" interleaved default)
        = streamwise (Timeline.ofEvents "s1" interleaved default) := by
  have hnamed : ∀ e ∈ interleaved, e.session = "s1" → e.payload.stream? ≠ some none := by
    decide
  exact ⟨hnamed, ofEvents_eq_streamwise hnamed default⟩

end Transcript

end SessionReplay
