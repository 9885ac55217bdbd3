import Mathlib.Data.List.DropRight
import SessionReplay.Proofs.Transcript.ByStream

/-!
# Transcripts segment by segment

Where no piece and no stored form names a stream, agents do not meet: whatever an agent adds belongs
to its own message, until its own stored form closes that. So the pieces and stored forms of an
agent, cut after every stored form, are the messages of the agent, however the agents are mixed.
`Transcript.Segmentwise` says so without saying how a transcript is made, and leaves no freedom:
`Transcript.segmentwise_iff`.

## The open segment

What comes after the last stored form of an agent is its open segment, `Transcript.openSegment`. One
more entry goes to the open segment of its agent and no other, `cutAfter_concat`, and the pointer of
the agent leads to the message of that segment, or nowhere if the segment is empty. This is the
invariant, `Transcript.Cut`. No stored form comes too late, because numbers rise.
-/

namespace SessionReplay

/-! ## Cutting a list -/

section Cutting

variable {α : Type} {p : α → Bool} {xs ys : List α} {x : α}

/-- A list cut after each element with a property. -/
def cutAfter (p : α → Bool) : List α → List (List α)
  | [] => []
  | x :: rest =>
    if p x then [x] :: cutAfter p rest
    else match cutAfter p rest with
      | [] => [[x]]
      | segment :: more => (x :: segment) :: more

example : cutAfter (· == 0) [1, 0, 0, 2, 3] = [[1, 0], [0], [2, 3]] := by decide

theorem cutAfter_ne_nil (h : xs ≠ []) : cutAfter p xs ≠ [] := by
  cases xs with
  | nil => exact absurd rfl h
  | cons x rest =>
    rw [cutAfter]
    split
    · exact List.cons_ne_nil _ _
    · split <;> exact List.cons_ne_nil _ _

/-- What comes after a cut is cut by itself. -/
theorem cutAfter_append (hcut : ∀ hne : xs ≠ [], p (xs.getLast hne) = true) :
    cutAfter p (xs ++ ys) = cutAfter p xs ++ cutAfter p ys := by
  induction xs with
  | nil => rfl
  | cons x rest ih =>
    rw [List.cons_append, cutAfter, cutAfter]
    cases hrest : rest with
    | nil =>
      have hx : p x = true := by simpa [hrest] using hcut
      rw [List.nil_append, if_pos hx, if_pos hx]
      rfl
    | cons y more =>
      have hne : rest ≠ [] := by simp [hrest]
      have hlast : ∀ hne : rest ≠ [], p (rest.getLast hne) = true := fun hne ↦ by
        simpa [List.getLast_cons hne] using hcut
      rw [← hrest, ih hlast]
      split
      · rfl
      · obtain ⟨segment, more, hsegments⟩ :=
          List.exists_cons_of_ne_nil (cutAfter_ne_nil (p := p) hne)
        rw [hsegments]
        rfl

/-- A list with no cut before its last element is one segment. -/
theorem cutAfter_of_open (hopen : ∀ y ∈ ys, p y = false) (x : α) :
    cutAfter p (ys ++ [x]) = [ys ++ [x]] := by
  induction ys with
  | nil =>
    rw [List.nil_append, cutAfter]
    split <;> rfl
  | cons y rest ih =>
    rw [List.cons_append, cutAfter, hopen y List.mem_cons_self, if_neg Bool.false_ne_true,
      ih fun z hz ↦ hopen z (List.mem_cons_of_mem _ hz)]

/-- The part of a list that ends with its last cut. -/
private theorem getLast_rdropWhile (hne : xs.rdropWhile (fun x ↦ !p x) ≠ []) :
    p ((xs.rdropWhile fun x ↦ !p x).getLast hne) = true := by
  simpa using List.rdropWhile_last_not (fun x ↦ !p x) xs hne

private theorem eq_false_of_mem_rtakeWhile (h : x ∈ xs.rtakeWhile fun x ↦ !p x) : p x = false := by
  simpa using List.mem_rtakeWhile_imp h

/-- **One more element** goes to what comes after the last cut. -/
theorem cutAfter_concat (p : α → Bool) (xs : List α) (x : α) :
    cutAfter p (xs ++ [x]) = cutAfter p (xs.rdropWhile fun x ↦ !p x) ++
      [xs.rtakeWhile (fun x ↦ !p x) ++ [x]] := by
  calc cutAfter p (xs ++ [x])
    _ = cutAfter p (xs.rdropWhile (fun x ↦ !p x) ++ (xs.rtakeWhile (fun x ↦ !p x) ++ [x])) := by
        rw [← List.append_assoc, List.rdropWhile_append_rtakeWhile]
    _ = cutAfter p (xs.rdropWhile fun x ↦ !p x) ++
          cutAfter p (xs.rtakeWhile (fun x ↦ !p x) ++ [x]) := cutAfter_append getLast_rdropWhile
    _ = _ := by rw [cutAfter_of_open fun y hy ↦ eq_false_of_mem_rtakeWhile hy]

/-- What comes after the last cut is the last segment, if it is anything. -/
theorem cutAfter_eq_append (p : α → Bool) (xs : List α) :
    cutAfter p xs = cutAfter p (xs.rdropWhile fun x ↦ !p x) ++
      if xs.rtakeWhile (fun x ↦ !p x) = [] then [] else [xs.rtakeWhile fun x ↦ !p x] := by
  conv_lhs => rw [← List.rdropWhile_append_rtakeWhile (p := fun x ↦ !p x) (l := xs)]
  rw [cutAfter_append getLast_rdropWhile]
  rcases List.eq_nil_or_concat' (xs.rtakeWhile fun x ↦ !p x) with hnil | ⟨ys, y, hys⟩
  · rw [hnil, if_pos rfl, cutAfter]
  · have hopen : ∀ z ∈ ys, p z = false := by
      intro z hz
      have hmem : z ∈ xs.rtakeWhile fun x ↦ !p x := hys ▸ List.mem_append_left _ hz
      exact eq_false_of_mem_rtakeWhile hmem
    rw [hys, if_neg (by simp), cutAfter_of_open hopen]

private theorem rel_of_mem_drop {r : α → α → Prop} {place : Nat} {y : α} (h : xs.Pairwise r)
    (hx : xs[place]? = some x) (hy : y ∈ xs.drop (place + 1)) : r x y := by
  obtain ⟨hlt, rfl⟩ := List.getElem?_eq_some_iff.mp hx
  have hdrop : (xs.drop place).Pairwise r := h.drop
  rw [List.drop_eq_getElem_cons hlt] at hdrop
  exact List.rel_of_pairwise_cons hdrop hy

/-- If only the last thing that a list shows changes, only that changes in what it shows. -/
private theorem filterMap_set_of_last {β : Type} {f : α → Option β} {place : Nat} {x' : α}
    {shown : List β}
    {y y' : β} (hxs : xs.filterMap f = shown ++ [y]) (hx : xs[place]? = some x) (hf : f x = some y)
    (hf' : f x' = some y') (honce : ∀ z ∈ xs.drop (place + 1), f z ≠ some y) :
    (xs.set place x').filterMap f = shown ++ [y'] := by
  obtain ⟨hlt, rfl⟩ := List.getElem?_eq_some_iff.mp hx
  have hsplit : xs = xs.take place ++ xs[place] :: xs.drop (place + 1) := by
    rw [← List.drop_eq_getElem_cons hlt, List.take_append_drop]
  rw [hsplit, List.filterMap_append, List.filterMap_cons_some hf] at hxs
  have hnone : (xs.drop (place + 1)).filterMap f = [] := by
    rcases List.eq_nil_or_concat' ((xs.drop (place + 1)).filterMap f) with hnil | ⟨zs, z, hzs⟩
    · exact hnil
    · rw [hzs, ← List.cons_append, ← List.append_assoc] at hxs
      obtain ⟨-, hz⟩ := List.append_inj' hxs rfl
      rw [(List.cons.inj hz).1] at hzs
      obtain ⟨w, hw, hfw⟩ := List.mem_filterMap.mp (hzs ▸ List.mem_append_right zs
        List.mem_cons_self)
      exact absurd hfw (honce w hw)
  rw [hnone] at hxs
  rw [List.set_eq_take_append_cons_drop, if_pos hlt, List.filterMap_append,
    List.filterMap_cons_some hf', hnone, (List.append_inj' hxs rfl).1]

end Cutting

/-! ## Segments and their messages -/

/-- Whether an entry is a stored form. -/
def Entry.closes (e : Entry) : Bool := e.payload.stored?.isSome

/-- The message of an agent that a thing in a transcript is. -/
def Item.messageOf? (agent : String) : Item → Option Message
  | .event _ => none
  | .message m => if m.agent = agent then some m else none

namespace Message

/-- The message of a segment with a first entry. The content of the stored form replaces that of the
pieces unless it is empty, its thinking stands in only if the pieces have none. -/
def ofSegment (first : Entry) (segment : List Entry) : Message :=
  let stored := segment.findSome? fun e ↦ e.payload.stored?
  let text (part : Part) := String.join (segment.filterMap fun e ↦ e.payload.delta? part)
  let content := (stored.map Prod.fst).getD ""
  { agent := first.agent
    sequence := first.sequence
    time := first.time
    stream := none
    content := if content = "" then text .content else content
    thinking := if text .thinking = "" then (stored.bind Prod.snd).getD "" else text .thinking
    isLive := stored.isNone
    deltas := (segment.filter fun e ↦ !e.closes).length }

/-- The message of a segment, if there is anything in it. -/
def ofSegment? (segment : List Entry) : Option Message :=
  segment.head?.map fun first ↦ ofSegment first segment

end Message

namespace Transcript

/-- The pieces and stored forms of an agent. -/
def own (timeline : List Entry) (agent : String) : List Entry :=
  timeline.filter fun e ↦ e.agent == agent && e.payload.stream?.isSome

/-- The pieces and stored forms of an agent, cut after every stored form. -/
def segments (timeline : List Entry) (agent : String) : List (List Entry) :=
  cutAfter Entry.closes (own timeline agent)

/-- What an agent has said since its last stored form. -/
def openSegment (timeline : List Entry) (agent : String) : List Entry :=
  (own timeline agent).rtakeWhile fun e ↦ !e.closes

/-- A transcript has one message for each segment of each agent, and every event that is no part of
a message, in the order of their first entries. -/
structure Segmentwise (timeline : List Entry) (items : List Item) : Prop where
  rising : items.Pairwise fun i j ↦ i.sequence < j.sequence
  events : items.filterMap Item.event? = timeline.filter fun e ↦ e.payload.stream?.isNone
  messages : ∀ agent, items.filterMap (Item.messageOf? agent)
    = (segments timeline agent).filterMap Message.ofSegment?

end Transcript

variable {e : Entry} {agent : String} {segment before timeline : List Entry}

theorem Entry.closes_eq_false_iff : e.closes = false ↔ e.payload.stored? = none := by
  rw [closes, ← Option.not_isSome_iff_eq_none, Bool.not_eq_true]

theorem Entry.closes_of_stored {stream : Option String} {content : String}
    {thinking : Option String} (he : e.payload = .assistantMessage stream content thinking) :
    e.closes = true := by
  rw [closes, he]
  rfl

theorem Entry.closes_of_piece {part : Message.Part} {stream : Option String} {text : String}
    (he : e.payload = .piece part stream text) : e.closes = false := by
  rw [closes, he]
  cases part <;> rfl

namespace Message

/-! ## Messages made of segments -/

theorem findSome?_stored?_eq_none (hopen : ∀ x ∈ segment, x.closes = false) :
    segment.findSome? (fun x ↦ x.payload.stored?) = none :=
  List.findSome?_eq_none_iff.mpr fun x hx ↦ Entry.closes_eq_false_iff.mp (hopen x hx)

theorem filter_not_closes_eq_self (hopen : ∀ x ∈ segment, x.closes = false) :
    segment.filter (fun x ↦ !x.closes) = segment :=
  List.filter_eq_self.mpr fun x hx ↦ by rw [hopen x hx, Bool.not_false]

/-- Without a stored form the message is its pieces. -/
theorem ofSegment_of_pieces (hopen : ∀ x ∈ segment, x.closes = false) (first : Entry) :
    ofSegment first segment =
      { agent := first.agent
        sequence := first.sequence
        time := first.time
        stream := none
        content := String.join (segment.filterMap fun e ↦ e.payload.delta? .content)
        thinking := String.join (segment.filterMap fun e ↦ e.payload.delta? .thinking)
        isLive := true
        deltas := segment.length } := by
  simp [ofSegment, findSome?_stored?_eq_none hopen, filter_not_closes_eq_self hopen]

/-- **One more entry** goes to the message of an open segment. -/
theorem ofSegment_concat (hopen : ∀ x ∈ segment, x.closes = false) (hnames : e.Names none)
    (first : Entry) : ofSegment first (segment ++ [e]) = (ofSegment first segment).take e := by
  rw [ofSegment_of_pieces hopen]
  rcases hnames with ⟨part, text, he⟩ | ⟨content, thinking, he⟩
  · have hopen' : ∀ x ∈ segment ++ [e], x.closes = false :=
      List.forall_mem_append.mpr ⟨hopen, List.forall_mem_singleton.mpr (Entry.closes_of_piece he)⟩
    rw [ofSegment_of_pieces hopen', take_piece rfl he]
    cases part <;> simp [he, grow, Payload.piece, Payload.delta?]
  · have hclosing : e.payload.stored? = some (content, thinking) := by rw [he, Payload.stored?]
    have hnodelta : ∀ part, e.payload.delta? part = none := fun part ↦ by
      rw [he]
      cases part <;> rfl
    rw [take_stored rfl he]
    simp [ofSegment, findSome?_stored?_eq_none hopen, filter_not_closes_eq_self hopen, hclosing,
      hnodelta, close, List.findSome?_append, Entry.closes_of_stored he]

/-- An entry by itself is a message that takes it in. -/
theorem ofSegment_singleton (hnames : e.Names none) :
    ofSegment e [e] = take ⟨e.agent, e.sequence, e.time, none, "", "", true, 0⟩ e :=
  ofSegment_concat (List.forall_mem_nil _) hnames e

private theorem ofSegment_singleton_of_piece {part : Part} {text : String}
    (he : e.payload = .piece part none text) : ofSegment e [e] = .begin e none part text := by
  rw [ofSegment_singleton (Or.inl ⟨part, text, he⟩), take_piece rfl he, begin]

private theorem ofSegment_singleton_of_stored {content : String} {thinking : Option String}
    (he : e.payload = .assistantMessage none content thinking) :
    ofSegment e [e] = .stored e none content thinking := by
  rw [ofSegment_singleton (Or.inr ⟨content, thinking, he⟩), take_stored rfl he]
  exact close_of_nothing ..

private theorem agent_take (m : Message) (e : Entry) : (m.take e).agent = m.agent := by
  rw [take]
  split
  · split <;> rfl
  · rfl

end Message

theorem Item.messageOf?_eq_some_iff {i : Item} {m : Message} :
    i.messageOf? agent = some m ↔ i = .message m ∧ m.agent = agent := by
  cases i with
  | event x => simp [messageOf?]
  | message n =>
    rw [messageOf?, Item.message.injEq]
    split
    · next hagent =>
      rw [Option.some_inj]
      exact ⟨fun heq ↦ ⟨heq, heq ▸ hagent⟩, And.left⟩
    · next hne =>
      refine iff_of_false (Option.some_ne_none m).symm ?_
      rintro ⟨rfl, hagent⟩
      exact hne hagent

/-- A message that is not of an agent is none of the agent's. -/
theorem Item.messageOf?_of_ne {m : Message} (h : m.agent ≠ agent) :
    (Item.message m).messageOf? agent = none :=
  if_neg h

namespace Transcript

/-! ## One more entry in the segments -/

theorem own_concat_self (hnames : e.Names none) :
    own (before ++ [e]) e.agent = own before e.agent ++ [e] := by
  rw [own, List.filter_append, List.filter_cons_of_pos, List.filter_nil, own]
  rw [Entry.names_iff.mp hnames, BEq.rfl]
  rfl

theorem own_concat_of_ne (h : e.agent ≠ agent) : own (before ++ [e]) agent = own before agent := by
  rw [own, List.filter_append, List.filter_cons_of_neg (by simp [h]), List.filter_nil,
    List.append_nil, own]

private theorem own_concat_of_stream?_eq_none (h : e.payload.stream? = none) (agent : String) :
    own (before ++ [e]) agent = own before agent := by
  rw [own, List.filter_append, List.filter_cons_of_neg (by simp [h]), List.filter_nil,
    List.append_nil, own]

/-- The segments of an agent that end with a stored form. -/
def closedSegments (timeline : List Entry) (agent : String) : List (List Entry) :=
  cutAfter Entry.closes ((own timeline agent).rdropWhile fun e ↦ !e.closes)

theorem closes_of_mem_openSegment {x : Entry} (h : x ∈ openSegment timeline agent) :
    x.closes = false :=
  eq_false_of_mem_rtakeWhile h

private theorem agent_eq_of_mem_openSegment {x : Entry} (h : x ∈ openSegment timeline agent) :
    x.agent = agent := by
  have hmem : x ∈ own timeline agent := (List.rtakeWhile_suffix _ _).subset h
  have hown := (List.mem_filter.mp hmem).2
  simp only [Bool.and_eq_true, beq_iff_eq] at hown
  exact hown.1

theorem filterMap_segments (timeline : List Entry) (agent : String) :
    (segments timeline agent).filterMap Message.ofSegment?
      = (closedSegments timeline agent).filterMap Message.ofSegment? ++
        (Message.ofSegment? (openSegment timeline agent)).toList := by
  rw [segments, cutAfter_eq_append, List.filterMap_append, closedSegments, openSegment]
  split
  · next hnil => rw [hnil]; rfl
  · next hne =>
    obtain ⟨first, rest, hopen⟩ := List.exists_cons_of_ne_nil hne
    rw [hopen]
    rfl

theorem filterMap_segments_concat (hnames : e.Names none) :
    (segments (before ++ [e]) e.agent).filterMap Message.ofSegment?
      = (closedSegments before e.agent).filterMap Message.ofSegment? ++
        (Message.ofSegment? (openSegment before e.agent ++ [e])).toList := by
  rw [segments, own_concat_self hnames, cutAfter_concat, List.filterMap_append, closedSegments,
    openSegment]
  refine congrArg _ ?_
  cases List.rtakeWhile (fun e ↦ !e.closes) (own before e.agent) <;> rfl

/-- A stored form leaves nothing open. -/
theorem openSegment_concat (hnames : e.Names none) :
    openSegment (before ++ [e]) e.agent
      = if e.closes then [] else openSegment before e.agent ++ [e] := by
  rw [openSegment, own_concat_self hnames, List.rtakeWhile_concat, openSegment]
  cases e.closes <;> rfl

/-- The message of an open segment is live, and of its agent. -/
theorem of_ofSegment?_openSegment {m : Message}
    (h : Message.ofSegment? (openSegment timeline agent) = some m) :
    m.isLive = true ∧ m.agent = agent := by
  rw [Message.ofSegment?, Option.map_eq_some_iff] at h
  obtain ⟨first, hfirst, rfl⟩ := h
  have hmem := List.mem_of_mem_head? hfirst
  rw [Message.ofSegment_of_pieces fun x hx ↦ closes_of_mem_openSegment hx]
  exact ⟨rfl, agent_eq_of_mem_openSegment hmem⟩

/-- The message of an open segment takes in one more entry. -/
theorem ofSegment?_openSegment_concat {m : Message} (hnames : e.Names none)
    (h : Message.ofSegment? (openSegment before agent) = some m) :
    Message.ofSegment? (openSegment before agent ++ [e]) = some (m.take e) := by
  rw [Message.ofSegment?, Option.map_eq_some_iff] at h
  obtain ⟨first, hfirst, rfl⟩ := h
  rw [Message.ofSegment?, List.head?_append, hfirst, Option.some_or, Option.map_some,
    Message.ofSegment_concat (fun x hx ↦ closes_of_mem_openSegment hx) hnames]

theorem openSegment_eq_nil (h : Message.ofSegment? (openSegment timeline agent) = none) :
    openSegment timeline agent = [] := by
  rwa [Message.ofSegment?, Option.map_eq_none_iff, List.head?_eq_none_iff] at h

/-! ## One more entry in the transcript -/

variable {t : Transcript} {place : Nat} {m : Message}

/-- An entry goes to the message to which its agent's pointer leads. A stored form removes the
pointer. -/
theorem step_of_pointer (hnames : e.Names none) (h : t.PointsToMessages)
    (hplace : t.liveBy.get? e.agent = some place) (hm : t.message? place = some m)
    (hlive : m.isLive = true) :
    (t.step e).items = (t.replace place (m.take e)).items ∧
      ∀ agent, (t.step e).liveBy.get? agent = if agent = e.agent then
        if e.closes then none else some place else t.liveBy.get? agent := by
  rcases hnames with ⟨part, text, he⟩ | ⟨content, thinking, he⟩
  · rw [step_piece_of_pointer he hplace hm hlive, Message.take_piece hlive he,
      Entry.closes_of_piece he]
    exact ⟨rfl, fun agent ↦ Table.get?_insert ..⟩
  · have hstep : t.step e = t.settle e place m (m.close none content thinking) := by
      rw [step_stored he, stored, h.placeOfStored_none, hplace]
      simp only [hm, settle, hplace, if_true]
    rw [hstep, Message.take_stored hlive he, Entry.closes_of_stored he, settle, hlive]
    refine ⟨rfl, fun agent ↦ ?_⟩
    dsimp only
    rw [if_pos hplace, Table.get?_erase]
    rfl

/-- An entry whose agent has no pointer begins a message. A stored form sets no pointer. -/
theorem step_of_no_pointer (hnames : e.Names none) (h : t.PointsToMessages)
    (hplace : t.liveBy.get? e.agent = none) (hpassed : t.isPassed e.sequence = false) :
    (t.step e).items = t.items.push (.message (.ofSegment e [e])) ∧
      ∀ agent, (t.step e).liveBy.get? agent = if agent = e.agent then
        if e.closes then none else some t.items.size else t.liveBy.get? agent := by
  rcases hnames with ⟨part, text, he⟩ | ⟨content, thinking, he⟩
  · rw [step_piece_of_no_pointer he hplace, Message.ofSegment_singleton_of_piece he,
      Entry.closes_of_piece he]
    exact ⟨rfl, fun agent ↦ Table.get?_insert ..⟩
  · have hstep : t.step e
        = { t.add (.stored e none content thinking) with lastStored := some e.sequence } := by
      rw [step_stored he, stored, h.placeOfStored_none, hplace]
      simp only [hpassed, Bool.false_eq_true, if_false]
      rfl
    rw [hstep, Message.ofSegment_singleton_of_stored he, Entry.closes_of_stored he, if_pos rfl]
    refine ⟨rfl, fun agent ↦ ?_⟩
    split
    · next hagent => rw [hagent]; exact hplace
    · rfl

/-- The last message of an agent may change in its place. -/
theorem filterMap_messageOf?_replace {m' : Message} {shown : List Message}
    (hrising : before.Pairwise fun a b ↦ a.sequence < b.sequence)
    (hm : (upTo before).message? place = some m) (hagent : m.agent = agent)
    (hagent' : m'.agent = agent)
    (hlast : (upTo before).items.toList.filterMap (Item.messageOf? agent) = shown ++ [m]) :
    ((upTo before).replace place m').items.toList.filterMap (Item.messageOf? agent)
      = shown ++ [m'] := by
  have hplace : (upTo before).items.toList[place]? = some (.message m) := by
    rw [Array.getElem?_toList]
    exact message?_eq_some_iff.mp hm
  rw [replace, Array.toList_setIfInBounds]
  refine filterMap_set_of_last hlast hplace (Item.messageOf?_eq_some_iff.mpr ⟨rfl, hagent⟩)
    (Item.messageOf?_eq_some_iff.mpr ⟨rfl, hagent'⟩) ?_
  -- nothing further on has the number of the message
  intro i hi him
  have hlt := rel_of_mem_drop (pairwise_ofTimeline hrising) hplace hi
  rw [(Item.messageOf?_eq_some_iff.mp him).1] at hlt
  exact UInt64.lt_irrefl _ hlt

/-! ## The invariant -/

/-- A transcript has the messages of the segments, and the pointer of each agent leads to the
message of what is open. -/
structure Cut (entries : List Entry) : Prop where
  messages : ∀ agent, (upTo entries).items.toList.filterMap (Item.messageOf? agent)
    = (segments entries agent).filterMap Message.ofSegment?
  pointers : ∀ agent, ((upTo entries).liveBy.get? agent).bind (upTo entries).message?
    = Message.ofSegment? (openSegment entries agent)

theorem cut_nil : Cut [] where
  messages _ := rfl
  pointers _ := rfl

namespace Cut

variable (h : Cut before)
include h

/-- An entry that is no part of a message leaves all segments as they are. -/
theorem concat_of_stream?_eq_none (hpass : e.payload.stream? = none) : Cut (before ++ [e]) where
  messages agent := by
    rw [upTo_concat, step_of_stream?_eq_none hpass, pass, Array.toList_push, List.filterMap_append,
      h.messages, segments, segments, own_concat_of_stream?_eq_none hpass]
    exact List.append_nil _
  pointers agent := by
    rw [openSegment, own_concat_of_stream?_eq_none hpass, upTo_concat,
      step_of_stream?_eq_none hpass, funext (message?_pass (upTo before) e)]
    exact h.pointers agent

variable (hnames : e.Names none)
include hnames

/-- Pointers stay right if the entry ends up in the message at a place to which no other agent
points. -/
theorem pointers_concat {m' : Message}
    (hsegment : Message.ofSegment? (openSegment before e.agent ++ [e]) = some m')
    (hmessage : ∀ q, ((upTo before).step e).message? q
      = if q = place then some m' else (upTo before).message? q)
    (hliveBy : ∀ agent, ((upTo before).step e).liveBy.get? agent = if agent = e.agent then
      if e.closes then none else some place else (upTo before).liveBy.get? agent)
    (hothers : ∀ agent, agent ≠ e.agent → (upTo before).liveBy.get? agent ≠ some place)
    (agent : String) :
    ((upTo (before ++ [e])).liveBy.get? agent).bind (upTo (before ++ [e])).message?
      = Message.ofSegment? (openSegment (before ++ [e]) agent) := by
  rw [upTo_concat, hliveBy]
  by_cases hself : agent = e.agent
  · subst hself
    rw [if_pos rfl, openSegment_concat hnames]
    split
    · rfl
    · rw [Option.bind_some, hmessage, if_pos rfl, hsegment]
  · rw [if_neg hself, openSegment, own_concat_of_ne (Ne.symm hself), ← openSegment, ← h.pointers]
    cases hother : (upTo before).liveBy.get? agent with
    | none => rfl
    | some q =>
      rw [Option.bind_some, Option.bind_some, hmessage, if_neg]
      rintro rfl
      exact hothers agent hself hother

/-- An entry whose agent has an open segment goes to its message. -/
theorem concat_of_pointer (hrising : before.Pairwise fun a b ↦ a.sequence < b.sequence)
    (hplace : (upTo before).liveBy.get? e.agent = some place)
    (hm : (upTo before).message? place = some m) : Cut (before ++ [e]) := by
  have hsegment : Message.ofSegment? (openSegment before e.agent) = some m := by
    rw [← h.pointers, hplace, Option.bind_some, hm]
  obtain ⟨hlive, hagent⟩ := of_ofSegment?_openSegment hsegment
  have hagent' : (m.take e).agent = e.agent := (Message.agent_take m e).trans hagent
  have htaken := ofSegment?_openSegment_concat hnames hsegment
  obtain ⟨hitems, hliveBy⟩ :=
    step_of_pointer hnames (pointsToMessages_upTo before) hplace hm hlive
  refine ⟨fun agent ↦ ?_, h.pointers_concat hnames htaken (fun q ↦ ?_) hliveBy
    fun agent hne hother ↦ hne ?_⟩
  · rw [upTo_concat, hitems]
    by_cases hself : agent = e.agent
    · subst hself
      have hold := h.messages e.agent
      rw [filterMap_segments, hsegment, Option.toList_some] at hold
      rw [filterMap_segments_concat hnames, htaken, Option.toList_some]
      exact filterMap_messageOf?_replace hrising hm hagent hagent' hold
    · rw [segments, own_concat_of_ne (Ne.symm hself), ← segments, ← h.messages]
      refine filterMap_replace hm ?_
      rw [Item.messageOf?_of_ne (hagent' ▸ Ne.symm hself),
        Item.messageOf?_of_ne (hagent ▸ Ne.symm hself)]
  · rw [message?, hitems, ← message?, message?_replace hm]
  · -- a message has one agent
    have hsame := h.pointers agent
    rw [hother, Option.bind_some, hm] at hsame
    exact (of_ofSegment?_openSegment hsame.symm).2.symm.trans hagent

/-- An entry whose agent has no open segment begins one, and its message. -/
theorem concat_of_no_pointer (hbelow : ∀ x ∈ before, x.sequence < e.sequence)
    (hplace : (upTo before).liveBy.get? e.agent = none) : Cut (before ++ [e]) := by
  have hnil : openSegment before e.agent = [] := by
    refine openSegment_eq_nil ?_
    rw [← h.pointers, hplace, Option.bind_none]
  have hsegment : Message.ofSegment? (openSegment before e.agent ++ [e])
      = some (.ofSegment e [e]) := by
    rw [hnil]
    rfl
  obtain ⟨hitems, hliveBy⟩ := step_of_no_pointer hnames (pointsToMessages_upTo before) hplace
    (isPassed_upTo_eq_false hbelow)
  refine ⟨fun agent ↦ ?_, h.pointers_concat hnames hsegment (fun q ↦ ?_) hliveBy
    fun agent _ hother ↦ ?_⟩
  · rw [upTo_concat, hitems, Array.toList_push, List.filterMap_append, h.messages]
    by_cases hself : agent = e.agent
    · subst hself
      rw [filterMap_segments_concat hnames, hsegment, filterMap_segments, hnil]
      simp [Message.ofSegment?, Item.messageOf?, Message.ofSegment]
    · have hnone : (Item.message (.ofSegment e [e])).messageOf? agent = none :=
        Item.messageOf?_of_ne (Ne.symm hself)
      rw [segments, segments, own_concat_of_ne (Ne.symm hself), List.filterMap_cons_none hnone,
        List.filterMap_nil, List.append_nil]
  · rw [message?, hitems, ← message?_add]
    rfl
  · obtain ⟨m, hm⟩ := pointsToMessages_upTo before agent _ hother
    rw [message?_size] at hm
    cases hm

end Cut

/-- **Any number of entries** with rising numbers, of which none names a stream. -/
theorem cut_of_unnamed (hrising : timeline.Pairwise fun a b ↦ a.sequence < b.sequence)
    (hunnamed : ∀ e ∈ timeline, ∀ id, e.payload.stream? ≠ some (some id)) : Cut timeline := by
  induction timeline using List.reverseRecOn with
  | nil => exact cut_nil
  | append_singleton before e ih =>
    rw [List.pairwise_append] at hrising
    have hcut := ih hrising.1 fun x hx ↦ hunnamed x (List.mem_append_left _ hx)
    have hbelow : ∀ x ∈ before, x.sequence < e.sequence := fun x hx ↦
      hrising.2.2 x hx e List.mem_cons_self
    have he := hunnamed e (List.mem_append_right _ List.mem_cons_self)
    cases hstream : e.payload.stream? with
    | none => exact hcut.concat_of_stream?_eq_none hstream
    | some stream =>
      cases stream with
      | some id => exact absurd hstream (he id)
      | none =>
        have hnames := Entry.names_iff.mpr hstream
        cases hplace : (upTo before).liveBy.get? e.agent with
        | none => exact hcut.concat_of_no_pointer hnames hbelow hplace
        | some place =>
          obtain ⟨m, hm⟩ := pointsToMessages_upTo before e.agent place hplace
          exact hcut.concat_of_pointer hnames hrising.1 hplace hm

/-! ## The transcript -/

private theorem segmentwise_ofTimeline
    (hrising : timeline.Pairwise fun a b ↦ a.sequence < b.sequence)
    (hunnamed : ∀ e ∈ timeline, ∀ id, e.payload.stream? ≠ some (some id)) :
    Segmentwise timeline (ofTimeline timeline) where
  rising := pairwise_ofTimeline hrising
  events := filterMap_event?_ofTimeline timeline
  messages := (cut_of_unnamed hrising hunnamed).messages

private theorem mem_iff_mem_filterMap_event? {items : List Item} {x : Entry} :
    .event x ∈ items ↔ x ∈ items.filterMap Item.event? := by
  rw [List.mem_filterMap]
  constructor
  · exact fun hx ↦ ⟨.event x, hx, rfl⟩
  · rintro ⟨i, hi, hix⟩
    cases i with
    | event y => exact Option.some.inj hix ▸ hi
    | message m => cases hix

private theorem mem_iff_mem_filterMap_messageOf? {items : List Item} :
    .message m ∈ items ↔ m ∈ items.filterMap (Item.messageOf? m.agent) := by
  simp [List.mem_filterMap, Item.messageOf?_eq_some_iff]

/-- A timeline has no two such transcripts. -/
theorem Segmentwise.unique {xs ys : List Item} (hxs : Segmentwise timeline xs)
    (hys : Segmentwise timeline ys) : xs = ys := by
  refine Timeline.eq_of_mem_iff hxs.rising hys.rising fun i ↦ ?_
  cases i with
  | event x =>
    rw [mem_iff_mem_filterMap_event?, mem_iff_mem_filterMap_event?, hxs.events, hys.events]
  | message m =>
    rw [mem_iff_mem_filterMap_messageOf?, mem_iff_mem_filterMap_messageOf?, hxs.messages,
      hys.messages]

/-- **Agents are merged segment by segment.** Where no piece and no stored form of a session names a
stream, however the agents are mixed, the transcript is the one list with a message for each segment
of each agent. -/
theorem segmentwise_iff {session : String} {events : List Event}
    (h : ∀ e ∈ events, e.session = session → ∀ id, e.payload.stream? ≠ some (some id))
    (options : Options) (items : List Item) :
    Segmentwise (Timeline.ofEvents session events options) items ↔
      items = ofTimeline (Timeline.ofEvents session events options) := by
  have hmerged : Segmentwise (Timeline.ofEvents session events options)
      (ofTimeline (Timeline.ofEvents session events options)) := by
    refine segmentwise_ofTimeline (Timeline.pairwise_ofEvents session events options) fun x hx ↦ ?_
    obtain ⟨hmem, hsession⟩ := Timeline.mem_of_mem_admitted (Timeline.event_mem_admitted hx)
    exact h x.event hmem hsession
  constructor
  · exact fun hitems ↦ hitems.unique hmerged
  · rintro rfl
    exact hmerged

/-- Two agents and a prompt, mixed. One agent says something again after its stored form, which has
no content; the other hands in a stored form without pieces. -/
def takingTurns : List Event :=
  [⟨1, "s1", some "main", some 1000, .contentDelta none "Let me "⟩,
   ⟨2, "s1", some "worker", some 2000, .thinkingDelta none "Hm."⟩,
   ⟨3, "s1", none, some 3000, .userPrompt "go"⟩,
   ⟨4, "s1", some "main", some 4000, .contentDelta none "see."⟩,
   ⟨5, "s1", some "main", some 5000, .assistantMessage none "" (some "So.")⟩,
   ⟨6, "s1", some "main", some 6000, .contentDelta none "Again."⟩,
   ⟨7, "s1", some "worker", some 7000, .assistantMessage none "Done." (some "Unused.")⟩,
   ⟨8, "s1", some "worker", some 8000, .assistantMessage none "Over." none⟩]

theorem segmentwise_takingTurns :
    (∀ e ∈ takingTurns, e.session = "s1" → ∀ id, e.payload.stream? ≠ some (some id)) ∧
      Segmentwise (Timeline.ofEvents "s1" takingTurns default)
        [.message ⟨"main", 1, 1000, none, "Let me see.", "So.", false, 2⟩,
         .message ⟨"worker", 2, 2000, none, "Done.", "Hm.", false, 1⟩,
         .event ⟨⟨3, "s1", none, some 3000, .userPrompt "go"⟩, "unknown", 3000⟩,
         .message ⟨"main", 6, 6000, none, "Again.", "", true, 1⟩,
         .message ⟨"worker", 8, 8000, none, "Over.", "", false, 0⟩] := by
  have hunnamed : ∀ e ∈ takingTurns, e.session = "s1" →
      ∀ id, e.payload.stream? ≠ some (some id) := by
    simp [takingTurns, Payload.stream?]
  refine ⟨hunnamed, (segmentwise_iff hunnamed default _).mpr ?_⟩
  rw [Timeline.ofEvents, Timeline.admitted_eq_self (by decide) (by decide)]
  rfl

end Transcript

end SessionReplay
