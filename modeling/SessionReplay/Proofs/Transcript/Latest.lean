import SessionReplay.Proofs.Transcript.Streams

/-!
# The message to which an agent last added something

A piece that names no stream should go to the message to which its agent last added a piece, among
those that are still live, `Transcript.latestLive?`. The transcript remembers one message for each
agent, the one last touched, whatever became of it. So the piece finds its message while that one is
live. Once it is closed, an earlier message of the agent is not thought of, even if it is live: the
piece begins a new message if the agent has handed in the stored form itself, and is lost if someone
else has.

What becomes of a piece in each case, and when this is as it should be, is
`Transcript.tellsPieces`; that it is not always so is `Transcript.not_followsLatestLive_wentBack`.

## Pointers and histories

`Transcript.liveBy_eq_some_iff` says what an agent's pointer means without speaking of pointers: it
leads to the last message that the agent touched, unless the agent has handed in its stored form
since. Touching is seen from outside, `Transcript.grownAt?`: a message has one more piece than
before.
-/

namespace SessionReplay

namespace Transcript

/-! ## Who touched what -/

/-- How many pieces the message at a place is made of. -/
def deltasAt (t : Transcript) (place : Nat) : Nat := ((t.message? place).map Message.deltas).getD 0

/-- Where the second transcript has a message of more pieces than the first. -/
def grownAt? (t t' : Transcript) : Option Nat :=
  (List.range t'.items.size).find? fun place ↦ t.deltasAt place < t'.deltasAt place

/-- The places of the messages to which an agent adds pieces, one entry after the other. -/
def touchedFrom (agent : String) (t : Transcript) : List Entry → List Nat
  | [] => []
  | e :: rest => (if e.agent = agent then (t.grownAt? (t.step e)).toList else []) ++
      touchedFrom agent (t.step e) rest

/-- The places of the messages to which an agent has added pieces, the last one last. -/
def touched (agent : String) (entries : List Entry) : List Nat := touchedFrom agent empty entries

/-- Whether the message at a place is live. -/
def isLiveAt (t : Transcript) (place : Nat) : Bool := (t.message? place).any Message.isLive

/-- Of the messages that are still live, the one to which an agent last added a piece. -/
def latestLive? (agent : String) (entries : List Entry) : Option Nat :=
  (touched agent entries).reverse.find? (upTo entries).isLiveAt

/-- The place of the message that a stored form is taken for. -/
def storedAt? (t : Transcript) (e : Entry) : Option Nat := match e.payload with
  | .assistantMessage stream _ _ => t.placeOfStored e stream
  | _ => none

/-- An agent has given a stored form that was taken for the message at a place, and has added no
piece to any message since. -/
def HandedIn (agent : String) (entries : List Entry) (place : Nat) : Prop :=
  ∃ before e after, entries = before ++ e :: after ∧ e.agent = agent ∧
    (upTo before).storedAt? e = some place ∧ touchedFrom agent (upTo (before ++ [e])) after = []

/-- All that happens to the messages on display is that a piece is added to the one at a place, or
begins a new one if no place is given. -/
def AddsTo (t t' : Transcript) (e : Entry) (part : Message.Part) (text : String) :
    Option Nat → Prop
  | some place => ∃ m, t.message? place = some m ∧
      t'.items = (t.replace place (m.grow part text)).items
  | none => t'.items = t.items.push (.message (.begin e none part text))

/-- Every piece that names no stream is added to the message to which its agent last added one,
among those that are still live, and begins one only if there is none. -/
def FollowsLatestLive (timeline : List Entry) : Prop :=
  ∀ before e after part text, timeline = before ++ e :: after → e.payload = .piece part none text →
    (upTo before).AddsTo (upTo (before ++ [e])) e part text (latestLive? e.agent before)

/-- What becomes of a piece that names no stream, after some entries. -/
structure PieceFate (before : List Entry) (e : Entry) (part : Message.Part) (text : String) :
    Prop where
  /-- It is added to the message that its agent last touched, if that is live. -/
  adds : ∀ place, (touched e.agent before).getLast? = some place →
    (upTo before).isLiveAt place = true →
    (upTo before).AddsTo (upTo (before ++ [e])) e part text (some place)
  /-- It begins a message if its agent has touched none, or has handed in the last one. -/
  begins : (∀ place, (touched e.agent before).getLast? = some place →
      HandedIn e.agent before place) →
    (upTo before).AddsTo (upTo (before ++ [e])) e part text none
  /-- It is lost if someone else has closed that message. -/
  lost : ∀ place, (touched e.agent before).getLast? = some place →
    (upTo before).isLiveAt place = false → ¬ HandedIn e.agent before place →
    (upTo (before ++ [e])).items = (upTo before).items
  /-- So it goes where it should unless the message last touched is closed, and someone else has
  closed it or an earlier one is live. -/
  adds_latestLive?_iff :
    (upTo before).AddsTo (upTo (before ++ [e])) e part text (latestLive? e.agent before) ↔
      ∀ place, (touched e.agent before).getLast? = some place →
        (upTo before).isLiveAt place = true ∨
          HandedIn e.agent before place ∧ latestLive? e.agent before = none

/-- What becomes of all pieces that name no stream. -/
def TellsPieces (timeline : List Entry) : Prop :=
  ∀ before e after part text, timeline = before ++ e :: after → e.payload = .piece part none text →
    PieceFate before e part text

variable {t t' : Transcript} {e : Entry} {agent : String} {place : Nat} {m : Message}
  {before : List Entry}

/-! ## One entry -/

theorem grownAt?_eq_some (h : ∀ q, t.deltasAt q < t'.deltasAt q ↔ q = place) :
    t.grownAt? t' = some place := by
  have hlt : t.deltasAt place < t'.deltasAt place := (h place).mpr rfl
  have hmem : place ∈ List.range t'.items.size := by
    refine List.mem_range.mpr (Nat.lt_of_not_le fun hle ↦ ?_)
    have hnone : t'.message? place = none := by
      rw [message?, Array.getElem?_eq_none hle]
    rw [deltasAt, deltasAt, hnone] at hlt
    exact Nat.not_lt_zero _ hlt
  rw [grownAt?]
  cases hfind : (List.range t'.items.size).find? fun q ↦ t.deltasAt q < t'.deltasAt q with
  | none => exact absurd hlt (by simpa using List.find?_eq_none.mp hfind place hmem)
  | some q => rw [(h q).mp (by simpa using List.find?_some hfind)]

theorem grownAt?_eq_none (h : ∀ q, t'.deltasAt q ≤ t.deltasAt q) : t.grownAt? t' = none :=
  List.find?_eq_none.mpr fun q _ ↦ by simpa using h q

theorem deltas_grow (m : Message) (part : Message.Part) (text : String) :
    (m.grow part text).deltas = m.deltas + 1 := by
  cases part <;> rfl

private theorem grownAt?_grow (hm : t.message? place = some m) (part : Message.Part) (text : String)
    (agent : String) :
    t.grownAt? ((t.replace place (m.grow part text)).touch agent place) = some place := by
  refine grownAt?_eq_some fun q ↦ ?_
  rw [deltasAt, deltasAt, message?_touch, message?_replace hm]
  by_cases hq : q = place
  · rw [if_pos hq, hq, hm, Option.map_some, Option.map_some, deltas_grow]
    exact iff_of_true (Nat.lt_succ_self m.deltas) rfl
  · rw [if_neg hq]
    exact iff_of_false (Nat.lt_irrefl _) hq

private theorem grownAt?_begin (t : Transcript) (e : Entry) (stream : Option String)
    (part : Message.Part) (text : String) :
    t.grownAt? ((t.add (.begin e stream part text)).touch e.agent t.items.size)
      = some t.items.size := by
  refine grownAt?_eq_some fun q ↦ ?_
  rw [deltasAt, deltasAt, message?_touch, message?_add]
  by_cases hq : q = t.items.size
  · rw [if_pos hq, hq, message?_size, Option.map_some, Message.begin, deltas_grow]
    exact iff_of_true Nat.zero_lt_one rfl
  · rw [if_neg hq]
    exact iff_of_false (Nat.lt_irrefl _) hq

/-- A stored form adds no piece. -/
theorem grownAt?_settle (hm : t.message? place = some m) (e : Entry) (stream : Option String)
    (content : String) (thinking : Option String) :
    t.grownAt? (t.settle e place m (m.close stream content thinking)) = none := by
  refine grownAt?_eq_none fun q ↦ ?_
  rw [deltasAt, deltasAt, message?_settle hm]
  split
  · next hq =>
    rw [hq, hm]
    split <;> exact Nat.le_refl _
  · exact Nat.le_refl _

theorem grownAt?_stand (t : Transcript) (e : Entry) (stream : Option String) (content : String)
    (thinking : Option String) :
    t.grownAt? { t.add (.stored e stream content thinking) with lastStored := some e.sequence }
      = none := by
  refine grownAt?_eq_none fun q ↦ ?_
  have hmessage := message?_add t (.stored e stream content thinking) q
  have hdeltas : deltasAt { t.add (.stored e stream content thinking) with
      lastStored := some e.sequence } q
        = ((if q = t.items.size then some (Message.stored e stream content thinking)
            else t.message? q).map Message.deltas).getD 0 := by
    rw [← hmessage]
    rfl
  rw [hdeltas]
  split
  · exact Nat.zero_le _
  · exact Nat.le_refl _

/-- A stored form is taken for a message that is there. -/
theorem exists_message?_of_storedAt? (h : (upTo before).storedAt? e = some place) :
    ∃ m, (upTo before).message? place = some m := by
  rw [storedAt?] at h
  split at h
  · next stream content thinking he =>
    rw [placeOfStored, Option.or_eq_some_iff] at h
    rcases h with hstream | ⟨-, hlive⟩
    · obtain ⟨id, rfl, hid⟩ := Option.bind_eq_some_iff.mp hstream
      obtain ⟨m, hm, -⟩ := (indexed_upTo before).known id place hid
      exact ⟨m, hm⟩
    · obtain ⟨q, -, hq⟩ := Option.bind_eq_some_iff.mp hlive
      split at hq
      · next m hm =>
        split at hq
        · cases hq
          exact ⟨m, hm⟩
        · cases hq
      · cases hq
  · cases h

theorem storedAt?_piece {part : Message.Part} {stream : Option String} {text : String}
    (he : e.payload = .piece part stream text) : t.storedAt? e = none := by
  rw [storedAt?, he]
  cases part <;> rfl

private theorem storedAt?_stored {stream : Option String} {content : String}
    {thinking : Option String} (he : e.payload = .assistantMessage stream content thinking) :
    t.storedAt? e = t.placeOfStored e stream := by
  rw [storedAt?, he]

/-- What an entry does to the pointer of its agent: a piece that is taken in sets it, and a stored
form for the message to which it leads removes it. -/
theorem liveBy_step_self (before : List Entry) (e : Entry) :
    ((upTo before).step e).liveBy.get? e.agent
      = ((upTo before).grownAt? ((upTo before).step e)).or
        (if (upTo before).storedAt? e = (upTo before).liveBy.get? e.agent then none
          else (upTo before).liveBy.get? e.agent) := by
  have hmessage : ∀ {place}, (upTo before).storedAt? e = some place →
      ∃ m, (upTo before).message? place = some m := exists_message?_of_storedAt?
  have hself : (upTo before).grownAt? (upTo before) = none :=
    grownAt?_eq_none fun q ↦ Nat.le_refl _
  have hkeep : ∀ {pointer : Option Nat}, (if none = pointer then none else pointer) = pointer := by
    intro pointer
    split
    · assumption
    · rfl
  have heffect := (upTo before).effect_step e
  generalize upTo before = t at *
  generalize t.step e = u at heffect ⊢
  cases heffect with
  | pass hpiece hstored =>
    have hnone : t.storedAt? e = none := by
      rw [storedAt?]
      split
      · next stream content thinking he => exact absurd ⟨stream, content, thinking, he⟩ hstored
      · rfl
    have hpassed : t.grownAt? (t.pass e) = none := by
      refine grownAt?_eq_none fun q ↦ ?_
      rw [deltasAt, message?_pass, deltasAt]
    rw [hpassed, hnone, hkeep, Option.none_or]
    rfl
  | @grow part stream text place m he hplace hm hlive =>
    rw [grownAt?_grow hm, Option.some_or, touch, Table.get?_insert, if_pos rfl]
  | @begin part stream text he hplace =>
    rw [grownAt?_begin, Option.some_or, touch, Table.get?_insert, if_pos rfl]
  | ignorePiece he hplace hclosed =>
    rw [hself, storedAt?_piece he, hkeep, Option.none_or]
  | @close stream content thinking place m he hplace hm =>
    rw [grownAt?_settle hm, storedAt?_stored he, hplace, Option.none_or, settle]
    dsimp only
    by_cases hpoints : t.liveBy.get? e.agent = some place
    · rw [if_pos hpoints, if_pos hpoints.symm, Table.get?_erase, if_pos rfl]
    · rw [if_neg hpoints, if_neg (Ne.symm hpoints)]
  | stand he hplace hpassed =>
    rw [grownAt?_stand, storedAt?_stored he, hplace, hkeep, Option.none_or]
    rfl
  | ignoreStored he hplace hpassed =>
    have hnone : t.storedAt? e = none := by
      rw [Option.eq_none_iff_forall_ne_some]
      intro place hstored
      obtain ⟨m, hm⟩ := hmessage hstored
      rw [storedAt?_stored he] at hstored
      rw [hplace place hstored] at hm
      cases hm
    rw [hself, hnone, hkeep, Option.none_or]

/-- An entry leaves the pointers of other agents alone. -/
theorem liveBy_step_of_ne (t : Transcript) (h : e.agent ≠ agent) :
    (t.step e).liveBy.get? agent = t.liveBy.get? agent := by
  have heffect := t.effect_step e
  generalize t.step e = u at heffect ⊢
  cases heffect with
  | grow _ _ _ _ => rw [touch, Table.get?_insert, if_neg (Ne.symm h)]; rfl
  | begin _ _ => rw [touch, Table.get?_insert, if_neg (Ne.symm h)]; rfl
  | close _ _ _ =>
    rw [settle]
    dsimp only
    split
    · rw [Table.get?_erase, if_neg (Ne.symm h)]
    · rfl
  | _ => rfl

/-! ## Any number of entries -/

theorem touchedFrom_append (agent : String) (t : Transcript) (before after : List Entry) :
    touchedFrom agent t (before ++ after)
      = touchedFrom agent t before ++ touchedFrom agent (before.foldl step t) after := by
  induction before generalizing t with
  | nil => rfl
  | cons e rest ih => rw [List.cons_append, touchedFrom, ih, touchedFrom, List.append_assoc]; rfl

theorem touchedFrom_singleton (agent : String) (t : Transcript) (e : Entry) :
    touchedFrom agent t [e]
      = if e.agent = agent then (t.grownAt? (t.step e)).toList else [] := by
  rw [touchedFrom, touchedFrom, List.append_nil]

theorem touched_concat (agent : String) (before : List Entry) (e : Entry) :
    touched agent (before ++ [e]) = touched agent before ++
      if e.agent = agent then ((upTo before).grownAt? ((upTo before).step e)).toList else [] := by
  rw [touched, touchedFrom_append, touchedFrom_singleton]
  rfl

/-- One more entry may hand a message in, or it leaves what was handed in before. -/
theorem handedIn_concat_iff : HandedIn agent (before ++ [e]) place ↔
    (e.agent = agent ∧ (upTo before).storedAt? e = some place) ∨
      (HandedIn agent before place ∧
        (e.agent = agent → (upTo before).grownAt? ((upTo before).step e) = none)) := by
  -- an agent has added nothing by one more entry if it had not before and does not now
  have hquiet : ∀ first x rest, before = first ++ x :: rest →
      (touchedFrom agent (upTo (first ++ [x])) (rest ++ [e]) = [] ↔
        touchedFrom agent (upTo (first ++ [x])) rest = [] ∧
          (e.agent = agent → (upTo before).grownAt? ((upTo before).step e) = none)) := by
    intro first x rest hbefore
    have hupTo : rest.foldl step (upTo (first ++ [x])) = upTo before := by
      rw [upTo, ← List.foldl_append, List.append_assoc, List.singleton_append, ← hbefore, upTo]
    rw [touchedFrom_append, List.append_eq_nil_iff, hupTo, touchedFrom_singleton]
    refine and_congr_right fun _ ↦ ?_
    by_cases hagent : e.agent = agent <;> simp [hagent]
  constructor
  · rintro ⟨first, x, rest, hsplit, hagent, hstored, hnone⟩
    rcases List.eq_nil_or_concat' rest with rfl | ⟨rest, y, rfl⟩
    · obtain ⟨rfl, hx⟩ := List.append_inj' hsplit rfl
      obtain rfl : e = x := List.singleton_inj.mp hx
      exact Or.inl ⟨hagent, hstored⟩
    · rw [← List.cons_append, ← List.append_assoc] at hsplit
      obtain ⟨hbefore, hy⟩ := List.append_inj' hsplit rfl
      obtain rfl : e = y := List.singleton_inj.mp hy
      obtain ⟨hrest, hgrown⟩ := (hquiet first x rest hbefore).mp hnone
      exact Or.inr ⟨⟨first, x, rest, hbefore, hagent, hstored, hrest⟩, hgrown⟩
  · rintro (⟨hagent, hstored⟩ | ⟨⟨first, x, rest, hbefore, hagent, hstored, hrest⟩, hgrown⟩)
    · exact ⟨before, e, [], rfl, hagent, hstored, rfl⟩
    · refine ⟨first, x, rest ++ [e], ?_, hagent, hstored, ?_⟩
      · rw [hbefore, List.append_assoc, List.cons_append]
      · exact (hquiet first x rest hbefore).mpr ⟨hrest, hgrown⟩

/-- A piece that is taken in is no stored form. -/
theorem storedAt?_eq_none_of_grownAt? (h : t.grownAt? (t.step e) = some place) :
    t.storedAt? e = none := by
  have heffect := t.effect_step e
  generalize t.step e = u at heffect h
  cases heffect with
  | grow he _ _ _ => exact storedAt?_piece he
  | begin he _ => exact storedAt?_piece he
  | ignorePiece he _ _ => exact storedAt?_piece he
  | close _ _ hm =>
    rw [grownAt?_settle hm] at h
    cases h
  | stand _ _ _ =>
    rw [grownAt?_stand] at h
    cases h
  | pass _ hstored =>
    rw [storedAt?]
    split
    · next stream content thinking he => exact absurd ⟨stream, content, thinking, he⟩ hstored
    · rfl
  | ignoreStored _ _ _ =>
    rw [grownAt?_eq_none fun q ↦ Nat.le_refl _] at h
    cases h

/-- **Pointers.** An agent's pointer leads to the last message that the agent touched, unless it has
handed that in since. -/
theorem liveBy_eq_some_iff (entries : List Entry) (agent : String) (place : Nat) :
    (upTo entries).liveBy.get? agent = some place ↔
      (touched agent entries).getLast? = some place ∧ ¬ HandedIn agent entries place := by
  induction entries using List.reverseRecOn generalizing place with
  | nil =>
    refine iff_of_false (fun h ↦ ?_) fun h ↦ ?_
    · cases h
    · cases h.1
  | append_singleton before e ih =>
    rw [touched_concat, handedIn_concat_iff, upTo_concat]
    by_cases hagent : e.agent = agent
    · subst hagent
      rw [liveBy_step_self, if_pos rfl]
      cases hgrown : (upTo before).grownAt? ((upTo before).step e) with
      | some q =>
        rw [storedAt?_eq_none_of_grownAt? hgrown]
        simp
      | none =>
        simp only [Option.none_or, Option.toList_none, List.append_nil, true_and, implies_true,
          and_true, not_or]
        rw [and_left_comm, ← ih]
        constructor
        · intro h
          split at h
          · cases h
          · next hne => exact ⟨fun hstored ↦ hne (hstored.trans h.symm), h⟩
        · rintro ⟨hne, h⟩
          rw [if_neg fun hstored ↦ hne (hstored.trans h), h]
    · rw [liveBy_step_of_ne _ hagent, if_neg hagent, List.append_nil, ih]
      simp [hagent]

/-- A stored form leaves the message that it is taken for closed. -/
theorem exists_closed_of_storedAt? (h : t.storedAt? e = some place)
    (hm : t.message? place = some m) :
    ∃ m', (t.step e).message? place = some m' ∧ m'.isLive = false := by
  rw [storedAt?] at h
  split at h
  · next stream content thinking he =>
    rw [step_stored he]
    rcases t.stored_cases e stream content thinking with
      ⟨q, n, hq, hn, heq⟩ | ⟨hnone, -, -⟩ | ⟨hnone, -, -⟩
    · obtain rfl : q = place := Option.some.inj (hq.symm.trans h)
      rw [heq, message?_settle hn, if_pos rfl]
      refine ⟨_, rfl, ?_⟩
      split
      · rfl
      · next hclosed => exact Bool.eq_false_of_not_eq_true hclosed
    · rw [hnone place h] at hm
      cases hm
    · rw [hnone] at h
      cases h
  · cases h

/-- What is handed in is closed. -/
theorem isLiveAt_eq_false_of_handedIn {entries : List Entry} (h : HandedIn agent entries place) :
    (upTo entries).isLiveAt place = false := by
  obtain ⟨before, e, after, rfl, -, hstored, -⟩ := h
  obtain ⟨m, hm⟩ := exists_message?_of_storedAt? hstored
  obtain ⟨m', hm', hclosed⟩ := exists_closed_of_storedAt? hstored hm
  obtain ⟨m'', hm'', hevolves⟩ := exists_message?_of_grows (grows_foldl_step _ after) hm'
  have hrest : upTo (before ++ e :: after) = after.foldl step ((upTo before).step e) := by
    rw [upTo, List.foldl_append]
    rfl
  rw [hrest, isLiveAt, hm'', hevolves.eq_of_stored hclosed]
  exact hclosed

private theorem latestLive?_of_getLast?_eq_none (h : (touched agent before).getLast? = none) :
    latestLive? agent before = none := by
  rw [latestLive?, List.getLast?_eq_none_iff.mp h]
  rfl

/-- The message last touched comes first, if it is live. -/
theorem latestLive?_of_isLiveAt (h : (touched agent before).getLast? = some place)
    (hlive : (upTo before).isLiveAt place = true) : latestLive? agent before = some place := by
  obtain ⟨init, hinit⟩ := List.getLast?_eq_some_iff.mp h
  rw [latestLive?, hinit, List.reverse_concat, List.find?_cons_of_pos hlive]

/-! ## Pieces -/

section Piece

variable {part : Message.Part} {text : String}

theorem size_items_of_addsTo_some (h : t.AddsTo t' e part text (some place)) :
    t'.items.size = t.items.size := by
  obtain ⟨m, -, hitems⟩ := h
  rw [hitems, replace, Array.size_setIfInBounds]

theorem size_items_of_addsTo_none (h : t.AddsTo t' e part text none) :
    t'.items.size = t.items.size + 1 := by
  have hitems : t'.items = t.items.push (.message (.begin e none part text)) := h
  rw [hitems, Array.size_push]

/-- A piece that is added somewhere changes what is on display. -/
theorem not_addsTo_of_items_eq (h : t'.items = t.items) (target : Option Nat) :
    ¬ t.AddsTo t' e part text target := by
  cases target with
  | none =>
    intro hadds
    have hsize := size_items_of_addsTo_none hadds
    rw [h] at hsize
    exact Nat.succ_ne_self _ hsize.symm
  | some place =>
    rintro ⟨m, hm, hitems⟩
    have hgrown : (t.replace place (m.grow part text)).message? place
        = some (m.grow part text) := by
      rw [message?_replace hm, if_pos rfl]
    rw [message?, ← hitems, h, ← message?, hm, Option.some_inj] at hgrown
    have hdeltas := congrArg Message.deltas hgrown
    rw [deltas_grow] at hdeltas
    exact Nat.succ_ne_self _ hdeltas.symm

variable (he : e.payload = .piece part none text)
include he

private theorem addsTo_of_liveBy (hpointer : t.liveBy.get? e.agent = some place)
    (hlive : t.isLiveAt place = true) : t.AddsTo (t.step e) e part text (some place) := by
  obtain ⟨m, hm, hmlive⟩ := (Option.any_eq_true _ _).mp hlive
  refine ⟨m, hm, ?_⟩
  rw [step_piece_of_pointer he hpointer hm hmlive]
  rfl

private theorem items_step_of_liveBy (hpointer : t.liveBy.get? e.agent = some place)
    (hlive : t.isLiveAt place = false) : (t.step e).items = t.items := by
  rw [step_piece he, delta, placeOfDelta, hpointer]
  cases hm : t.message? place with
  | none => simp only [hm]
  | some m =>
    rw [isLiveAt, hm, Option.any_some] at hlive
    simp [hm, hlive]

private theorem addsTo_of_liveBy_eq_none (hpointer : t.liveBy.get? e.agent = none) :
    t.AddsTo (t.step e) e part text none := by
  rw [step_piece_of_no_pointer he hpointer]
  rfl

/-- What becomes of a piece follows from where its agent's pointer leads. -/
theorem pieceFate (before : List Entry) : PieceFate before e part text := by
  have hpointer := liveBy_eq_some_iff before e.agent
  have hadds : ∀ place, (touched e.agent before).getLast? = some place →
      (upTo before).isLiveAt place = true →
      (upTo before).AddsTo (upTo (before ++ [e])) e part text (some place) := by
    intro place hlast hlive
    rw [upTo_concat]
    refine addsTo_of_liveBy he ((hpointer place).mpr ⟨hlast, fun hhanded ↦ ?_⟩) hlive
    rw [isLiveAt_eq_false_of_handedIn hhanded] at hlive
    cases hlive
  have hbegins : (∀ place, (touched e.agent before).getLast? = some place →
      HandedIn e.agent before place) →
      (upTo before).AddsTo (upTo (before ++ [e])) e part text none := by
    intro hhanded
    rw [upTo_concat]
    refine addsTo_of_liveBy_eq_none he (Option.eq_none_iff_forall_ne_some.mpr fun place h ↦ ?_)
    obtain ⟨hlast, hkept⟩ := (hpointer place).mp h
    exact hkept (hhanded place hlast)
  have hlost : ∀ place, (touched e.agent before).getLast? = some place →
      (upTo before).isLiveAt place = false → ¬ HandedIn e.agent before place →
      (upTo (before ++ [e])).items = (upTo before).items := by
    intro place hlast hclosed hkept
    rw [upTo_concat]
    exact items_step_of_liveBy he ((hpointer place).mpr ⟨hlast, hkept⟩) hclosed
  refine ⟨hadds, hbegins, hlost, ?_⟩
  cases hlast : (touched e.agent before).getLast? with
  | none =>
    rw [latestLive?_of_getLast?_eq_none hlast]
    refine iff_of_true (hbegins fun place h ↦ ?_) fun place h ↦ ?_
    · rw [hlast] at h
      cases h
    · cases h
  | some place =>
    simp only [Option.some_inj, forall_eq']
    cases hlive : (upTo before).isLiveAt place with
    | true =>
      rw [latestLive?_of_isLiveAt hlast hlive]
      exact iff_of_true (hadds place hlast hlive) (Or.inl rfl)
    | false =>
      rw [or_iff_right Bool.false_ne_true]
      by_cases hhanded : HandedIn e.agent before place
      · have hnew := hbegins fun q hq ↦ Option.some.inj (hlast.symm.trans hq) ▸ hhanded
        rw [and_iff_right hhanded]
        cases hlatest : latestLive? e.agent before with
        | none => exact iff_of_true hnew rfl
        | some q =>
          refine iff_of_false (fun hold ↦ ?_) (Option.some_ne_none q)
          have hsize := size_items_of_addsTo_none hnew
          rw [size_items_of_addsTo_some hold] at hsize
          exact Nat.succ_ne_self _ hsize.symm
      · exact iff_of_false (not_addsTo_of_items_eq (hlost place hlast hlive hhanded) _) fun h ↦
          hhanded h.1

end Piece

/-- **Pieces without a stream.** Where they go is a matter of the message that their agent last
touched, and of it alone. -/
theorem tellsPieces (timeline : List Entry) : TellsPieces timeline :=
  fun before _ _ _ _ _ he ↦ pieceFate he before

/-- A worker adds to one stream and then to another, closes the second, and goes on without a
stream. -/
def wentBack : List Event :=
  [⟨1, "s1", some "worker", some 1000, .contentDelta (some "m1") "Let me "⟩,
   ⟨2, "s1", some "worker", some 2000, .contentDelta (some "m2") "Done."⟩,
   ⟨3, "s1", some "worker", some 3000, .assistantMessage (some "m2") "Done." none⟩,
   ⟨4, "s1", some "worker", some 4000, .contentDelta none "see."⟩]

/-- The piece does not go to the first stream, which is still live. -/
theorem not_followsLatestLive_wentBack :
    ¬ FollowsLatestLive (Timeline.ofEvents "s1" wentBack default) := by
  have htimeline : Timeline.ofEvents "s1" wentBack default =
      wentBack.map fun e ↦ ⟨e, "worker", e.time.getD 0⟩ := by
    rw [Timeline.ofEvents, Timeline.admitted_eq_self (by decide) (by decide)]
    rfl
  rw [htimeline]
  intro h
  have hadds := h ((wentBack.take 3).map fun e ↦ ⟨e, "worker", e.time.getD 0⟩)
    ⟨⟨4, "s1", some "worker", some 4000, .contentDelta none "see."⟩, "worker", 4000⟩ []
    .content "see." rfl rfl
  have hlatest : latestLive? "worker" ((wentBack.take 3).map fun e ↦ ⟨e, "worker", e.time.getD 0⟩)
      = some 0 := rfl
  rw [hlatest] at hadds
  exact absurd (size_items_of_addsTo_some hadds) (by decide)

end Transcript

end SessionReplay
