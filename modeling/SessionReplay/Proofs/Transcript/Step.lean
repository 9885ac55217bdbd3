import SessionReplay.Transcript

/-!
# What an entry does to a transcript

A piece is added to a live message, or begins a message, or is ignored: `Transcript.delta_cases`. A
stored form closes a message, or is a message of its own, or is ignored: `Transcript.stored_cases`.
Every other entry is passed on. `Transcript.Effect` lists these cases, and what is said about
transcripts elsewhere is said case by case along it and never by opening the definitions.

## Messages and their places

A place is known by the message that stands there, `Transcript.message?`, so each way to change a
transcript comes with the lemma that says which messages stand where afterwards.
-/

namespace SessionReplay

/-- A piece of a message. -/
def Payload.piece (part : Message.Part) (stream : Option String) (text : String) : Payload :=
  match part with
  | .content => .contentDelta stream text
  | .thinking => .thinkingDelta stream text

/-- Whether the entry is the stored form of a message. -/
def Entry.IsStored (e : Entry) : Prop :=
  ∃ stream content thinking, e.payload = .assistantMessage stream content thinking

/-- The message that begins with a piece. -/
def Message.begin (e : Entry) (stream : Option String) (part : Message.Part) (text : String) :
    Message :=
  Message.grow ⟨e.agent, e.sequence, e.time, stream, "", "", true, 0⟩ part text

/-- The message that is its stored form alone. -/
def Message.stored (e : Entry) (stream : Option String) (content : String)
    (thinking : Option String) : Message :=
  ⟨e.agent, e.sequence, e.time, stream, content, thinking.getD "", false, 0⟩

@[simp] theorem Message.isLive_grow (m : Message) (part : Message.Part) (delta : String) :
    (m.grow part delta).isLive = m.isLive := by
  cases part <;> rfl

@[simp] theorem Message.isLive_begin (e : Entry) (stream : Option String) (part : Message.Part)
    (text : String) : (Message.begin e stream part text).isLive = true :=
  Message.isLive_grow _ _ _

namespace Transcript

/-- The transcript after a stored form for the message at a place: a live message is replaced by the
closed one, and the agent of the stored form forgets the place. -/
def settle (t : Transcript) (e : Entry) (place : Nat) (m closed : Message) : Transcript :=
  { (if m.isLive then t.replace place closed else t) with
    liveBy := if t.liveBy.get? e.agent = some place then t.liveBy.erase e.agent else t.liveBy
    lastStored := some e.sequence }

variable {t : Transcript} {place : Nat} {m : Message} {e : Entry}

/-! ## Places -/

theorem message?_eq_some_iff : t.message? place = some m ↔ t.items[place]? = some (.message m) := by
  rw [message?]
  split
  · next x hx => rw [hx, Option.some_inj, Option.some_inj, Item.message.injEq]
  · next hne =>
    refine iff_of_false (fun h ↦ ?_) (hne m)
    cases h

theorem lt_size_of_message? (h : t.message? place = some m) : place < t.items.size := by
  obtain ⟨hlt, -⟩ := Array.getElem?_eq_some_iff.mp (message?_eq_some_iff.mp h)
  exact hlt

theorem message?_size (t : Transcript) : t.message? t.items.size = none := by
  rw [message?, Array.getElem?_size]

theorem message?_pass (t : Transcript) (e : Entry) (q : Nat) :
    (t.pass e).message? q = t.message? q := by
  rw [message?, message?, pass, Array.getElem?_push]
  by_cases hq : q = t.items.size
  · rw [if_pos hq, hq, Array.getElem?_size]
  · rw [if_neg hq]

theorem message?_add (t : Transcript) (m : Message) (q : Nat) :
    (t.add m).message? q = if q = t.items.size then some m else t.message? q := by
  rw [message?, message?, add, Array.getElem?_push]
  by_cases hq : q = t.items.size
  · rw [if_pos hq, if_pos hq]
  · rw [if_neg hq, if_neg hq]

theorem message?_replace (h : t.message? place = some m) (m' : Message) (q : Nat) :
    (t.replace place m').message? q = if q = place then some m' else t.message? q := by
  rw [message?, message?, replace, Array.getElem?_setIfInBounds]
  by_cases hq : q = place
  · rw [if_pos hq, if_pos hq.symm, if_pos (lt_size_of_message? h)]
  · rw [if_neg hq, if_neg (Ne.symm hq)]

theorem message?_settle (h : t.message? place = some m) (e : Entry) (closed : Message) (q : Nat) :
    (t.settle e place m closed).message? q
      = if q = place then some (if m.isLive then closed else m) else t.message? q := by
  have hitems : (t.settle e place m closed).message? q
      = (if m.isLive then t.replace place closed else t).message? q := rfl
  rw [hitems]
  split
  · exact message?_replace h closed q
  · split
    · next hq => rw [hq, h]
    · rfl

theorem message?_settle_of_closed (h : m.isLive = false) (e : Entry) (closed : Message) (q : Nat) :
    (t.settle e place m closed).message? q = t.message? q := by
  rw [settle, h]
  rfl

@[simp] theorem message?_touch (t : Transcript) (agent : String) (place q : Nat) :
    (t.touch agent place).message? q = t.message? q := rfl

/-! ## Cases -/

theorem step_piece {part : Message.Part} {stream : Option String} {text : String}
    (h : e.payload = .piece part stream text) : t.step e = t.delta e stream part text := by
  cases part with
  | content => rw [step, h]; rfl
  | thinking => rw [step, h]; rfl

theorem step_stored {stream : Option String} {content : String} {thinking : Option String}
    (h : e.payload = .assistantMessage stream content thinking) :
    t.step e = t.stored e stream content thinking := by
  rw [step, h]

/-- A piece without a stream is added to the live message to which its agent's pointer leads. -/
theorem step_piece_of_pointer {part : Message.Part} {text : String}
    (h : e.payload = .piece part none text) (hplace : t.liveBy.get? e.agent = some place)
    (hm : t.message? place = some m) (hlive : m.isLive = true) :
    t.step e = (t.replace place (m.grow part text)).touch e.agent place := by
  rw [step_piece h, delta, placeOfDelta, hplace]
  simp only [hm, hlive, if_true]

/-- A piece without a stream begins a message if its agent has no pointer. -/
theorem step_piece_of_no_pointer {part : Message.Part} {text : String}
    (h : e.payload = .piece part none text) (hplace : t.liveBy.get? e.agent = none) :
    t.step e = (t.add (.begin e none part text)).touch e.agent t.items.size := by
  rw [step_piece h, delta, placeOfDelta, hplace]
  rfl

/-- A piece is added to a live message, or ignored for a closed one, or begins a message. -/
theorem delta_cases (t : Transcript) (e : Entry) (stream : Option String) (part : Message.Part)
    (text : String) :
    (∃ place m, t.placeOfDelta e stream = some place ∧ t.message? place = some m ∧
      m.isLive = true ∧
      t.delta e stream part text = (t.replace place (m.grow part text)).touch e.agent place) ∨
    (∃ place, t.placeOfDelta e stream = some place ∧
      (∀ m, t.message? place = some m → m.isLive = false) ∧ t.delta e stream part text = t) ∨
    (t.placeOfDelta e stream = none ∧
      t.delta e stream part text
        = (t.add (Message.begin e stream part text)).touch e.agent t.items.size) := by
  rw [delta]
  cases hplace : t.placeOfDelta e stream with
  | none => exact Or.inr (Or.inr ⟨rfl, rfl⟩)
  | some place =>
    cases hm : t.message? place with
    | none =>
      refine Or.inr (Or.inl ⟨place, rfl, fun m hm' ↦ ?_, by simp only [hm]⟩)
      rw [hm] at hm'
      cases hm'
    | some m =>
      cases hlive : m.isLive with
      | true => exact Or.inl ⟨place, m, rfl, hm, hlive, by simp only [hm, hlive, if_true]⟩
      | false =>
        refine Or.inr (Or.inl ⟨place, rfl, fun m' hm' ↦ ?_, by simp [hm, hlive]⟩)
        rw [hm, Option.some_inj] at hm'
        rw [← hm', hlive]

/-- A stored form closes a message, or is ignored, or is a message of its own. It is ignored only if
it comes too late or has a place without a message. -/
theorem stored_cases (t : Transcript) (e : Entry) (stream : Option String) (content : String)
    (thinking : Option String) :
    (∃ place m, t.placeOfStored e stream = some place ∧ t.message? place = some m ∧
      t.stored e stream content thinking
        = t.settle e place m (m.close stream content thinking)) ∨
    ((∀ place, t.placeOfStored e stream = some place → t.message? place = none) ∧
      (t.placeOfStored e stream = none → t.isPassed e.sequence = true) ∧
      t.stored e stream content thinking = t) ∨
    (t.placeOfStored e stream = none ∧ t.isPassed e.sequence = false ∧
      t.stored e stream content thinking
        = { t.add (Message.stored e stream content thinking) with
            lastStored := some e.sequence }) := by
  rw [stored]
  cases hplace : t.placeOfStored e stream with
  | some place =>
    cases hm : t.message? place with
    | some m => exact Or.inl ⟨place, m, rfl, hm, by simp only [hm, settle]⟩
    | none =>
      refine Or.inr (Or.inl ⟨fun place' hplace' ↦ ?_, fun hnone ↦ ?_, by simp only [hm]⟩)
      · rw [← Option.some.inj hplace', hm]
      · cases hnone
  | none =>
    cases hpassed : t.isPassed e.sequence with
    | true =>
      refine Or.inr (Or.inl ⟨fun place hplace ↦ ?_, fun _ ↦ rfl, rfl⟩)
      cases hplace
    | false => exact Or.inr (Or.inr ⟨rfl, rfl, rfl⟩)

/-- What an entry may do to a transcript, and when. -/
inductive Effect (t : Transcript) (e : Entry) : Transcript → Prop
  | pass (hpiece : ∀ part stream text, e.payload ≠ .piece part stream text)
      (hstored : ¬ e.IsStored) : Effect t e (t.pass e)
  | grow {part : Message.Part} {stream : Option String} {text : String} {place : Nat} {m : Message}
      (he : e.payload = .piece part stream text) (hplace : t.placeOfDelta e stream = some place)
      (hm : t.message? place = some m) (hlive : m.isLive = true) :
      Effect t e ((t.replace place (m.grow part text)).touch e.agent place)
  | begin {part : Message.Part} {stream : Option String} {text : String}
      (he : e.payload = .piece part stream text) (hplace : t.placeOfDelta e stream = none) :
      Effect t e ((t.add (.begin e stream part text)).touch e.agent t.items.size)
  | ignorePiece {part : Message.Part} {stream : Option String} {text : String} {place : Nat}
      (he : e.payload = .piece part stream text) (hplace : t.placeOfDelta e stream = some place)
      (hclosed : ∀ m, t.message? place = some m → m.isLive = false) : Effect t e t
  | close {stream : Option String} {content : String} {thinking : Option String} {place : Nat}
      {m : Message} (he : e.payload = .assistantMessage stream content thinking)
      (hplace : t.placeOfStored e stream = some place) (hm : t.message? place = some m) :
      Effect t e (t.settle e place m (m.close stream content thinking))
  | stand {stream : Option String} {content : String} {thinking : Option String}
      (he : e.payload = .assistantMessage stream content thinking)
      (hplace : t.placeOfStored e stream = none) (hpassed : t.isPassed e.sequence = false) :
      Effect t e { t.add (.stored e stream content thinking) with lastStored := some e.sequence }
  | ignoreStored {stream : Option String} {content : String} {thinking : Option String}
      (he : e.payload = .assistantMessage stream content thinking)
      (hplace : ∀ place, t.placeOfStored e stream = some place → t.message? place = none)
      (hpassed : t.placeOfStored e stream = none → t.isPassed e.sequence = true) : Effect t e t

private theorem effect_delta (part : Message.Part) {stream : Option String} {text : String}
    (he : e.payload = .piece part stream text) : t.Effect e (t.delta e stream part text) := by
  rcases t.delta_cases e stream part text with
    ⟨place, m, hplace, hm, hlive, heq⟩ | ⟨place, hplace, hclosed, heq⟩ | ⟨hplace, heq⟩
  · rw [heq]
    exact .grow he hplace hm hlive
  · rw [heq]
    exact .ignorePiece he hplace hclosed
  · rw [heq]
    exact .begin he hplace

private theorem effect_stored {stream : Option String} {content : String} {thinking : Option String}
    (he : e.payload = .assistantMessage stream content thinking) :
    t.Effect e (t.stored e stream content thinking) := by
  rcases t.stored_cases e stream content thinking with
    ⟨place, m, hplace, hm, heq⟩ | ⟨hplace, hpassed, heq⟩ | ⟨hplace, hpassed, heq⟩
  · rw [heq]
    exact .close he hplace hm
  · rw [heq]
    exact .ignoreStored he hplace hpassed
  · rw [heq]
    exact .stand he hplace hpassed

/-- **One entry.** It has one of these effects. -/
theorem effect_step (t : Transcript) (e : Entry) : t.Effect e (t.step e) := by
  rw [step]
  split
  · next stream text he => exact effect_delta .content he
  · next stream text he => exact effect_delta .thinking he
  · next stream content thinking he => exact effect_stored he
  · next hcontent hthinking hstored =>
    refine .pass (fun part stream text he ↦ ?_) fun ⟨stream, content, thinking, he⟩ ↦ ?_
    · cases part with
      | content => exact hcontent stream text he
      | thinking => exact hthinking stream text he
    · exact hstored stream content thinking he

end Transcript

end SessionReplay
