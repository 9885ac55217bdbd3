import SessionReplay.Report.Duration

/-!
# Durations read back

The text of a duration names its parts between blanks, each as a number with the letter of its unit,
and may leave the larger ones out. Whoever reads it takes a part that is missing for zero. That
gives the duration back, `read?_render`, whatever the shape of the text; so the text of a span tells
its whole seconds and nothing else of it, `tellsWholeSeconds_durationText`.
-/

namespace SessionReplay

/-- The units that a duration is told in. -/
inductive TimeUnit
  | hour
  | minute
  | second
deriving DecidableEq, Repr

namespace TimeUnit

/-- How many seconds a unit has. -/
def inSeconds : TimeUnit → Nat
  | hour => 3600
  | minute => 60
  | second => 1

/-- The letter that stands for a unit. -/
def letter : TimeUnit → Char
  | hour => 'h'
  | minute => 'm'
  | second => 's'

/-- The unit that a letter stands for. -/
def ofLetter? : Char → Option TimeUnit
  | 'h' => some hour
  | 'm' => some minute
  | 's' => some second
  | _ => none

private theorem ofLetter?_letter (u : TimeUnit) : ofLetter? u.letter = some u := by cases u <;> rfl

private theorem letter_ne_blank (u : TimeUnit) : u.letter ≠ ' ' := by cases u <;> decide

private theorem exists_iff {p : TimeUnit → Prop} : (∃ u, p u) ↔ p hour ∨ p minute ∨ p second := by
  constructor
  · rintro ⟨u, hu⟩
    cases u with
    | hour => exact Or.inl hu
    | minute => exact Or.inr (Or.inl hu)
    | second => exact Or.inr (Or.inr hu)
  · rintro (hu | hu | hu) <;> exact ⟨_, hu⟩

end TimeUnit

namespace Duration

/-! ## Reading -/

/-- A part of a duration, as a text names it. -/
structure Part where
  amount : Nat
  unit : TimeUnit
deriving DecidableEq, Repr

/-- Reads a part: a number and the letter of a unit right behind it. -/
def Part.read? (word : List Char) : Option Part :=
  (word.getLast?.bind TimeUnit.ofLetter?).bind fun unit ↦
    (Decimal.readNat? word.dropLast).map fun amount ↦ ⟨amount, unit⟩

/-- Whether a larger unit stands before a smaller one, and each unit at most once. -/
def InOrder (parts : List Part) : Prop :=
  parts.Pairwise fun p q ↦ q.unit.inSeconds < p.unit.inSeconds

instance : DecidablePred InOrder := fun parts ↦
  inferInstanceAs (Decidable (parts.Pairwise fun p q ↦ q.unit.inSeconds < p.unit.inSeconds))

/-- Reads the parts of a text, which stand between blanks, the larger units first. -/
def readParts? (text : String) : Option (List Part) :=
  ((text.toList.splitOn ' ').mapM Part.read?).filter fun parts ↦ InOrder parts

/-- The amount of a unit in a list of parts; zero if there is no such part. -/
def amountIn (parts : List Part) (u : TimeUnit) : Nat :=
  ((parts.find? fun p ↦ p.unit = u).map Part.amount).getD 0

/-- The duration that parts stand for. -/
def ofParts (parts : List Part) : Duration :=
  ⟨amountIn parts .hour, amountIn parts .minute, amountIn parts .second⟩

/-- Reads a duration. -/
def read? (text : String) : Option Duration := (readParts? text).map ofParts

/-! ## What is written -/

variable {d : Duration}

/-- The amount of a unit in a duration. -/
def amount (d : Duration) : TimeUnit → Nat
  | .hour => d.hours
  | .minute => d.minutes
  | .second => d.seconds

/-- The parts of a duration. -/
def parts (d : Duration) : List Part :=
  [⟨d.hours, .hour⟩, ⟨d.minutes, .minute⟩, ⟨d.seconds, .second⟩]

/-- The parts that are written: those from the first one on that is not zero, and always the
seconds. -/
def written (d : Duration) : List Part :=
  d.parts.dropWhile fun p ↦ p.amount = 0 ∧ p.unit ≠ .second

theorem written_cases (d : Duration) :
    (0 < d.hours ∧ d.written = d.parts) ∨
    (d.hours = 0 ∧ 0 < d.minutes ∧ d.written = [⟨d.minutes, .minute⟩, ⟨d.seconds, .second⟩]) ∨
    (d.hours = 0 ∧ d.minutes = 0 ∧ d.written = [⟨d.seconds, .second⟩]) := by
  rcases Nat.eq_zero_or_pos d.hours with hhours | hhours
  · rcases Nat.eq_zero_or_pos d.minutes with hminutes | hminutes
    · exact Or.inr (Or.inr ⟨hhours, hminutes, by simp [written, parts, hhours, hminutes]⟩)
    · exact Or.inr (Or.inl ⟨hhours, hminutes,
        by simp [written, parts, hhours, Nat.ne_of_gt hminutes]⟩)
  · exact Or.inl ⟨hhours, by simp [written, parts, Nat.ne_of_gt hhours]⟩

theorem written_ne_nil (d : Duration) : d.written ≠ [] := by
  rcases written_cases d with ⟨-, h⟩ | ⟨-, -, h⟩ | ⟨-, -, h⟩ <;> rw [h] <;>
    exact List.cons_ne_nil _ _

private theorem inOrder_written (d : Duration) : InOrder d.written := by
  have hparts : InOrder d.parts := by simp [InOrder, parts, TimeUnit.inSeconds]
  exact hparts.sublist (List.dropWhile_sublist _)

/-- What is left out of a text is zero. -/
theorem ofParts_written (d : Duration) : ofParts d.written = d := by
  obtain ⟨hours, minutes, seconds⟩ := d
  rcases written_cases ⟨hours, minutes, seconds⟩ with ⟨-, h⟩ | ⟨rfl, -, h⟩ | ⟨rfl, rfl, h⟩ <;>
    rw [h] <;> rfl

/-- The seconds are written, and another part if it or a larger one is not zero. -/
theorem mem_units_written_iff {u : TimeUnit} :
    u ∈ d.written.map Part.unit ↔
      u = .second ∨ ∃ v : TimeUnit, u.inSeconds ≤ v.inSeconds ∧ d.amount v ≠ 0 := by
  rw [TimeUnit.exists_iff]
  -- Each shape of the text says which of its three units are there.
  rcases written_cases d with ⟨hhours, h⟩ | ⟨hhours, hminutes, h⟩ | ⟨hhours, hminutes, h⟩ <;>
    rw [h] <;> cases u <;> simp [parts, TimeUnit.inSeconds, amount] <;> omega

/-- The digits of a part with the letter of its unit. -/
def word (digits : List Char) (u : TimeUnit) : List Char := digits ++ [u.letter]

/-- The words of a text: only the first one may have a single digit. -/
def words : List Part → List (List Char)
  | [] => []
  | p :: later => word (Nat.toDigits 10 p.amount) p.unit ::
      later.map fun q ↦ word (Decimal.twoDigits q.amount) q.unit

private theorem render_eq (d : Duration) :
    d.render = String.ofList ([' '].intercalate (words d.written)) := by
  rw [render]
  rcases written_cases d with ⟨hhours, h⟩ | ⟨hhours, hminutes, h⟩ | ⟨hhours, hminutes, h⟩
  · rw [if_pos hhours, h]
    simp [words, word, parts, TimeUnit.letter, List.intercalate]
  · rw [if_neg (by omega), if_pos hminutes, h]
    simp [words, word, TimeUnit.letter, List.intercalate]
  · rw [if_neg (by omega), if_neg (by omega), h]
    simp [words, word, TimeUnit.letter, List.intercalate]

/-! ## Reading what was written -/

private theorem read?_word {digits : List Char} {p : Part}
    (h : Decimal.readNat? digits = some p.amount) : Part.read? (word digits p.unit) = some p := by
  rw [Part.read?, word, List.getLast?_concat, List.dropLast_concat, Option.bind_some,
    TimeUnit.ofLetter?_letter, Option.bind_some, h, Option.map_some]

private theorem blank_notMem_word {digits : List Char} {n : Nat} {u : TimeUnit}
    (h : Decimal.readNat? digits = some n) : ' ' ∉ word digits u := by
  have hdigits := List.all_eq_true.mp (Decimal.all_isDigit_of_readNat? h)
  rw [word, List.mem_append, List.mem_singleton, not_or]
  exact ⟨fun hblank ↦ absurd (hdigits ' ' hblank) (by decide), (TimeUnit.letter_ne_blank u).symm⟩

private theorem blank_notMem_words (ps : List Part) : ∀ w ∈ words ps, ' ' ∉ w := by
  cases ps with
  | nil => exact List.forall_mem_nil _
  | cons p later =>
    rw [words, List.forall_mem_cons, List.forall_mem_map]
    exact ⟨blank_notMem_word (Decimal.readNat?_toDigits _),
      fun q _ ↦ blank_notMem_word (Decimal.readNat?_twoDigits _)⟩

private theorem mapM_read?_words (ps : List Part) : (words ps).mapM Part.read? = some ps := by
  have hlater (later : List Part) :
      (later.map fun q ↦ word (Decimal.twoDigits q.amount) q.unit).mapM Part.read?
        = some later := by
    induction later with
    | nil => rfl
    | cons q later ih =>
      rw [List.map_cons, List.mapM_cons, read?_word (Decimal.readNat?_twoDigits _), ih]
      rfl
  cases ps with
  | nil => rfl
  | cons p later =>
    rw [words, List.mapM_cons, read?_word (Decimal.readNat?_toDigits _), hlater]
    rfl

theorem words_ne_nil {ps : List Part} (h : ps ≠ []) : words ps ≠ [] := by
  cases ps with
  | nil => exact absurd rfl h
  | cons p later => exact List.cons_ne_nil _ _

/-- From the text of a duration the parts are read that were written. -/
theorem readParts?_render (d : Duration) : readParts? d.render = some d.written := by
  rw [readParts?, render_eq, String.toList_ofList,
    List.splitOn_intercalate ' ' (blank_notMem_words _) (words_ne_nil d.written_ne_nil),
    mapM_read?_words, Option.filter_some, if_pos (decide_eq_true d.inOrder_written)]

/-- **Reading** gives back the duration that was written. -/
theorem read?_render (d : Duration) : read? d.render = some d := by
  rw [read?, readParts?_render, Option.map_some, ofParts_written]

example : read? "1h 02m 03s" = some ⟨1, 2, 3⟩ := by decide

private theorem render_inj {e : Duration} : d.render = e.render ↔ d = e := by
  refine ⟨fun h ↦ ?_, congrArg render⟩
  have hread := congrArg read? h
  rwa [read?_render, read?_render, Option.some_inj] at hread

/-! ## Spans -/

private theorem minutes_ofSeconds_lt (n : Nat) : (ofSeconds n).minutes < 60 := by
  simp only [ofSeconds]
  omega

private theorem seconds_ofSeconds_lt (n : Nat) : (ofSeconds n).seconds < 60 :=
  Nat.mod_lt n (by decide)

private theorem cast_wholeSeconds (span : Instant) :
    (wholeSeconds span : Int) = max span.toInt 0 / 1000 := by
  rw [wholeSeconds]
  omega

private theorem ofSpan_eq_iff {a b : Instant} :
    ofSpan a = ofSpan b ↔ wholeSeconds a = wholeSeconds b := by
  refine ⟨fun h ↦ ?_, congrArg ofSeconds⟩
  have hseconds := congrArg toSeconds h
  rwa [ofSpan, ofSpan, toSeconds_ofSeconds, toSeconds_ofSeconds] at hseconds

/-- Parts that tell so many seconds. -/
structure TellSeconds (ps : List Part) (n : Int) : Prop where
  /-- With zero for a part that is missing, the seconds come out. -/
  toSeconds_eq : ((ofParts ps).toSeconds : Int) = n
  minutes_lt : (ofParts ps).minutes < 60
  seconds_lt : (ofParts ps).seconds < 60
  /-- The seconds are there, and another part is missing exactly if it and all larger ones are
  zero. -/
  mem_units_iff : ∀ u, u ∈ ps.map Part.unit ↔
    u = .second ∨ ∃ v : TimeUnit, u.inSeconds ≤ v.inSeconds ∧ (ofParts ps).amount v ≠ 0

/-- A way to write spans that tells how many whole seconds they have, none if they are negative, and
nothing else of them. -/
structure TellsWholeSeconds (write : Instant → String) : Prop where
  exists_parts : ∀ span, ∃ ps, readParts? (write span) = some ps ∧
    TellSeconds ps (max span.toInt 0 / 1000)
  eq_iff : ∀ a b, write a = write b ↔ max a.toInt 0 / 1000 = max b.toInt 0 / 1000

/-- **The text of a span** tells its whole seconds. -/
theorem tellsWholeSeconds_durationText : TellsWholeSeconds durationText where
  exists_parts span := by
    refine ⟨(ofSpan span).written, readParts?_render _, ?_⟩
    have hread : ofParts (ofSpan span).written = ofSpan span := ofParts_written _
    have hunits (u : TimeUnit) := mem_units_written_iff (d := ofSpan span) (u := u)
    refine ⟨?_, ?_, ?_, ?_⟩ <;> rw [hread]
    · rw [ofSpan, toSeconds_ofSeconds, cast_wholeSeconds]
    · exact minutes_ofSeconds_lt _
    · exact seconds_ofSeconds_lt _
    · exact hunits
  eq_iff a b := by
    rw [durationText, durationText, render_inj, ofSpan_eq_iff, ← cast_wholeSeconds,
      ← cast_wholeSeconds, Int.natCast_inj]

end Duration

end SessionReplay
