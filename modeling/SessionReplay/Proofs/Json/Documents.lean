import SessionReplay.Json.Tree
import SessionReplay.Proofs.Json.Words

/-!
# The document of a printed value

A printed value without doubles reads back as itself: `Tree.read?_render`. The first half of that,
from characters to words, is `tokens?_renderChars`; the second, from words to a document, is a run
of the machine over the words of a value, `Tree.spelledBy_words`.

The machine has a state of its own for the first item of an array, because there the array may also
end. On the words of a value that state is the one in which any value is read.
-/

namespace SessionReplay.Json.Tree

theorem ofFields_eq_map (fields : List (String × Json)) :
    ofFields fields = fields.map fun field ↦ (some field.1, ofJson field.2) := by
  induction fields with
  | nil => rfl
  | cons field fields ih => rw [ofFields, ih, List.map_cons]

/-- No value begins with the end of an array. -/
theorem exists_words_eq_cons (j : Json) : ∃ t ts, j.words = t :: ts ∧ t ≠ .closeBracket := by
  cases j <;> exact ⟨_, _, rfl, nofun⟩

private theorem exists_wordsOfItems_eq_cons (item : Json) (items : List Json) :
    ∃ t ts, wordsOfItems (item :: items) = t :: ts ∧ t ≠ .closeBracket := by
  obtain ⟨t, ts, hwords, ht⟩ := exists_words_eq_cons item
  cases items with
  | nil => exact ⟨t, ts, hwords, ht⟩
  | cons next items => exact ⟨t, _, by rw [wordsOfItems, hwords]; rfl, ht⟩

private theorem exists_wordsOfFields_eq_cons (field : String × Json)
    (fields : List (String × Json)) :
    ∃ ts, wordsOfFields (field :: fields) = .string (some field.1) :: ts := by
  cases fields with
  | nil => exact ⟨_, rfl⟩
  | cons next fields => exact ⟨_, rfl⟩

private theorem step_firstItem {t : Token} (h : t ≠ .closeBracket) (frames : List Frame) :
    Machine.step (.firstItem frames) t = Machine.step (.value (.array [] :: frames)) t := by
  cases t <;> first | rfl | exact absurd rfl h

/-- A document is read from words, inside any open arrays and objects. -/
def SpelledBy (t : Tree) (ts : List Token) : Prop :=
  ∀ frames, ts.foldlM Machine.step (.value frames) = some (.ended t frames)

private theorem foldlM_wordsOfItems {item : Json} {items : List Json}
    (h : ∀ j ∈ item :: items, (ofJson j).SpelledBy j.words) (before : List Tree)
    (frames : List Frame) :
    (wordsOfItems (item :: items) ++ [Token.closeBracket]).foldlM Machine.step
        (.value (.array before :: frames))
      = some (.ended (.array (before.reverse ++ ofItems (item :: items))) frames) := by
  induction items generalizing item before with
  | nil =>
    rw [wordsOfItems, List.foldlM_append, h item List.mem_cons_self]
    simp [Machine.step, ofItems]
  | cons next items ih =>
    obtain ⟨hitem, hitems⟩ := List.forall_mem_cons.mp h
    have hrest := ih hitems (ofJson item :: before)
    rw [List.reverse_cons, List.append_assoc] at hrest
    rw [wordsOfItems, List.append_assoc, List.foldlM_append, hitem]
    exact hrest

/-- A field, after the opening brace or a comma, up to the end of its value. -/
theorem foldlM_wordsOfField {value : Json} (h : (ofJson value).SpelledBy value.words)
    (name : String) (before : List (Option String × Tree)) (frames : List Frame) :
    (Token.string (some name) :: Token.colon :: value.words).foldlM Machine.step
        (.nextName before frames)
      = some (.ended (ofJson value) (.object before (some name) :: frames)) :=
  h (.object before (some name) :: frames)

private theorem foldlM_wordsOfFields {field : String × Json} {fields : List (String × Json)}
    (h : ∀ f ∈ field :: fields, (ofJson f.2).SpelledBy f.2.words)
    (before : List (Option String × Tree)) (frames : List Frame) :
    (wordsOfFields (field :: fields) ++ [Token.closeBrace]).foldlM Machine.step
        (.nextName before frames)
      = some (.ended (.object (before.reverse ++ ofFields (field :: fields))) frames) := by
  induction fields generalizing field before with
  | nil =>
    rw [wordsOfFields, List.foldlM_append, foldlM_wordsOfField (h field List.mem_cons_self)]
    simp [Machine.step, ofFields]
  | cons next fields ih =>
    obtain ⟨hfield, hfields⟩ := List.forall_mem_cons.mp h
    have hrest := ih hfields ((some field.1, ofJson field.2) :: before)
    rw [List.reverse_cons, List.append_assoc] at hrest
    rw [wordsOfFields, List.append_assoc, List.foldlM_append, foldlM_wordsOfField hfield]
    exact hrest

theorem spelledBy_words {j : Json} (h : j.Plain) : (ofJson j).SpelledBy j.words := by
  induction h with
  | null => exact fun _ ↦ rfl
  | bool b => exact fun _ ↦ rfl
  | int h => exact fun _ ↦ rfl
  | string s => exact fun _ ↦ rfl
  | @array items _ ih =>
    intro frames
    cases items with
    | nil => rfl
    | cons item items =>
      obtain ⟨t, ts, hwords, ht⟩ := exists_wordsOfItems_eq_cons item items
      have hitems := foldlM_wordsOfItems ih [] frames
      rw [hwords, List.cons_append, List.foldlM_cons, ← step_firstItem ht] at hitems
      rw [words, hwords]
      exact hitems
  | @object fields _ ih =>
    intro frames
    cases fields with
    | nil => rfl
    | cons field fields =>
      obtain ⟨ts, hwords⟩ := exists_wordsOfFields_eq_cons field fields
      have hfields := foldlM_wordsOfFields ih [] frames
      rw [hwords] at hfields
      rw [words, hwords]
      exact hfields

/-- **Printing loses nothing.** A printed value without doubles reads back as itself. -/
theorem read?_render {j : Json} (h : j.Plain) : read? j.render = some (ofJson j) := by
  have hwords := spelledBy_words h []
  rw [read?, render, String.toList_ofList, tokens?_renderChars h, Option.bind_some, ofTokens?,
    hwords]

end SessionReplay.Json.Tree
