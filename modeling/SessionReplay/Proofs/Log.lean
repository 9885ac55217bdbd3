import SessionReplay.Log
import SessionReplay.Proofs.Event
import SessionReplay.Proofs.Json.OneLine

/-!
# Logs that are written and read again

A log that could be read is written again without loss, as long as no double stands in the arguments
or results of its events: `readText_write_of_read`. The events come back in their order and
unchanged, nothing is skipped, and there is one line for each.

The events of a log need no more than that to come back, because a printed event is one line of text
without blanks at its ends: it holds no control character (`Json.oneLine_renderChars`), and so no
byte of it ends a line.
-/

namespace SessionReplay

namespace Log

/-! ## Bytes of text -/

private theorem toList_loop (bytes : ByteArray) (i : Nat) (before : List UInt8) :
    ByteArray.toList.loop bytes i before = before.reverse ++ bytes.data.toList.drop i := by
  fun_induction ByteArray.toList.loop bytes i before with
  | case1 i before hi ih =>
    have hsize : i < bytes.data.toList.length := hi
    have hget : bytes.get! i = bytes.data.toList[i] := by
      rw [Array.getElem_toList]
      exact getElem!_pos bytes.data i hi
    rw [ih, List.drop_eq_getElem_cons hsize, List.reverse_cons, List.append_assoc, hget]
    rfl
  | case2 i before hi =>
    have hsize : bytes.data.toList.length ≤ i := Nat.le_of_not_lt hi
    rw [List.drop_eq_nil_of_le hsize, List.append_nil]

theorem toList_toUTF8 (s : String) :
    s.toUTF8.toList = s.toList.flatMap String.utf8EncodeChar := by
  have hbytes : s.toUTF8 = (s.toList.flatMap String.utf8EncodeChar).toByteArray := by
    have h := String.toByteArray_ofList (l := s.toList)
    rwa [String.ofList_toList] at h
  rw [hbytes, ByteArray.toList, toList_loop, List.data_toByteArray]
  rfl

/-- Only the character that ends a line has the byte that ends it. -/
theorem lineEnd_notMem_utf8EncodeChar {c : Char} (h : c.toNat ≠ 10) :
    lineEnd ∉ String.utf8EncodeChar c := by
  have hval : c.val.toNat = c.toNat := rfl
  have hne {n : Nat} (hn : n % 256 ≠ 10) : lineEnd ≠ UInt8.ofNat n := by
    intro heq
    have := congrArg UInt8.toNat heq
    exact hn this.symm
  rw [String.utf8EncodeChar]
  simp only [hval]
  intro hmem
  repeat' split at hmem
  all_goals
    simp only [List.mem_cons, List.not_mem_nil, or_false] at hmem
  · exact hne (by omega) hmem
  · rcases hmem with h1 | h2
    · exact hne (by omega) h1
    · exact hne (by omega) h2
  · rcases hmem with h1 | h2 | h3
    · exact hne (by omega) h1
    · exact hne (by omega) h2
    · exact hne (by omega) h3
  · rcases hmem with h1 | h2 | h3 | h4
    · exact hne (by omega) h1
    · exact hne (by omega) h2
    · exact hne (by omega) h3
    · exact hne (by omega) h4

theorem ofBytes_utf8 (s : String) :
    Line.ofBytes (s.toList.flatMap String.utf8EncodeChar) = .ok (.ofText s) := by
  have hbytes : (s.toList.flatMap String.utf8EncodeChar).toByteArray = s.toByteArray := by
    have h := String.toByteArray_ofList (l := s.toList)
    rw [String.ofList_toList] at h
    exact h.symm
  have hvalid : s.toByteArray.IsValidUTF8 := s.isValidUTF8
  rw [Line.ofBytes, hbytes, String.fromUTF8?, dif_pos hvalid]
  rfl

/-! ## Lines of bytes -/

theorem linesAfter_lineEnd {bytes : List UInt8} (h : lineEnd ∉ bytes) (before rest : List UInt8) :
    linesAfter before (bytes ++ lineEnd :: rest) = (before.reverse ++ bytes) :: lines rest := by
  induction bytes generalizing before with
  | nil => simp [linesAfter, lines]
  | cons b bytes ih =>
    obtain ⟨hb, hbytes⟩ := not_or.mp (mt List.mem_cons.mpr h)
    rw [List.cons_append, linesAfter, if_neg (Ne.symm hb), ih hbytes, List.reverse_cons,
      List.append_assoc, List.singleton_append]

/-! ## Printed events -/

/-- A record has no blanks around it. -/
theorem trimChars_record (cs : List Char) :
    Text.trimChars ('{' :: cs ++ ['}']) = '{' :: cs ++ ['}'] := by
  have hopen : Text.isBlank '{' = false := by decide
  have hclose : Text.isBlank '}' = false := by decide
  simp [Text.trimChars, hopen, hclose]

private theorem ofText_render {text : String} {e : Event} (h : Event.read? text = some e)
    (hexact : e.IsExact) : Line.ofText e.toJson.render = .event e := by
  have htrim : Text.trim e.toJson.render = e.toJson.render := by
    rw [Text.trim, Json.render, String.toList_ofList]
    exact congrArg String.ofList (trimChars_record _)
  have hne : e.toJson.render ≠ "" := by
    intro hempty
    have hchars := congrArg String.toList hempty
    rw [Json.render, String.toList_ofList] at hchars
    exact List.cons_ne_nil _ _ hchars
  rw [Line.ofText, htrim]
  simp only [if_neg hne, Event.read?_render_toJson h hexact]

/-- The bytes of a printed event. -/
def eventBytes (e : Event) : List UInt8 := e.toJson.renderChars.flatMap String.utf8EncodeChar

private theorem lineEnd_notMem_eventBytes {e : Event} (h : e.toJson.Plain) :
    lineEnd ∉ eventBytes e := by
  intro hmem
  obtain ⟨c, hc, hend⟩ := List.mem_flatMap.mp hmem
  have hplain : 0x20 ≤ c.toNat := Json.oneLine_renderChars h c hc
  exact lineEnd_notMem_utf8EncodeChar (by omega) hend

private theorem toList_toUTF8_write (events : List Event) :
    (write events).toUTF8.toList = events.flatMap fun e ↦ eventBytes e ++ [lineEnd] := by
  have hline (e : Event) : (e.toJson.render ++ "\n").toList.flatMap String.utf8EncodeChar
      = eventBytes e ++ [lineEnd] := by
    rw [String.toList_append, List.flatMap_append, Json.render, String.toList_ofList]
    rfl
  rw [toList_toUTF8, write, String.toList_join, List.flatMap_map, List.flatMap_assoc]
  exact List.flatMap_congr fun e _ ↦ hline e

/-- Every printed event is a line of its own. -/
theorem lines_write {events : List Event} (h : ∀ e ∈ events, e.toJson.Plain) :
    lines (write events).toUTF8.toList = events.map eventBytes := by
  rw [toList_toUTF8_write]
  induction events with
  | nil => rfl
  | cons e events ih =>
    obtain ⟨he, hevents⟩ := List.forall_mem_cons.mp h
    rw [List.flatMap_cons, List.append_assoc, List.singleton_append, lines,
      linesAfter_lineEnd (lineEnd_notMem_eventBytes he), ih hevents]
    rfl

/-! ## The round trip -/

private theorem exists_ofBytes_of_mem {bs : List (List UInt8)} {ls : List Line}
    (h : bs.mapM Line.ofBytes = .ok ls) {l : Line} (hl : l ∈ ls) :
    ∃ b, Line.ofBytes b = .ok l := by
  induction bs generalizing ls with
  | nil =>
    cases h
    cases hl
  | cons b bs ih =>
    rw [List.mapM_cons] at h
    cases hb : Line.ofBytes b with
    | error fault => rw [hb] at h; cases h
    | ok first =>
      cases hbs : bs.mapM Line.ofBytes with
      | error fault => rw [hb, hbs] at h; cases h
      | ok rest =>
        rw [hb, hbs] at h
        cases h
        rcases List.mem_cons.mp hl with rfl | hl
        · exact ⟨b, hb⟩
        · exact ih hbs hl

private theorem exists_read?_of_ofBytes {bytes : List UInt8} {e : Event}
    (h : Line.ofBytes bytes = .ok (.event e)) : ∃ text, Event.read? text = some e := by
  unfold Line.ofBytes at h
  split at h
  · next text _ =>
    simp only [Except.ok.injEq, Line.ofText] at h
    split at h
    · cases h
    · split at h
      · next hread =>
        cases h
        exact ⟨_, hread⟩
      · cases h
  · cases h

/-- An event of a log was read from some text. -/
theorem exists_read?_of_mem {bytes : List UInt8} {c : Contents} (h : read bytes = .ok c)
    {e : Event} (he : e ∈ c.events) : ∃ text, Event.read? text = some e := by
  unfold read at h
  cases hlines : (lines bytes).mapM Line.ofBytes with
  | error fault => rw [hlines] at h; cases h
  | ok ls =>
    rw [hlines] at h
    cases h
    obtain ⟨l, hl, hevent⟩ := List.mem_filterMap.mp he
    obtain ⟨b, hb⟩ := exists_ofBytes_of_mem hlines hl
    cases l with
    | event e' =>
      cases hevent
      exact exists_read?_of_ofBytes hb
    | blank => cases hevent
    | malformed => cases hevent

private theorem mapM_ofBytes_eventBytes {events : List Event}
    (h : ∀ e ∈ events, Line.ofText e.toJson.render = .event e) :
    (events.map eventBytes).mapM Line.ofBytes = .ok (events.map .event) := by
  induction events with
  | nil => rfl
  | cons e events ih =>
    obtain ⟨he, hevents⟩ := List.forall_mem_cons.mp h
    have hbytes : Line.ofBytes (eventBytes e) = .ok (.event e) := by
      have hrender := ofBytes_utf8 e.toJson.render
      rwa [he, Json.render, String.toList_ofList] at hrender
    rw [List.map_cons, List.mapM_cons, hbytes, ih hevents]
    rfl

private theorem ofLines_map_event (events : List Event) :
    Contents.ofLines (events.map .event) = ⟨events, 0⟩ := by
  have hevents : (events.map Line.event).filterMap Line.event? = events := by
    rw [List.filterMap_map]
    exact List.filterMap_some
  have hskipped : (events.map Line.event).countP Line.isMalformed = 0 := by
    rw [List.countP_map]
    exact List.countP_eq_zero.mpr fun _ _ ↦ Bool.false_ne_true
  rw [Contents.ofLines, hevents, hskipped]

/-- **The round trip.** A log that was read, written again and read again has the same events, with
nothing skipped, and the text has one line for each event. -/
theorem readText_write_of_read {bytes : List UInt8} {c : Contents} (hread : read bytes = .ok c)
    (hexact : ∀ e ∈ c.events, e.IsExact) :
    readText (write c.events) = .ok ⟨c.events, 0⟩ ∧
      (lines (write c.events).toUTF8.toList).length = c.events.length := by
  have hplain : ∀ e ∈ c.events, e.toJson.Plain := by
    intro e he
    obtain ⟨text, htext⟩ := exists_read?_of_mem hread he
    exact Event.plain_toJson_of_read? htext (hexact e he)
  have htexts : ∀ e ∈ c.events, Line.ofText e.toJson.render = .event e := by
    intro e he
    obtain ⟨text, htext⟩ := exists_read?_of_mem hread he
    exact ofText_render htext (hexact e he)
  have hlines := lines_write hplain
  refine ⟨?_, by rw [hlines, List.length_map]⟩
  rw [readText, read, hlines, mapM_ofBytes_eventBytes htexts]
  exact congrArg Except.ok (ofLines_map_event c.events)

/-- A line with an event as a list, with its time in text, a name given twice in the result of a
tool call, and blanks around it. -/
def motleyLine : String :=
  "  [7,\"root\",null,\" 40 \",[\"tool_call_end\",\x7b\"result\":\x7b\"b\":[\"\\u0007\"]," ++
    "\"a\":1,\"a\":-3\x7d,\"tool_call_id\":\"call\"\x7d]]\t"

/-- The event of the line. -/
def motleyEvent : Event :=
  ⟨7, "root", none, some 40, .toolEnd "call" none
    (.object [("a", .int (-3)), ("b", .array [.string "\x07"])]) false⟩

private theorem ofText_motleyLine : Line.ofText motleyLine = .event motleyEvent := by
  have hchars : motleyLine.toList = _ := (String.toList_append ..).trans
    (congrArg₂ _ String.toList_ofList String.toList_ofList)
  have htrim : (Text.trim motleyLine).toList = Text.trimChars motleyLine.toList :=
    String.toList_ofList
  have hwords : Json.tokens? (Text.trim motleyLine).toList = some
      [.openBracket, .number (some (.whole 7)), .comma, .string (some "root"), .comma, .null,
        .comma, .string (some " 40 "), .comma, .openBracket, .string (some "tool_call_end"), .comma,
        .openBrace, .string (some "result"), .colon, .openBrace, .string (some "b"), .colon,
        .openBracket, .string (some "\x07"), .closeBracket, .comma, .string (some "a"), .colon,
        .number (some (.whole 1)), .comma, .string (some "a"), .colon, .number (some (.whole (-3))),
        .closeBrace, .comma, .string (some "tool_call_id"), .colon, .string (some "call"),
        .closeBrace, .closeBracket, .closeBracket] := by
    rw [htrim, hchars]
    decide +kernel
  have hne : Text.trim motleyLine ≠ "" := by
    intro hempty
    rw [hempty] at hwords
    exact absurd hwords (by decide +kernel)
  have hread : Event.read? (Text.trim motleyLine) = some motleyEvent := by
    rw [Event.read?, Json.Tree.read?, hwords]
    rfl
  rw [Line.ofText]
  simp only [if_neg hne, hread]

private theorem ofText_noEvent : Line.ofText "no event" = .malformed := by
  have hchars : "no event".toList = _ := String.toList_ofList
  have htrim : Text.trim "no event" = "no event" := by
    rw [Text.trim, hchars]
    rfl
  have hwords : Json.tokens? "no event".toList = none := by
    rw [hchars]
    decide +kernel
  have hread : Event.read? "no event" = none := by
    rw [Event.read?, Json.Tree.read?, hwords]
    rfl
  rw [Line.ofText, htrim]
  simp [hread]

theorem readText_write_motley :
    read (motleyLine ++ "\n\nno event").toUTF8.toList = .ok ⟨[motleyEvent], 1⟩ ∧
    (∀ e ∈ [motleyEvent], e.IsExact) ∧
    readText (write [motleyEvent]) = .ok ⟨[motleyEvent], 0⟩ ∧
      (lines (write [motleyEvent]).toUTF8.toList).length = [motleyEvent].length := by
  have hlines : lines (motleyLine ++ "\n\nno event").toUTF8.toList
      = [motleyLine, "", "no event"].map fun s ↦ s.toList.flatMap String.utf8EncodeChar := by
    have hchars : motleyLine.toList = _ := (String.toList_append ..).trans
      (congrArg₂ _ String.toList_ofList String.toList_ofList)
    have hrest : "\n\nno event".toList = _ := String.toList_ofList
    have hlast : "no event".toList = _ := String.toList_ofList
    rw [toList_toUTF8, String.toList_append, hrest]
    simp only [List.map_cons, List.map_nil, hlast, hchars]
    decide +kernel
  have hread : read (motleyLine ++ "\n\nno event").toUTF8.toList = .ok ⟨[motleyEvent], 1⟩ := by
    rw [read, hlines]
    simp only [List.map_cons, List.map_nil, List.mapM_cons, List.mapM_nil, ofBytes_utf8,
      ofText_motleyLine, ofText_noEvent]
    rfl
  have hexact : ∀ e ∈ [motleyEvent], e.IsExact := by
    refine List.forall_mem_singleton.mpr fun v hv ↦ ?_
    cases hv
    rfl
  have hround := readText_write_of_read hread hexact
  exact ⟨hread, hexact, hround⟩

end Log

end SessionReplay
