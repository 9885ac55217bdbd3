import SessionReplay.Proofs.Log

/-!
# Logs are read line by line

A log that stops where a line stops can be followed by any other log: together they hold what each
of them holds, and together they are readable exactly when both are (`localToLines_read`). So one
damaged line costs itself and no other, and a blank line costs nothing.

## Why the lines decide whether a log is text

Bytes are text or not as a whole, but they are decoded line by line. Both come to the same, because
the byte that ends a line is a character of its own wherever it stands, never a part of a longer one
(`lineEnd_notMem_utf8EncodeChar`). Bytes around it are therefore text exactly when the bytes before
it and the bytes after it are (`isText_parts`), and a log is text exactly when its lines are
(`forall_isText_lines_iff`).
-/

namespace SessionReplay

namespace Log

/-! ## Bytes that are text -/

/-- Whether bytes are text. -/
def IsText (bytes : List UInt8) : Prop := bytes.toByteArray.IsValidUTF8

theorem isText_iff {bytes : List UInt8} :
    IsText bytes ↔ ∃ cs : List Char, bytes = cs.flatMap String.utf8EncodeChar := by
  constructor
  · rintro ⟨cs, hcs⟩
    exact ⟨cs, List.toByteArray_inj.mp hcs⟩
  · rintro ⟨cs, rfl⟩
    exact ⟨cs, rfl⟩

theorem isText_nil : IsText [] := isText_iff.mpr ⟨[], rfl⟩

private theorem isText_lineEnd : IsText [lineEnd] := isText_iff.mpr ⟨['\n'], rfl⟩

theorem IsText.append {front rest : List UInt8} (hfront : IsText front) (hrest : IsText rest) :
    IsText (front ++ rest) := by
  rw [IsText, List.toByteArray_append]
  exact ByteArray.IsValidUTF8.append hfront hrest

theorem eq_newline_of_lineEnd_mem {c : Char} (h : lineEnd ∈ String.utf8EncodeChar c) :
    c = '\n' := by
  have hval : c.toNat = 10 := Classical.not_not.mp fun hne ↦ lineEnd_notMem_utf8EncodeChar hne h
  exact Char.ext (UInt32.toNat_inj.mp hval)

/-- Where a line ends, a character starts and a character ends. -/
theorem isText_parts {front rest : List UInt8} (h : IsText (front ++ lineEnd :: rest)) :
    IsText front ∧ IsText rest := by
  obtain ⟨cs, hcs⟩ := isText_iff.mp h
  clear h
  induction cs generalizing front with
  | nil => exact absurd hcs (List.append_ne_nil_of_right_ne_nil _ (List.cons_ne_nil _ _))
  | cons c cs ih =>
    have hchar : IsText (String.utf8EncodeChar c) :=
      isText_iff.mpr ⟨[c], (List.flatMap_singleton _ c).symm⟩
    rw [List.flatMap_cons, List.append_eq_append_iff] at hcs
    rcases hcs with ⟨more, henc, htail⟩ | ⟨more, rfl, htail⟩
    · -- The line ends right after the first character, or it is the first character.
      rcases List.append_eq_cons_iff.mp htail.symm with ⟨rfl, hnext⟩ | ⟨inside, rfl, hrest⟩
      · rw [List.append_nil] at henc
        obtain ⟨-, hrest⟩ := @ih [] hnext.symm
        exact ⟨henc ▸ hchar, hrest⟩
      · have hc : c = '\n' := by
          refine eq_newline_of_lineEnd_mem ?_
          rw [henc]
          exact List.mem_append_right _ List.mem_cons_self
        have hone : front ++ lineEnd :: inside = [lineEnd] := by rw [← henc, hc]; rfl
        rcases List.append_eq_singleton_iff.mp hone with ⟨rfl, hinside⟩ | ⟨-, hinside⟩
        · obtain rfl : inside = [] := (List.cons.inj hinside).2
          exact ⟨isText_nil, isText_iff.mpr ⟨cs, hrest⟩⟩
        · exact absurd hinside (List.cons_ne_nil _ _)
    · obtain ⟨hmore, hrest⟩ := ih htail.symm
      exact ⟨hchar.append hmore, hrest⟩

private theorem forall_isText_linesAfter_iff {before bytes : List UInt8} :
    (∀ l ∈ linesAfter before bytes, IsText l) ↔ IsText (before.reverse ++ bytes) := by
  induction bytes generalizing before with
  | nil =>
    rw [linesAfter, List.append_nil]
    split
    · next h => simp [h, isText_nil]
    · exact List.forall_mem_singleton
  | cons b rest ih =>
    rw [linesAfter]
    split
    · next h =>
      rw [List.forall_mem_cons, ih, h, List.reverse_nil, List.nil_append]
      constructor
      · rintro ⟨hbefore, hrest⟩
        exact hbefore.append (isText_lineEnd.append hrest)
      · exact isText_parts
    · rw [ih, List.reverse_cons, List.append_assoc, List.singleton_append]

/-- A log is text when its lines are. -/
theorem forall_isText_lines_iff {bytes : List UInt8} :
    (∀ l ∈ lines bytes, IsText l) ↔ IsText bytes :=
  forall_isText_linesAfter_iff

/-! ## Reading fails on bytes that are no text -/

theorem exists_ofBytes_of_isText {bytes : List UInt8} (h : IsText bytes) :
    ∃ l, Line.ofBytes bytes = .ok l := by
  have hvalid : bytes.toByteArray.IsValidUTF8 := h
  refine ⟨.ofText (String.fromUTF8 bytes.toByteArray hvalid), ?_⟩
  rw [Line.ofBytes, String.fromUTF8?, dif_pos hvalid]

private theorem ofBytes_of_not_isText {bytes : List UInt8} (h : ¬ IsText bytes) :
    Line.ofBytes bytes = .error .notText := by
  have hvalid : ¬ bytes.toByteArray.IsValidUTF8 := h
  rw [Line.ofBytes, String.fromUTF8?, dif_neg hvalid]

private theorem mapM_ofBytes_of_forall_isText {bs : List (List UInt8)} (h : ∀ b ∈ bs, IsText b) :
    ∃ ls, bs.mapM Line.ofBytes = .ok ls := by
  induction bs with
  | nil => exact ⟨[], rfl⟩
  | cons b bs ih =>
    obtain ⟨hb, hbs⟩ := List.forall_mem_cons.mp h
    obtain ⟨l, hl⟩ := exists_ofBytes_of_isText hb
    obtain ⟨ls, hls⟩ := ih hbs
    refine ⟨l :: ls, ?_⟩
    rw [List.mapM_cons, hl, hls]
    rfl

private theorem mapM_ofBytes_of_not_forall_isText {bs : List (List UInt8)}
    (h : ¬ ∀ b ∈ bs, IsText b) :
    bs.mapM Line.ofBytes = .error .notText := by
  induction bs with
  | nil => exact absurd (List.forall_mem_nil _) h
  | cons b bs ih =>
    rw [List.mapM_cons]
    by_cases hb : IsText b
    · obtain ⟨l, hl⟩ := exists_ofBytes_of_isText hb
      have hbs : ¬ ∀ b ∈ bs, IsText b := fun hbs ↦ h (List.forall_mem_cons.mpr ⟨hb, hbs⟩)
      rw [hl, ih hbs]
      rfl
    · rw [ofBytes_of_not_isText hb]
      rfl

private theorem exists_read_of_isText {bytes : List UInt8} (h : IsText bytes) :
    ∃ c, read bytes = .ok c := by
  obtain ⟨ls, hls⟩ := mapM_ofBytes_of_forall_isText (forall_isText_lines_iff.mpr h)
  refine ⟨.ofLines ls, ?_⟩
  rw [read, hls]
  rfl

private theorem read_of_not_isText {bytes : List UInt8} (h : ¬ IsText bytes) :
    read bytes = .error .notText := by
  rw [read, mapM_ofBytes_of_not_forall_isText (mt forall_isText_lines_iff.mp h)]
  rfl

private theorem read_eq_error_iff {bytes : List UInt8} {fault : Fault} :
    read bytes = .error fault ↔ fault = .notText ∧ ¬ IsText bytes := by
  constructor
  · intro h
    by_cases htext : IsText bytes
    · obtain ⟨c, hc⟩ := exists_read_of_isText htext
      rw [hc] at h
      cases h
    · rw [read_of_not_isText htext] at h
      cases h
      exact ⟨rfl, htext⟩
  · rintro ⟨rfl, htext⟩
    exact read_of_not_isText htext

/-! ## One log after another -/

/-- Whether bytes stop where a line stops. -/
def EndsLine (bytes : List UInt8) : Prop := bytes = [] ∨ bytes.getLast? = some lineEnd

theorem EndsLine.lines_append {before : List UInt8} (h : EndsLine before) (after : List UInt8) :
    lines (before ++ after) = lines before ++ lines after := by
  rcases h with rfl | h
  · rfl
  · exact Log.lines_append h

private theorem ofLines_append (ls more : List Line) :
    Contents.ofLines (ls ++ more) =
      ⟨(Contents.ofLines ls).events ++ (Contents.ofLines more).events,
        (Contents.ofLines ls).skipped + (Contents.ofLines more).skipped⟩ := by
  rw [Contents.ofLines, List.filterMap_append, List.countP_append]
  rfl

theorem read_append {before after : List UInt8} (h : EndsLine before) :
    read (before ++ after) = (read before).bind fun c ↦ (read after).map fun d ↦
      ⟨c.events ++ d.events, c.skipped + d.skipped⟩ := by
  rw [read, h.lines_append, List.mapM_append, read, read]
  cases (lines before).mapM Line.ofBytes with
  | error fault => rfl
  | ok ls =>
    cases (lines after).mapM Line.ofBytes with
    | error fault => rfl
    | ok more => exact congrArg Except.ok (ofLines_append ls more)

/-! ## One line between the others -/

private theorem lines_of_lineEnd_notMem {bytes : List UInt8} (h : lineEnd ∉ bytes)
    (rest : List UInt8) :
    lines (bytes ++ lineEnd :: rest) = bytes :: lines rest :=
  linesAfter_lineEnd h [] rest

private theorem lineEnd_notMem_toUTF8 {text : String} (h : '\n' ∉ text.toList) :
    lineEnd ∉ text.toUTF8.toList := by
  rw [toList_toUTF8]
  intro hmem
  obtain ⟨c, hc, hend⟩ := List.mem_flatMap.mp hmem
  exact h (eq_newline_of_lineEnd_mem hend ▸ hc)

/-- A line of text holds what its text says. -/
theorem read_line {text : String} (h : '\n' ∉ text.toList) :
    read (text.toUTF8.toList ++ [lineEnd]) = .ok (.ofLines [.ofText text]) := by
  have hbytes : Line.ofBytes text.toUTF8.toList = .ok (.ofText text) := by
    rw [toList_toUTF8]
    exact ofBytes_utf8 text
  rw [read, lines_of_lineEnd_notMem (lineEnd_notMem_toUTF8 h), List.mapM_cons, hbytes]
  rfl

private theorem endsLine_line (bytes : List UInt8) : EndsLine (bytes ++ [lineEnd]) :=
  .inr List.getLast?_concat

private theorem ofLines_blank {text : String} (h : ∀ c ∈ text.toList, Text.isBlank c = true) :
    Contents.ofLines [.ofText text] = ⟨[], 0⟩ := by
  have hblank : Line.ofText text = .blank := by
    rw [Line.ofText]
    exact if_pos (Text.trim_eq_empty_iff.mpr h)
  rw [hblank]
  rfl

private theorem ofLines_malformed {text : String} (h : ¬ ∀ c ∈ text.toList, Text.isBlank c = true)
    (hread : Event.read? (Text.trim text) = none) :
    Contents.ofLines [.ofText text] = ⟨[], 1⟩ := by
  have hmalformed : Line.ofText text = .malformed := by
    rw [Line.ofText]
    simp only [if_neg (mt Text.trim_eq_empty_iff.mp h), hread]
  rw [hmalformed]
  rfl

/-- **A line between others** that is no event is counted as often as it is alone. -/
theorem read_insert {before after : List UInt8} {text : String} {skipped : Nat}
    (hbefore : EndsLine before) (htext : '\n' ∉ text.toList)
    (hline : Contents.ofLines [.ofText text] = ⟨[], skipped⟩) :
    read (before ++ (text.toUTF8.toList ++ lineEnd :: after)) =
      (read (before ++ after)).map fun c ↦ ⟨c.events, c.skipped + skipped⟩ := by
  rw [read_append hbefore, List.append_cons, read_append (endsLine_line _), read_line htext, hline,
    read_append hbefore]
  cases read before with
  | error fault => rfl
  | ok c =>
    cases read after with
    | error fault => rfl
    | ok d =>
      refine congrArg Except.ok (congrArg (Contents.mk _) ?_)
      change c.skipped + (skipped + d.skipped) = c.skipped + d.skipped + skipped
      omega

/-! ## Reading is local -/

/-- **Reading line by line.** What a reader of logs makes of bytes is decided by each line for
itself. -/
structure LocalToLines (read : List UInt8 → Except Fault Contents) : Prop where
  /-- Reading fails on bytes that are no text, and on nothing else. -/
  error_iff : ∀ bytes fault, read bytes = .error fault ↔
    fault = .notText ∧ ¬ bytes.toByteArray.IsValidUTF8
  /-- Two logs are readable together when each of them is. -/
  append_error_iff : ∀ before after, EndsLine before →
    ((∃ fault, read (before ++ after) = .error fault) ↔
      (∃ fault, read before = .error fault) ∨ ∃ fault, read after = .error fault)
  /-- Together they hold what each of them holds. -/
  append : ∀ before after c d, EndsLine before → read before = .ok c → read after = .ok d →
    read (before ++ after) = .ok ⟨c.events ++ d.events, c.skipped + d.skipped⟩
  /-- A line that is neither blank nor an event is counted, and costs no event. -/
  malformed : ∀ before after (text : String) c, EndsLine before → '\n' ∉ text.toList →
    (¬ ∀ ch ∈ text.toList, Text.isBlank ch = true) → Event.read? (Text.trim text) = none →
    read (before ++ after) = .ok c →
    read (before ++ (text.toUTF8.toList ++ lineEnd :: after)) = .ok ⟨c.events, c.skipped + 1⟩
  /-- A blank line changes nothing. -/
  blank : ∀ before after (text : String), EndsLine before → '\n' ∉ text.toList →
    (∀ ch ∈ text.toList, Text.isBlank ch = true) →
    read (before ++ (text.toUTF8.toList ++ lineEnd :: after)) = read (before ++ after)

/-- **Logs are read line by line.** -/
theorem localToLines_read : LocalToLines read where
  error_iff _ _ := read_eq_error_iff
  append_error_iff before after h := by
    rw [read_append h]
    cases read before with
    | error fault => exact ⟨fun _ ↦ .inl ⟨fault, rfl⟩, fun _ ↦ ⟨fault, rfl⟩⟩
    | ok c =>
      cases read after with
      | error fault => exact ⟨fun _ ↦ .inr ⟨fault, rfl⟩, fun _ ↦ ⟨fault, rfl⟩⟩
      | ok d => simp [Except.bind, Except.map]
  append before after c d h hbefore hafter := by
    rw [read_append h, hbefore, hafter]
    rfl
  malformed before after text c h htext hne hread hc := by
    rw [read_insert h htext (ofLines_malformed hne hread), hc]
    rfl
  blank before after text h htext hblank := by
    rw [read_insert h htext (ofLines_blank hblank)]
    cases read (before ++ after) <;> rfl

end Log

end SessionReplay
