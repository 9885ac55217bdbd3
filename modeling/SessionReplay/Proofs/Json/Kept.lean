import SessionReplay.Proofs.Json.Documents
import SessionReplay.Proofs.Table

/-!
# What a reader keeps

The values that come out of reading are not all values: their whole numbers fit a word, the fields
of their objects are in order of names, each name once, and their nesting fits the room there was.
This is `Kept`, and nothing else is lost on a second reading: a value that was kept is kept as it
is, `Tree.keep?_ofJson`.

## Where the three parts come from

The numbers are settled by the words, and every step of the machine passes them on (`Tree.Fits`);
the order of the fields comes from inserting one after the other; the room is spent one array or
object at a time. So the numbers are followed through words, machine and document, and the other two
only on the way from a document to a value.
-/

namespace SessionReplay.Json

/-! ## Numbers from words to documents -/

/-- The number of a word fits. -/
def Token.Fits : Token → Prop
  | .number n => ∀ x ∈ n, x.Fits
  | _ => True

/-- The numbers of a document fit. -/
inductive Tree.Fits : Tree → Prop
  | null : Fits .null
  | bool (b : Bool) : Fits (.bool b)
  | number {n : Option Number} (h : ∀ x ∈ n, x.Fits) : Fits (.number n)
  | string (s : Option String) : Fits (.string s)
  | array {items : List Tree} (h : ∀ item ∈ items, Fits item) : Fits (.array items)
  | object {fields : List (Option String × Tree)} (h : ∀ field ∈ fields, Fits field.2) :
    Fits (.object fields)

theorem Literal.fits_of_number? {l : Literal} {n : Number} (h : l.number? = some n) : n.Fits := by
  have hleast : Int64.minValue.toInt ≤ 0 := by decide
  simp only [number?] at h
  split at h
  · next hsmall =>
    obtain rfl := Option.some.inj h
    exact ⟨by omega, by omega⟩
  · split at h
    · next hsmall =>
      obtain rfl := Option.some.inj h
      exact ⟨hsmall.2.2.2, by omega⟩
    · obtain ⟨x, -, rfl⟩ := Option.map_eq_some_iff.mp h
      trivial

private theorem fits_of_scanUnsigned {negative : Bool} {cs rest : List Char} {n : Option Number}
    (h : scanUnsigned negative cs = some (n, rest)) : (Token.number n).Fits := by
  simp only [scanUnsigned] at h
  split at h
  · cases h
  · simp only [Option.bind_eq_bind, Option.bind_eq_some_iff, Prod.exists] at h
    obtain ⟨fraction, cs', -, exponent, cs'', -, hn⟩ := h
    obtain ⟨rfl, rfl⟩ := Prod.mk.inj (Option.some.inj hn)
    exact fun x hx ↦ Literal.fits_of_number? hx

private theorem fits_of_scanToken {cs rest : List Char} {t : Token}
    (h : scanToken cs = some (t, rest)) :
    t.Fits := by
  unfold scanToken at h
  split at h
  · cases h
  · obtain ⟨rfl, -⟩ := Prod.mk.inj (Option.some.inj h)
    trivial
  · obtain ⟨rfl, -⟩ := Prod.mk.inj (Option.some.inj h)
    trivial
  · obtain ⟨rfl, -⟩ := Prod.mk.inj (Option.some.inj h)
    trivial
  · obtain ⟨_, -, hs⟩ := Option.map_eq_some_iff.mp h
    obtain ⟨rfl, -⟩ := Prod.mk.inj hs
    trivial
  · split at h
    · next hpunctuation =>
      obtain ⟨rfl, -⟩ := Prod.mk.inj (Option.some.inj h)
      unfold punctuation? at hpunctuation
      repeat' split at hpunctuation
      all_goals simp_all [Token.Fits]
      all_goals (subst hpunctuation; trivial)
    · obtain ⟨⟨n, rest'⟩, hnumber, hn⟩ := Option.map_eq_some_iff.mp h
      obtain ⟨rfl, -⟩ := Prod.mk.inj hn
      unfold scanNumber at hnumber
      split at hnumber <;> exact fits_of_scanUnsigned hnumber

private theorem fits_of_tokensAfter? {before ts : List Token} {cs : List Char}
    (h : tokensAfter? before cs = some ts) (hbefore : ∀ t ∈ before, t.Fits) :
    ∀ t ∈ ts, t.Fits := by
  induction before, cs using tokensAfter?.induct with
  | case1 before =>
    rw [tokensAfter?] at h
    obtain rfl := Option.some.inj h
    exact fun t ht ↦ hbefore t (List.mem_reverse.mp ht)
  | case2 before c rest hspace ih =>
    rw [tokensAfter?, if_pos hspace] at h
    exact ih h hbefore
  | case3 before c rest hspace t rest' hscan ih =>
    rw [tokensAfter?_cons (Bool.eq_false_iff.mpr hspace), hscan] at h
    exact ih h (List.forall_mem_cons.mpr ⟨fits_of_scanToken hscan, hbefore⟩)
  | case4 before c rest hspace hscan =>
    rw [tokensAfter?_cons (Bool.eq_false_iff.mpr hspace), hscan] at h
    cases h

namespace Tree

/-- The numbers in an open array or object fit. -/
def Frame.Fits : Frame → Prop
  | .array items => ∀ item ∈ items, item.Fits
  | .object fields _ => ∀ field ∈ fields, field.2.Fits

/-- The numbers that the machine has read fit. -/
def Machine.Fits : Machine → Prop
  | .value frames | .firstItem frames | .firstName frames => ∀ f ∈ frames, f.Fits
  | .nextName fields frames | .colon fields _ frames =>
    (∀ field ∈ fields, field.2.Fits) ∧ ∀ f ∈ frames, f.Fits
  | .ended t frames => t.Fits ∧ ∀ f ∈ frames, f.Fits

theorem Machine.fits_begin? {frames : List Frame} {t : Token} {m : Machine}
    (hframes : ∀ f ∈ frames, f.Fits) (ht : t.Fits) (h : begin? frames t = some m) : m.Fits := by
  cases t <;> simp only [begin?, Option.some.injEq, reduceCtorEq] at h <;> subst h
  case null => exact ⟨.null, hframes⟩
  case bool b => exact ⟨.bool b, hframes⟩
  case number n => exact ⟨.number ht, hframes⟩
  case string s => exact ⟨.string s, hframes⟩
  case openBracket => exact hframes
  case openBrace => exact hframes

theorem Machine.Fits.step {m m' : Machine} {t : Token} (hm : m.Fits) (ht : t.Fits)
    (h : m.step t = some m') : m'.Fits := by
  unfold Machine.step at h
  split at h
  case h_1 => exact fits_begin? hm ht h
  case h_2 =>
    cases h
    exact ⟨.array (List.forall_mem_nil _), hm⟩
  case h_3 =>
    have hempty : (Frame.array []).Fits := List.forall_mem_nil _
    exact fits_begin? (List.forall_mem_cons.mpr ⟨hempty, hm⟩) ht h
  case h_4 =>
    cases h
    exact ⟨.object (List.forall_mem_nil _), hm⟩
  case h_5 =>
    cases h
    exact ⟨List.forall_mem_nil _, hm⟩
  case h_6 =>
    cases h
    exact hm
  case h_7 =>
    cases h
    exact List.forall_mem_cons.mpr hm
  case h_8 =>
    cases h
    obtain ⟨hvalue, hframes⟩ := hm
    obtain ⟨hitems, hframes⟩ := List.forall_mem_cons.mp hframes
    exact List.forall_mem_cons.mpr ⟨List.forall_mem_cons.mpr ⟨hvalue, hitems⟩, hframes⟩
  case h_9 =>
    cases h
    obtain ⟨hvalue, hframes⟩ := hm
    obtain ⟨hitems, hframes⟩ := List.forall_mem_cons.mp hframes
    refine ⟨.array fun item hitem ↦ ?_, hframes⟩
    exact List.forall_mem_cons.mpr ⟨hvalue, hitems⟩ item (List.mem_reverse.mp hitem)
  case h_10 =>
    cases h
    obtain ⟨hvalue, hframes⟩ := hm
    obtain ⟨hfields, hframes⟩ := List.forall_mem_cons.mp hframes
    exact ⟨List.forall_mem_cons.mpr ⟨hvalue, hfields⟩, hframes⟩
  case h_11 =>
    cases h
    obtain ⟨hvalue, hframes⟩ := hm
    obtain ⟨hfields, hframes⟩ := List.forall_mem_cons.mp hframes
    refine ⟨.object fun field hfield ↦ ?_, hframes⟩
    rcases List.mem_cons.mp (List.mem_reverse.mp hfield) with rfl | hfield
    · exact hvalue
    · exact hfields field hfield
  case h_12 => cases h

theorem Machine.Fits.foldlM_step {m m' : Machine} {ts : List Token} (hm : m.Fits)
    (hts : ∀ t ∈ ts, t.Fits) (h : ts.foldlM Machine.step m = some m') : m'.Fits := by
  induction ts generalizing m with
  | nil =>
    obtain rfl := Option.some.inj h
    exact hm
  | cons t ts ih =>
    obtain ⟨ht, hts⟩ := List.forall_mem_cons.mp hts
    rw [List.foldlM_cons] at h
    obtain ⟨next, hnext, h⟩ := Option.bind_eq_some_iff.mp h
    exact ih (hm.step ht hnext) hts h

/-- The numbers of a document that was read fit. -/
theorem fits_of_read? {text : String} {t : Tree} (h : read? text = some t) : t.Fits := by
  obtain ⟨ts, hts, h⟩ := Option.bind_eq_some_iff.mp h
  have htokens := fits_of_tokensAfter? hts (List.forall_mem_nil _)
  have hstart : Machine.Fits (.value []) := List.forall_mem_nil _
  unfold ofTokens? at h
  split at h
  · next hrun =>
    obtain rfl := Option.some.inj h
    exact (hstart.foldlM_step htokens hrun).1
  · cases h

end Tree

/-! ## From documents to values -/

/-- A value that a reader keeps, with room for so many nested arrays and objects. -/
inductive Kept : Nat → Json → Prop
  | null (room : Nat) : Kept room .null
  | bool (room : Nat) (b : Bool) : Kept room (.bool b)
  | number (room : Nat) {n : Number} (h : n.Fits) : Kept room (.number n)
  | string (room : Nat) (s : String) : Kept room (.string s)
  | array {room : Nat} {items : List Json} (h : ∀ item ∈ items, Kept room item) :
    Kept (room + 1) (.array items)
  | object {room : Nat} {fields : List (String × Json)} (hsorted : Entries.Sorted fields)
    (h : ∀ field ∈ fields, Kept room field.2) : Kept (room + 1) (.object fields)

namespace Tree

private theorem kept_of_keepItems? {room : Nat} {items : List Tree} {vs : List Json}
    (h : keepItems? room items = some vs)
    (hitems : ∀ item ∈ items, ∀ v, keep? room item = some v → v.Kept room) :
    ∀ v ∈ vs, v.Kept room := by
  induction items generalizing vs with
  | nil =>
    obtain rfl := Option.some.inj h
    exact List.forall_mem_nil _
  | cons item items ih =>
    obtain ⟨hitem, hitems⟩ := List.forall_mem_cons.mp hitems
    simp only [keepItems?, Option.bind_eq_bind, Option.bind_eq_some_iff] at h
    obtain ⟨v, hv, vs', hvs', h⟩ := h
    obtain rfl := Option.some.inj h
    exact List.forall_mem_cons.mpr ⟨hitem v hv, ih hvs' hitems⟩

/-- The fields that are kept are in order, whatever order they were read in. -/
theorem kept_of_keepFields? {room : Nat} {before fs : List (String × Json)}
    {fields : List (Option String × Tree)} (h : keepFields? room before fields = some fs)
    (hfields : ∀ field ∈ fields, ∀ v, keep? room field.2 = some v → v.Kept room)
    (hsorted : Entries.Sorted before) (hbefore : ∀ field ∈ before, field.2.Kept room) :
    Entries.Sorted fs ∧ ∀ field ∈ fs, field.2.Kept room := by
  induction fields generalizing before with
  | nil =>
    obtain rfl := Option.some.inj h
    exact ⟨hsorted, hbefore⟩
  | cons field fields ih =>
    obtain ⟨hfield, hfields⟩ := List.forall_mem_cons.mp hfields
    simp only [keepFields?, Option.bind_eq_bind, Option.bind_eq_some_iff] at h
    obtain ⟨name, -, v, hv, h⟩ := h
    refine ih h hfields (Entries.sorted_insert name v hsorted) fun f hf ↦ ?_
    rcases Entries.mem_insert hf with rfl | hf
    · exact hfield v hv
    · exact hbefore f hf

theorem Fits.kept {t : Tree} (ht : t.Fits) {room : Nat} {j : Json} (h : keep? room t = some j) :
    j.Kept room := by
  induction ht generalizing room j with
  | null =>
    obtain rfl := Option.some.inj h
    exact .null room
  | bool b =>
    obtain rfl := Option.some.inj h
    exact .bool room b
  | number hn =>
    obtain ⟨n, hn', rfl⟩ := Option.map_eq_some_iff.mp h
    exact .number room (hn n hn')
  | string s =>
    obtain ⟨s, -, rfl⟩ := Option.map_eq_some_iff.mp h
    exact .string room s
  | array _ ih =>
    cases room with
    | zero => simp [keep?] at h
    | succ room =>
      obtain ⟨vs, hvs, rfl⟩ := Option.map_eq_some_iff.mp h
      exact .array (kept_of_keepItems? hvs fun item hitem v hv ↦ ih item hitem hv)
  | object _ ih =>
    cases room with
    | zero => simp [keep?] at h
    | succ room =>
      obtain ⟨fs, hfs, rfl⟩ := Option.map_eq_some_iff.mp h
      obtain ⟨hsorted, hfields⟩ := kept_of_keepFields? hfs
        (fun field hfield v hv ↦ ih field hfield hv) List.Pairwise.nil (List.forall_mem_nil _)
      exact .object hsorted hfields

/-! ## A second reading -/

private theorem keepItems?_ofItems {room : Nat} {items : List Json}
    (h : ∀ item ∈ items, keep? room (ofJson item) = some item) :
    keepItems? room (ofItems items) = some items := by
  induction items with
  | nil => rfl
  | cons item items ih =>
    obtain ⟨hitem, hitems⟩ := List.forall_mem_cons.mp h
    rw [ofItems, keepItems?, hitem, ih hitems]
    rfl

private theorem keepFields?_ofFields {room : Nat} {fields : List (String × Json)}
    (h : ∀ field ∈ fields, keep? room (ofJson field.2) = some field.2)
    (before : List (String × Json)) (hsorted : Entries.Sorted (before ++ fields)) :
    keepFields? room before (ofFields fields) = some (before ++ fields) := by
  induction fields generalizing before with
  | nil => rw [List.append_nil, ofFields, keepFields?]
  | cons field fields ih =>
    obtain ⟨hfield, hfields⟩ := List.forall_mem_cons.mp h
    have hlast : Entries.insert field.1 field.2 before = before ++ [field] :=
      Entries.insert_eq_concat fun e he ↦
        (List.pairwise_append.mp hsorted).2.2 e he field List.mem_cons_self
    rw [List.append_cons] at hsorted ⊢
    rw [← ih hfields (before ++ [field]) hsorted, ← hlast, ofFields, keepFields?, hfield]
    rfl

/-- **A second reading.** What a reader kept, it keeps again as it is. -/
theorem keep?_ofJson {room : Nat} {j : Json} (h : j.Kept room) :
    keep? room (ofJson j) = some j := by
  induction h with
  | null room => rfl
  | bool room b => rfl
  | number room h => rfl
  | string room s => rfl
  | array _ ih =>
    rw [ofJson, keep?, if_neg (Nat.succ_ne_zero _), Nat.add_sub_cancel, keepItems?_ofItems ih]
    rfl
  | object hsorted _ ih =>
    rw [ofJson, keep?, if_neg (Nat.succ_ne_zero _), Nat.add_sub_cancel,
      keepFields?_ofFields ih [] hsorted]
    rfl

end Tree

/-! ## Values without doubles -/

private theorem itemsAreExact_iff {items : List Json} :
    itemsAreExact items = true ↔ ∀ item ∈ items, item.isExact = true := by
  induction items with
  | nil => exact iff_of_true rfl (List.forall_mem_nil _)
  | cons item items ih => rw [itemsAreExact, Bool.and_eq_true, ih, List.forall_mem_cons]

private theorem fieldsAreExact_iff {fields : List (String × Json)} :
    fieldsAreExact fields = true ↔ ∀ field ∈ fields, field.2.isExact = true := by
  induction fields with
  | nil => exact iff_of_true rfl (List.forall_mem_nil _)
  | cons field fields ih => rw [fieldsAreExact, Bool.and_eq_true, ih, List.forall_mem_cons]

theorem Kept.plain {room : Nat} {j : Json} (h : j.Kept room) (hexact : j.isExact = true) :
    j.Plain := by
  induction h with
  | null room => exact .null
  | bool room b => exact .bool b
  | @number room n h =>
    cases n with
    | whole n => exact .int h
    | double x => cases hexact
  | string room s => exact .string s
  | array _ ih =>
    exact .array fun item hitem ↦ ih item hitem (itemsAreExact_iff.mp hexact item hitem)
  | object _ _ ih =>
    exact .object fun field hfield ↦ ih field hfield (fieldsAreExact_iff.mp hexact field hfield)

end SessionReplay.Json
