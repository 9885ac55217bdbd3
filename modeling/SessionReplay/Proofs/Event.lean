import SessionReplay.Event.Wire
import SessionReplay.Proofs.Json.Kept

/-!
# Events on the wire and back

An event that was read from the wire and is written to it again reads back as the same event, unless
a double stands in its arguments or its result: `Event.read?_render_toJson`.

Reading is more liberal than writing. It takes lists for objects, fields in any order, `data` before
`type` and timestamps in text, and none of that is left in the event. What is left of the page are
the free values, and these are as a reader keeps them (`Event.kept_of_read?`), which is what writing
needs.
-/

namespace SessionReplay

open Json Json.Tree

/-- The free value in a payload: the arguments of a tool call, or its result. -/
def Payload.value? : Payload → Option Json
  | .toolStart _ _ arguments => some arguments
  | .toolEnd _ _ result _ => some result
  | _ => none

/-- No number in the arguments or the result of a tool call is a double. -/
def Event.IsExact (e : Event) : Prop := ∀ v ∈ e.payload.value?, v.isExact = true

/-! ## Free values of events that were read -/

namespace Json.Tree

variable {fields : List (Option String × Tree)} {t : Tree}

private theorem exists_mem_of_single? {name : String} (h : single? fields name = some (some t)) :
    ∃ field ∈ fields, field.2 = t := by
  unfold single? at h
  split at h
  · cases h
  · next field hfilter =>
    obtain rfl := Option.some.inj (Option.some.inj h)
    have hmem : field ∈ fields.filter (·.1 == some name) := hfilter ▸ List.mem_singleton_self field
    exact ⟨field, (List.mem_filter.mp hmem).1, rfl⟩
  · cases h

theorem fits_of_single? {name : String} (h : single? fields name = some (some t))
    (hfields : ∀ field ∈ fields, field.2.Fits) : t.Fits := by
  obtain ⟨field, hfield, rfl⟩ := exists_mem_of_single? h
  exact hfields field hfield

theorem fits_of_fields? (h : fields? t = some fields) (ht : t.Fits) :
    ∀ field ∈ fields, field.2.Fits := by
  unfold fields? at h
  split at h
  · split at h
    · obtain rfl := Option.some.inj h
      cases ht with
      | object hfields => exact hfields
    · cases h
  · cases h

end Json.Tree

namespace Payload

variable {fields : List (Option String × Tree)} {t : Tree} {p : Payload}

private theorem kept_of_withDefault? {name : String} {v : Json}
    (h : withDefault? fields name free? .null = some v) (hfields : ∀ field ∈ fields, field.2.Fits) :
    v.Kept dataRoom := by
  obtain ⟨t, ht, h⟩ := Option.bind_eq_some_iff.mp h
  cases t with
  | none =>
    obtain rfl := Option.some.inj h
    exact .null dataRoom
  | some t => exact (fits_of_single? ht hfields).kept h

private theorem kept_of_ofFields? {tag : String} (h : ofFields? tag fields = some p)
    (hfields : ∀ field ∈ fields, field.2.Fits) : ∀ v ∈ p.value?, v.Kept dataRoom := by
  unfold ofFields? at h
  split at h
  all_goals
    simp only [Option.bind_eq_bind, Option.bind_eq_some_iff, Option.some.injEq, reduceCtorEq] at h
  -- only the start and the end of a tool call have a free value
  case h_6 =>
    obtain ⟨call, -, name, -, v, hv, rfl⟩ := h
    exact fun _ hmem ↦ Option.some.inj hmem ▸ kept_of_withDefault? hv hfields
  case h_7 =>
    obtain ⟨call, -, name, -, v, hv, isError, -, rfl⟩ := h
    exact fun _ hmem ↦ Option.some.inj hmem ▸ kept_of_withDefault? hv hfields
  all_goals
    repeat obtain ⟨_, -, h⟩ := h
    exact fun _ hmem ↦ nomatch hmem

private theorem kept_of_ofParts? {tag : String} (h : ofParts? tag t = some p) (ht : t.Fits) :
    ∀ v ∈ p.value?, v.Kept dataRoom := by
  unfold ofParts? at h
  split at h
  · split at h
    · obtain rfl := Option.some.inj h
      exact fun _ hmem ↦ nomatch hmem
    · cases h
  · obtain ⟨fields, hfields, h⟩ := Option.bind_eq_some_iff.mp h
    exact kept_of_ofFields? h (fits_of_fields? hfields ht)

private theorem kept_of_ofTree? (h : ofTree? t = some p) (ht : t.Fits) :
    ∀ v ∈ p.value?, v.Kept dataRoom := by
  unfold ofTree? at h
  split at h
  · next tag data =>
    obtain ⟨word, -, h⟩ := Option.bind_eq_some_iff.mp h
    cases ht with
    | array hitems => exact kept_of_ofParts? h (hitems data (by simp))
  · simp only [Option.bind_eq_bind, Option.bind_eq_some_iff] at h
    obtain ⟨fields, hfields, tag, -, data, hdata, h⟩ := h
    cases data with
    | none => exact kept_of_ofParts? h .null
    | some data =>
      simp only at h
      split at h
      · cases h
      · exact kept_of_ofParts? h (fits_of_single? hdata (fits_of_fields? hfields ht))

end Payload

namespace Event

variable {t : Tree} {e : Event}

private theorem kept_of_ofTree? (h : ofTree? t = some e) (ht : t.Fits) :
    ∀ v ∈ e.payload.value?, v.Kept Payload.dataRoom := by
  unfold ofTree? at h
  split at h
  · next sequence session agent timestamp kind =>
    simp only [Option.bind_eq_bind, Option.bind_eq_some_iff, Option.some.injEq] at h
    obtain ⟨_, -, _, -, _, -, _, -, p, hp, rfl⟩ := h
    cases ht with
    | array hitems => exact Payload.kept_of_ofTree? hp (hitems kind (by simp))
  · simp only [Option.bind_eq_bind, Option.bind_eq_some_iff, Option.some.injEq] at h
    obtain ⟨fields, hfields, _, -, _, -, _, -, _, -, p, hp, rfl⟩ := h
    obtain ⟨kind, hkind, hp⟩ := Option.bind_eq_some_iff.mp hp
    obtain ⟨kind, rfl, hp⟩ := Option.bind_eq_some_iff.mp hp
    exact Payload.kept_of_ofTree? hp (fits_of_single? hkind (fits_of_fields? hfields ht))

/-- The free value of an event that was read is as a reader keeps it. -/
theorem kept_of_read? {text : String} (h : read? text = some e) :
    ∀ v ∈ e.payload.value?, v.Kept Payload.dataRoom := by
  obtain ⟨t, ht, h⟩ := Option.bind_eq_some_iff.mp h
  exact kept_of_ofTree? h (fits_of_read? ht)

end Event

/-! ## Reading fields that were written -/

namespace Json.Tree

theorem fields?_ofFields (fields : List (String × Json)) :
    fields? (.object (ofFields fields)) = some (ofFields fields) := by
  have hnamed : (ofFields fields).all (·.1.isSome) = true := by
    rw [ofFields_eq_map, List.all_map]
    exact List.all_eq_true.mpr fun _ _ ↦ rfl
  rw [fields?, if_pos hnamed]

theorem filter_ofFields_eq_nil {fields : List (String × Json)} {name : String}
    (h : name ∉ fields.map Prod.fst) : (ofFields fields).filter (·.1 == some name) = [] := by
  rw [ofFields_eq_map, List.filter_eq_nil_iff]
  intro field hfield hname
  obtain ⟨f, hf, rfl⟩ := List.mem_map.mp hfield
  exact h (List.mem_map.mpr ⟨f, hf, Option.some.inj (eq_of_beq hname)⟩)

/-- In a record whose names are all different, every field is found under its name. -/
theorem single?_ofFields {fields : List (String × Json)} (h : (fields.map Prod.fst).Nodup)
    (name : String) : single? (ofFields fields) name = some ((fields.lookup name).map ofJson) := by
  induction fields with
  | nil => rfl
  | cons field fields ih =>
    obtain ⟨hnotin, hnodup⟩ := List.nodup_cons.mp h
    by_cases hname : name = field.1
    · subst hname
      have hfilter : (ofFields (field :: fields)).filter (·.1 == some field.1)
          = [(some field.1, ofJson field.2)] := by
        rw [ofFields, List.filter_cons, filter_ofFields_eq_nil hnotin]
        exact if_pos BEq.rfl
      rw [single?, hfilter, List.lookup_cons_self]
      rfl
    · have hfilter : (ofFields (field :: fields)).filter (·.1 == some name)
          = (ofFields fields).filter (·.1 == some name) := by
        rw [ofFields, List.filter_cons, if_neg]
        simpa using fun heq ↦ hname heq.symm
      rw [List.lookup_cons, beq_false_of_ne hname, ← ih hnodup, single?, hfilter]
      rfl

variable {fields : List (String × Json)}

theorem required?_text (h : (fields.map Prod.fst).Nodup) (name s : String)
    (hs : fields.lookup name = some (.string s)) :
    required? (ofFields fields) name text? = some s := by
  rw [required?, single?_ofFields h, hs]
  rfl

private theorem withDefault?_text (h : (fields.map Prod.fst).Nodup) (name s missing : String)
    (hs : fields.lookup name = some (.string s)) :
    withDefault? (ofFields fields) name text? missing = some s := by
  rw [withDefault?, single?_ofFields h, hs]
  rfl

/-- A text that was left out is read as missing. -/
theorem optional?_text (h : (fields.map Prod.fst).Nodup) (name : String) (s : Option String)
    (hs : fields.lookup name = s.map .string) :
    optional? (ofFields fields) name text? = some s := by
  rw [optional?, withDefault?, single?_ofFields h, hs]
  cases s <;> rfl

private theorem withDefault?_free (h : (fields.map Prod.fst).Nodup) (name : String) {v : Json}
    (hv : fields.lookup name = some v) (hkept : v.Kept Payload.dataRoom) (missing : Json) :
    withDefault? (ofFields fields) name Payload.free? missing = some v := by
  rw [withDefault?, single?_ofFields h, hv]
  exact keep?_ofJson hkept

private theorem withDefault?_truth (h : (fields.map Prod.fst).Nodup) (name : String)
    (b missing : Bool) (hb : fields.lookup name = some (.bool b)) :
    withDefault? (ofFields fields) name truth? missing = some b := by
  rw [withDefault?, single?_ofFields h, hb]
  rfl

end Json.Tree

/-! ## Reading payloads that were written -/

@[simp] theorem lookup_field? {α : Type} (f : α → Json) (x : Option α) (name k : String) :
    (field? name f x).lookup k = if k = name then x.map f else none := by
  cases x with
  | none => simp [field?]
  | some a => simp only [field?, List.lookup_cons, List.lookup_nil, Option.map_some]; grind

namespace Payload

private theorem nodup_dataFields {p : Payload} {fields : List (String × Json)}
    (h : p.dataFields = some fields) : (fields.map Prod.fst).Nodup := by
  cases p <;> simp only [dataFields, Option.some.injEq, reduceCtorEq] at h <;> subst h
  case assistantMessage stream content thinking => cases stream <;> cases thinking <;> simp [field?]
  case contentDelta stream delta => cases stream <;> simp [field?]
  case thinkingDelta stream delta => cases stream <;> simp [field?]
  case toolEnd call name result isError => cases name <;> simp [field?]
  case delegationRequested delegation target objective =>
    cases target <;> cases objective <;> simp [field?]
  case delegationCompleted delegation summary => cases summary <;> simp [field?]
  case delegationFailed delegation error => cases error <;> simp [field?]
  case sessionForked child delegation => cases delegation <;> simp [field?]
  all_goals simp

private theorem ofFields?_dataFields {p : Payload} {fields : List (String × Json)}
    (h : p.dataFields = some fields) (hkept : ∀ v ∈ p.value?, v.Kept dataRoom) :
    ofFields? p.tag (ofFields fields) = some p := by
  have hn := nodup_dataFields h
  cases p <;> simp only [dataFields, Option.some.injEq, reduceCtorEq] at h <;> subst h <;>
    simp only [tag, ofFields?]
  case userPrompt text =>
    rw [withDefault?_text hn "text" text "" (by simp)]
    rfl
  case assistantMessage stream content thinking =>
    rw [optional?_text hn "stream_message_id" stream
        (by simp [List.lookup_append, List.lookup_cons]),
      withDefault?_text hn "content" content "" (by simp [List.lookup_append]),
      optional?_text hn "thinking" thinking
        (by simp [List.lookup_append, List.lookup_cons])]
    rfl
  case contentDelta stream delta =>
    rw [optional?_text hn "stream_message_id" stream
        (by simp [List.lookup_append, List.lookup_cons]),
      withDefault?_text hn "delta" delta "" (by simp [List.lookup_append])]
    rfl
  case thinkingDelta stream delta =>
    rw [optional?_text hn "stream_message_id" stream
        (by simp [List.lookup_append, List.lookup_cons]),
      withDefault?_text hn "delta" delta "" (by simp [List.lookup_append])]
    rfl
  case requestEnd reason =>
    rw [withDefault?_text hn "finish_reason" reason "" (by simp)]
    rfl
  case toolStart call name arguments =>
    rw [required?_text hn "tool_call_id" call (by simp),
      required?_text hn "tool_name" name (by simp [List.lookup_cons]),
      withDefault?_free hn "arguments" (by simp [List.lookup_cons]) (hkept arguments rfl)]
    rfl
  case toolEnd call name result isError =>
    rw [required?_text hn "tool_call_id" call (by simp),
      optional?_text hn "tool_name" name
        (by simp [List.lookup_append, List.lookup_cons]),
      withDefault?_free hn "result" (by simp [List.lookup_append, List.lookup_cons])
        (hkept result rfl),
      withDefault?_truth hn "is_error" isError false
        (by simp [List.lookup_append, List.lookup_cons])]
    rfl
  case delegationRequested delegation target objective =>
    rw [required?_text hn "delegation_id" delegation (by simp),
      optional?_text hn "target_agent_id" target
        (by simp [List.lookup_append, List.lookup_cons]),
      optional?_text hn "objective" objective
        (by simp [List.lookup_append, List.lookup_cons])]
    rfl
  case delegationCompleted delegation summary =>
    rw [required?_text hn "delegation_id" delegation (by simp),
      optional?_text hn "summary" summary (by simp [List.lookup_cons])]
    rfl
  case delegationFailed delegation error =>
    rw [required?_text hn "delegation_id" delegation (by simp),
      optional?_text hn "error" error (by simp [List.lookup_cons])]
    rfl
  case sessionForked child delegation =>
    rw [required?_text hn "child_session_id" child (by simp),
      optional?_text hn "delegation_id" delegation (by simp [List.lookup_cons])]
    rfl
  case providerChanged provider model =>
    rw [withDefault?_text hn "provider" provider "" (by simp),
      withDefault?_text hn "model" model "" (by simp [List.lookup_cons])]
    rfl
  case systemError message =>
    rw [withDefault?_text hn "message" message "" (by simp)]
    rfl

private theorem tag_ne_of_dataFields {p : Payload} {fields : List (String × Json)}
    (h : p.dataFields = some fields) : p.tag ≠ "llm_request_start" := by
  cases p <;> first | cases h; done | simp [tag]

private theorem eq_requestStart_of_dataFields {p : Payload} (h : p.dataFields = none) :
    p = .requestStart := by
  cases p <;> first | rfl | cases h

/-- The fields of the `kind` of an event. -/
def fields (p : Payload) : List (String × Json) :=
  ("type", .string p.tag) :: field? "data" .object p.dataFields

private theorem nodup_fields (p : Payload) : (p.fields.map Prod.fst).Nodup := by
  rw [fields]
  cases p.dataFields <;> simp [field?]

private theorem ofTree?_toJson {p : Payload} (hkept : ∀ v ∈ p.value?, v.Kept dataRoom) :
    ofTree? (ofJson p.toJson) = some p := by
  have hn := nodup_fields p
  have htype : required? (ofFields p.fields) "type" tag? = some p.tag := by
    rw [required?, single?_ofFields hn, fields, List.lookup_cons_self]
    rfl
  have hdata : single? (ofFields p.fields) "data"
      = some ((p.dataFields.map Json.object).map ofJson) := by
    rw [single?_ofFields hn]
    simp [fields, List.lookup_cons]
  have hfirst : dataIsFirst (ofFields p.fields) = false := by
    simp [dataIsFirst, fields, ofFields]
  have hrecord : ofJson p.toJson = .object (ofFields p.fields) := by rw [toJson, ofJson, fields]
  rw [hrecord, ofTree?]
  · simp only [fields?_ofFields, Option.bind_eq_bind, Option.bind_some, htype, hdata, hfirst]
    cases hfields : p.dataFields with
    | none =>
      rw [eq_requestStart_of_dataFields hfields]
      rfl
    | some fields =>
      simp only [Option.map_some, Bool.false_eq_true, false_and, if_false]
      rw [ofParts?.eq_def, if_neg (tag_ne_of_dataFields hfields), ofJson, fields?_ofFields]
      exact ofFields?_dataFields hfields hkept
  · intro _ _ h
    cases h

end Payload

/-! ## Reading events that were written -/

theorem Json.Tree.word?_ofJson (n : UInt64) : word? (ofJson (.int n.toNat)) = some n := by
  rw [Json.int, ofJson, word?, if_pos ⟨by omega, by simpa using n.toNat_lt⟩, Int.toNat_natCast,
    UInt64.ofNat_toNat]

namespace Event

private theorem time?_ofJson (t : Instant) : time? (ofJson (.instant t)) = some (some t) := by
  have hclamp : Instant.ofJson? (.instant t) = some t := congrArg some (Instant.clamp_toInt t)
  exact congrArg some hclamp

/-- The fields of an event. -/
def fields (e : Event) : List (String × Json) :=
  [("sequence", .int e.sequence.toNat), ("session_id", .string e.session)] ++
    field? "agent_id" .string e.agent ++ field? "timestamp" .instant e.time ++
    [("kind", e.payload.toJson)]

private theorem nodup_fields (e : Event) : (e.fields.map Prod.fst).Nodup := by
  rw [fields]
  cases e.agent <;> cases e.time <;> simp [field?]

private theorem ofTree?_toJson {e : Event}
    (hkept : ∀ v ∈ e.payload.value?, v.Kept Payload.dataRoom) :
    ofTree? (ofJson e.toJson) = some e := by
  have hn := nodup_fields e
  have hsequence : required? (ofFields e.fields) "sequence" word? = some e.sequence := by
    rw [required?, single?_ofFields hn]
    exact word?_ofJson e.sequence
  have hsession : required? (ofFields e.fields) "session_id" text? = some e.session :=
    required?_text hn "session_id" e.session (by simp [fields, List.lookup_cons])
  have hagent : optional? (ofFields e.fields) "agent_id" text? = some e.agent :=
    optional?_text hn "agent_id" e.agent
      (by simp [fields, List.lookup_append, List.lookup_cons])
  have htime : withDefault? (ofFields e.fields) "timestamp" time? none = some e.time := by
    rw [withDefault?, single?_ofFields hn]
    cases htime : e.time with
    | none => simp [fields, htime, List.lookup_append, List.lookup_cons]
    | some t => simp [fields, htime, List.lookup_append, List.lookup_cons, time?_ofJson]
  have hkind : required? (ofFields e.fields) "kind" Payload.ofTree? = some e.payload := by
    rw [required?, single?_ofFields hn]
    simp [fields, List.lookup_append, List.lookup_cons, Payload.ofTree?_toJson hkept]
  have hrecord : ofJson e.toJson = .object (ofFields e.fields) := by rw [toJson, ofJson, fields]
  rw [hrecord, ofTree?]
  · simp only [fields?_ofFields, Option.bind_eq_bind, Option.bind_some, hsequence, hsession, hagent,
      htime, hkind]
  · intro _ _ _ _ _ h
    cases h

end Event

/-! ## Printing events -/

/-- All fields of a record are plain. -/
def Json.PlainFields (fields : List (String × Json)) : Prop := ∀ field ∈ fields, field.2.Plain

namespace Json

@[simp] theorem plainFields_nil : PlainFields [] := List.forall_mem_nil _

@[simp] theorem plainFields_cons {name : String} {v : Json} {fields : List (String × Json)} :
    PlainFields ((name, v) :: fields) ↔ v.Plain ∧ PlainFields fields := List.forall_mem_cons

@[simp] theorem plainFields_append {fields more : List (String × Json)} :
    PlainFields (fields ++ more) ↔ PlainFields fields ∧ PlainFields more :=
  List.forall_mem_append

theorem plainFields_field? {α : Type} {name : String} {f : α → Json} {x : Option α}
    (h : ∀ a ∈ x, (f a).Plain) : PlainFields (field? name f x) := by
  cases x with
  | none => exact plainFields_nil
  | some a => exact List.forall_mem_singleton.mpr (h a rfl)

@[simp] theorem plainFields_text? (name : String) (s : Option String) :
    PlainFields (field? name .string s) := plainFields_field? fun s _ ↦ .string s

end Json

namespace Payload

private theorem plainFields_dataFields {p : Payload} {fields : List (String × Json)}
    (hfields : p.dataFields = some fields) (h : ∀ v ∈ p.value?, v.Plain) :
    PlainFields fields := by
  cases p <;> simp only [dataFields, Option.some.injEq, reduceCtorEq] at hfields <;> subst hfields
  case toolStart call name arguments => simp [Plain.string, h arguments rfl]
  case toolEnd call name result isError => simp [Plain.string, Plain.bool, h result rfl]
  all_goals simp [Plain.string]

private theorem plain_toJson {p : Payload} (h : ∀ v ∈ p.value?, v.Plain) : p.toJson.Plain := by
  refine .object (plainFields_cons.mpr ⟨.string p.tag, plainFields_field? ?_⟩)
  exact fun fields hfields ↦ .object (plainFields_dataFields hfields h)

end Payload

namespace Event

private theorem fits_toNat (n : UInt64) : (Number.whole n.toNat).Fits := by
  have hleast : Int64.minValue.toInt ≤ 0 := by decide
  have hgreatest := n.toNat_lt
  exact ⟨by omega, by simp only [UInt64.size]; omega⟩

private theorem fits_toInt (t : Instant) : (Number.whole t.toInt).Fits := by
  have hleast := Instant.least_le_toInt t
  have hgreatest := Instant.toInt_le_greatest t
  have hmin : Int64.minValue.toInt = Instant.least := by decide
  rw [Instant.greatest] at hgreatest
  exact ⟨by omega, by simp only [UInt64.size]; omega⟩

private theorem plain_toJson {e : Event} (h : ∀ v ∈ e.payload.value?, v.Plain) :
    e.toJson.Plain := by
  have hsequence : (Json.int e.sequence.toNat).Plain := .int (fits_toNat e.sequence)
  have htime : PlainFields (field? "timestamp" .instant e.time) :=
    plainFields_field? fun t _ ↦ .int (fits_toInt t)
  have hfields : PlainFields e.fields := by
    simp [fields, hsequence, htime, Plain.string, Payload.plain_toJson h]
  exact .object hfields

/-- An event that was read from the wire is printed without doubles, if none stands in it. -/
theorem plain_toJson_of_read? {text : String} {e : Event} (h : read? text = some e)
    (hexact : e.IsExact) : e.toJson.Plain :=
  plain_toJson fun v hv ↦ (kept_of_read? h v hv).plain (hexact v hv)

/-- An event that was read from the wire reads back as itself, if no double stands in it. -/
theorem read?_render_toJson {text : String} {e : Event} (h : read? text = some e)
    (hexact : e.IsExact) : read? e.toJson.render = some e := by
  rw [read?, read?_render (plain_toJson_of_read? h hexact)]
  exact ofTree?_toJson (kept_of_read? h)

end Event

end SessionReplay
