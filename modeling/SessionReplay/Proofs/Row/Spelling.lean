import SessionReplay.Proofs.Delegation.Outline
import SessionReplay.Proofs.Row.Conservation
import SessionReplay.Proofs.Row.Openings

/-!
# Rows and the spelling of targets

Blanks around the target of a request should not matter, and for most of what is made of a session's
events they do not. Whatever the spelling, there are the same rows, the same calls are paired with
the same requests, and the same delegations end in the same way: `RowSet.spelledAlike_ofEvents`. All
that can differ is where rows stand.

## Two builders side by side

Two spellings are read by two builders, thing by thing. What they have in common all the time is
`RowBuilder.SpelledAlike`. Where the two put a row may differ, and then later rows differ that stand
under it or lie with it. But a place follows from what was there and from the group,
`RowBuilder.SpelledAlike.place_eq`, so the groups of the rows decide everything:
`RowBuilder.rows_eq_of_groups_eq`.
-/

namespace SessionReplay

/-! ## Lists in step -/

/-- If two lists look alike, the second ends with something that looks like the end of the first. -/
private theorem exists_of_map_concat_eq {α β : Type} {f : α → β} {xs ys : List α} {x : α}
    (h : (xs ++ [x]).map f = ys.map f) :
    ∃ ys' y, ys = ys' ++ [y] ∧ xs.map f = ys'.map f ∧ f x = f y := by
  rw [List.map_append, List.map_singleton] at h
  obtain ⟨ys', rest, rfl, hinit, hrest⟩ := List.map_eq_append_iff.mp h.symm
  obtain ⟨y, rfl, hlast⟩ := List.map_eq_singleton_iff.mp hrest
  exact ⟨ys', y, rfl, hinit.symm, hlast.symm⟩

namespace Row

variable {r r' : Row} {rows rows' : List Row}

private theorem eq_of_unplaced_eq (h : r.unplaced = r'.unplaced) (hplace : r.place = r'.place) :
    r = r' := by
  cases r
  cases r'
  simp only [unplaced, place, Row.mk.injEq, Placement.mk.injEq] at h hplace ⊢
  tauto

/-- Rows are what they show and where they stand. -/
theorem list_eq_of_unplaced_eq (h : rows.map unplaced = rows'.map unplaced)
    (hplace : rows.map place = rows'.map place) : rows = rows' := by
  have hinj : Function.Injective fun r : Row ↦ (r.unplaced, r.place) := fun r r' hr ↦
    eq_of_unplaced_eq (Prod.mk.inj hr).1 (Prod.mk.inj hr).2
  refine List.map_injective_iff.mpr hinj ?_
  rw [← List.zip_map', h, hplace, List.zip_map']

private theorem map_group_eq (rows : List Row) :
    rows.map group = (rows.map place).map Placement.group :=
  (List.map_map (f := place) (g := Placement.group)).symm

end Row

/-! ## Things that differ in the spelling -/

/-- Two things of transcripts are the same, or they are requests that differ in blanks. -/
inductive Item.SpelledAlike : Item → Item → Prop
  | same (i : Item) : SpelledAlike i i
  | request {e e' : Entry} {id : String} {target target' objective : Option String}
      (he : e.payload = .delegationRequested id target objective)
      (he' : e'.payload = .delegationRequested id target' objective)
      (htarget : cleanTarget target = cleanTarget target') : SpelledAlike (.event e) (.event e')

theorem Payload.eq_of_respell_eq {f : Option String → Option String} {p p' : Payload}
    (h : p.respell f = p'.respell f) :
    p = p' ∨ ∃ id target target' objective, p = .delegationRequested id target objective ∧
      p' = .delegationRequested id target' objective ∧ f target = f target' := by
  cases p with
  | delegationRequested id target objective =>
    cases p' with
    | delegationRequested id' target' objective' =>
      obtain ⟨rfl, htarget, rfl⟩ := Payload.delegationRequested.inj h
      exact Or.inr ⟨id, target, target', objective, rfl, rfl, htarget⟩
    | _ => cases h
  | _ =>
    cases p' with
    | delegationRequested id' target' objective' => cases h
    | _ => exact Or.inl h

theorem Item.spelledAlike_of_respell_eq {i i' : Item}
    (h : i.respell cleanTarget = i'.respell cleanTarget) : i.SpelledAlike i' := by
  cases i with
  | message m =>
    cases i' with
    | message m' =>
      cases h
      exact .same _
    | event e' => cases h
  | event e =>
    cases i' with
    | message m' => cases h
    | event e' =>
      obtain ⟨⟨sequence, session, name, time, payload⟩, agent, filled⟩ := e
      obtain ⟨⟨sequence', session', name', time', payload'⟩, agent', filled'⟩ := e'
      simp only [respell, Entry.respell, Event.respell, Item.event.injEq, Entry.mk.injEq,
        Event.mk.injEq] at h
      obtain ⟨⟨rfl, rfl, rfl, rfl, hpayload⟩, rfl, rfl⟩ := h
      rcases Payload.eq_of_respell_eq hpayload with rfl | ⟨id, target, target', objective, he⟩
      · exact .same _
      · exact .request he.1 he.2.1 he.2.2

namespace RowBuilder

variable {b c : RowBuilder} {i i' : Item}

/-! ## What two builders have in common -/

/-- The builders know the same, but for where rows stand and where agents are sent. -/
structure SpelledAlike (b c : RowBuilder) : Prop where
  session_eq : b.session = c.session
  options_eq : b.options = c.options
  unplaced_eq : b.unplaced = c.unplaced
  outline_eq : b.tracker.outline = c.tracker.outline

namespace SpelledAlike

theorem map_unplaced_eq (h : b.SpelledAlike c) :
    b.rows.map Row.unplaced = c.rows.map Row.unplaced := by
  have hunplaced := h.unplaced_eq
  rw [unplaced, unplaced, List.map_reverse, List.map_reverse] at hunplaced
  exact List.reverse_inj.mp hunplaced

private theorem length_eq (h : b.SpelledAlike c) : b.rows.length = c.rows.length := by
  rw [← List.length_map (f := Row.unplaced), h.map_unplaced_eq, List.length_map]

/-- Both find the row of a call, or neither does. -/
theorem call?_eq (h : b.SpelledAlike c) (call : String) :
    (b.call? call).map Row.unplaced = (c.call? call).map Row.unplaced := by
  have hfind : ∀ b : RowBuilder, (b.call? call).map Row.unplaced
      = (b.rows.map Row.unplaced).find? fun r ↦ r.isCall call := fun b ↦ by
    rw [List.find?_map]
    rfl
  rw [hfind, hfind, h.map_unplaced_eq]

theorem call?_eq_none_iff (h : b.SpelledAlike c) {call : String} :
    b.call? call = none ↔ c.call? call = none := by
  rw [← Option.map_eq_none_iff (f := Row.unplaced), h.call?_eq, Option.map_eq_none_iff]

private theorem isSome_call?_eq (h : b.SpelledAlike c) (call : String) :
    (b.call? call).isSome = (c.call? call).isSome := by
  rw [← Option.isSome_map (f := Row.unplaced), h.call?_eq, Option.isSome_map]

private theorem any_delegates_call?_eq (h : b.SpelledAlike c) (call : String) :
    (b.call? call).any Row.delegates = (c.call? call).any Row.delegates := by
  have hany : ∀ r : Option Row, r.any Row.delegates = (r.map Row.unplaced).any Row.delegates :=
    fun r ↦ by cases r <;> rfl
  rw [hany, h.call?_eq, ← hany]

/-- A request adds no row. -/
theorem rows_step_of_request {e : Entry} {id : String} {target objective : Option String}
    (he : e.payload = .delegationRequested id target objective) :
    (b.step (.event e)).rows = b.rows := by
  rw [RowBuilder.step, event, he]
  rfl

private theorem unplaced_step_eq (h : b.SpelledAlike c) (hi : i.SpelledAlike i') :
    (b.step i).unplaced = (c.step i').unplaced := by
  cases hi with
  | request he he' _ =>
    rw [unplaced, unplaced, rows_step_of_request he, rows_step_of_request he']
    exact h.unplaced_eq
  | same =>
    cases i with
    | message m =>
      have hadded : ∀ b : RowBuilder, (b.step (.message m)).unplaced
          = b.unplaced ++ [m.row b.session] := fun b ↦ b.unplaced_add _
      rw [hadded, hadded, h.unplaced_eq, h.session_eq]
    | event e =>
      rw [RowBuilder.step, RowBuilder.step]
      by_cases hnew : ∀ call, e.call? = some call → b.call? call = none
      · have hnew' : ∀ call, e.call? = some call → c.call? call = none := fun call hcall ↦
          h.call?_eq_none_iff.mp (hnew call hcall)
        rw [unplaced_event_of_new hnew, unplaced_event_of_new hnew', h.unplaced_eq, h.session_eq,
          h.options_eq]
      · push Not at hnew
        obtain ⟨call, hcall, hold⟩ := hnew
        have hold' : c.call? call ≠ none := fun hnone ↦ hold (h.call?_eq_none_iff.mpr hnone)
        rw [unplaced_event_of_old hcall hold, unplaced_event_of_old hcall hold', h.unplaced_eq]

/-- Both tell their trackers the same, but for how a target is spelled and how deep a call stands.
-/
theorem report?_eq (h : b.SpelledAlike c) (hi : i.SpelledAlike i') :
    (b.report? i).map Tracker.Report.outline = (c.report? i').map Tracker.Report.outline := by
  cases hi with
  | request he he' htarget =>
    rw [report?, report?, he, he']
    dsimp only [Option.map_some, Tracker.Report.outline]
    rw [htarget]
  | same =>
    cases i with
    | message m => rfl
    | event e =>
      rw [report?, report?]
      cases e.payload with
      | toolStart call name arguments =>
        dsimp only
        rw [h.isSome_call?_eq, h.options_eq]
        split <;> rfl
      | toolEnd call name value isError =>
        dsimp only
        rw [h.any_delegates_call?_eq]
      | sessionForked child delegation => cases delegation <;> rfl
      | _ => rfl

/-- **One thing of a transcript**, in both spellings. -/
theorem step (h : b.SpelledAlike c) (hi : i.SpelledAlike i') :
    (b.step i).SpelledAlike (c.step i') where
  session_eq := by
    rw [(session_options_step b i).1, (session_options_step c i').1, h.session_eq]
  options_eq := by
    rw [(session_options_step b i).2, (session_options_step c i').2, h.options_eq]
  unplaced_eq := h.unplaced_step_eq hi
  outline_eq := by
    have hreport := h.report?_eq hi
    rw [tracker_step_eq, tracker_step_eq]
    cases hr : b.report? i with
    | none =>
      rw [hr, Option.map_none, eq_comm, Option.map_eq_none_iff] at hreport
      rw [hreport]
      exact h.outline_eq
    | some r =>
      rw [hr, Option.map_some, eq_comm, Option.map_eq_some_iff] at hreport
      obtain ⟨r', hr', hsame⟩ := hreport
      rw [hr']
      exact Tracker.outline_step_congr h.outline_eq hsame.symm

end SpelledAlike

variable {items items' : List Item}

/-- **Any number of things.** -/
theorem spelledAlike_foldl_step (session : String) (options : Options)
    (h : items.map (Item.respell cleanTarget) = items'.map (Item.respell cleanTarget)) :
    (items.foldl step (.start session options)).SpelledAlike
      (items'.foldl step (.start session options)) := by
  induction items using List.reverseRecOn generalizing items' with
  | nil =>
    rw [List.map_eq_nil_iff.mp h.symm]
    exact ⟨rfl, rfl, rfl, rfl⟩
  | append_singleton before i ih =>
    obtain ⟨before', i', rfl, hbefore, hi⟩ := exists_of_map_concat_eq h
    rw [List.foldl_concat, List.foldl_concat]
    exact (ih hbefore).step (Item.spelledAlike_of_respell_eq hi)

/-! ## The place follows from the group -/

section Places

/-- Two delegations of one call have the depth of its row. -/
theorem under_eq (hb : b.OpenedByRows) (hc : c.OpenedByRows) (hinventory : b.Inventory)
    (hrows : b.rows = c.rows) {call call' : String} {d d' : Delegation}
    (hd : b.tracker.groups.get? call = some d) (hd' : c.tracker.groups.get? call' = some d')
    (hcall : d.call = d'.call) (group : Option String) :
    Placement.under d group = Placement.under d' group := by
  obtain ⟨q, hq, hopens⟩ := hb.openedBy call d hd
  obtain ⟨q', hq', hopens'⟩ := hc.openedBy call' d' hd'
  have hid : q.id = q'.id := (hopens.id_eq.trans hcall).trans hopens'.id_eq.symm
  obtain rfl : q = q' := List.inj_on_of_nodup_map hinventory.nodup_delegating
    (List.mem_filter.mpr ⟨hq, hopens.delegates⟩)
    (List.mem_filter.mpr ⟨hrows ▸ hq', hopens'.delegates⟩) hid
  rw [Placement.under, Placement.under, hcall, ← hopens.depth_eq, ← hopens'.depth_eq]

variable (hb : b.OpenedByRows) (hc : c.OpenedByRows) (hinventory : b.Inventory)
  (hrows : b.rows = c.rows) {agent : String}
  (hroute : (b.tracker.route? agent).map Delegation.call
    = (c.tracker.route? agent).map Delegation.call)

include hb hc hinventory hrows hroute

theorem map_under_route?_eq (group : Option String) :
    (b.tracker.route? agent).map (Placement.under · group)
      = (c.tracker.route? agent).map (Placement.under · group) := by
  cases hd : b.tracker.route? agent with
  | none =>
    rw [hd, Option.map_none, eq_comm, Option.map_eq_none_iff] at hroute
    rw [hroute]
  | some d =>
    rw [hd, Option.map_some, eq_comm, Option.map_eq_some_iff] at hroute
    obtain ⟨d', hd', hcall⟩ := hroute
    obtain ⟨key, hkey⟩ := Tracker.exists_of_route? hd
    obtain ⟨key', hkey'⟩ := Tracker.exists_of_route? hd'
    rw [hd', Option.map_some, Option.map_some,
      under_eq hb hc hinventory hrows hkey hkey' hcall.symm]

private theorem messagePlace_eq : b.messagePlace agent = c.messagePlace agent := by
  have hplace : ∀ b : RowBuilder, b.messagePlace agent = ((b.tracker.route? agent).map
      (Placement.under · ((b.tracker.route? agent).map Delegation.call))).getD .top := fun b ↦ by
    rw [messagePlace]
    cases b.tracker.route? agent <;> rfl
  rw [hplace, hplace, hroute, map_under_route?_eq hb hc hinventory hrows hroute]

theorem anchor?_eq : b.anchor? agent = c.anchor? agent := by
  have hlatest : b.latestMessage? agent = c.latestMessage? agent := by
    rw [latestMessage?, hrows, latestMessage?]
  rw [anchor?, anchor?, hlatest, hroute, map_under_route?_eq hb hc hinventory hrows hroute]

private theorem toolPlace?_eq (houtline : b.tracker.outline = c.tracker.outline) :
    b.toolPlace? agent = c.toolPlace? agent := by
  have hinnermost : (b.tracker.innermost? agent).map Delegation.bare
      = (c.tracker.innermost? agent).map Delegation.bare := by
    rw [← Tracker.innermost?_outline, houtline, Tracker.innermost?_outline]
  rw [toolPlace?, toolPlace?, hroute]
  cases hd : b.tracker.innermost? agent with
  | none =>
    rw [hd, Option.map_none, eq_comm, Option.map_eq_none_iff] at hinnermost
    rw [hinnermost]
    exact anchor?_eq hb hc hinventory hrows hroute
  | some d =>
    rw [hd, Option.map_some, eq_comm, Option.map_eq_some_iff] at hinnermost
    obtain ⟨d', hd', hbare⟩ := hinnermost
    obtain ⟨key, hkey⟩ := Tracker.exists_of_innermost? hd
    obtain ⟨key', hkey'⟩ := Tracker.exists_of_innermost? hd'
    have hcall : d.call = d'.call := (congrArg Delegation.call hbare).symm
    rw [hd']
    exact congrArg some (under_eq hb hc hinventory hrows hkey hkey' hcall _)

end Places

/-- **The place of a thing** is the same in both spellings if its group is and all rows so far are.
-/
theorem SpelledAlike.place_eq (h : b.SpelledAlike c) (hb : b.OpenedByRows) (hc : c.OpenedByRows)
    (hinventory : b.Inventory) (hrows : b.rows = c.rows) (hi : i.SpelledAlike i')
    (hgroup : (b.place i).group = (c.place i').group) : b.place i = c.place i' := by
  cases hi with
  | request he he' _ => rw [place, place, he, he']
  | same =>
    cases i with
    | message m =>
      rw [place, place, group_messagePlace, group_messagePlace] at hgroup
      exact messagePlace_eq hb hc hinventory hrows hgroup
    | event e =>
      rw [place, place] at hgroup ⊢
      cases hpayload : e.payload with
      | toolStart call name arguments =>
        rw [hpayload] at hgroup
        dsimp only at hgroup ⊢
        rw [group_getD_toolPlace?, group_getD_toolPlace?] at hgroup
        rw [toolPlace?_eq hb hc hinventory hrows hgroup h.outline_eq]
      | toolEnd call name value isError =>
        rw [hpayload] at hgroup
        dsimp only at hgroup ⊢
        rw [group_getD_anchor? _ _ rfl, group_getD_anchor? _ _ rfl] at hgroup
        rw [anchor?_eq hb hc hinventory hrows hgroup]
      | _ => rfl

/-- **Any number of things.** Rows that lie in the same groups are the same. -/
theorem rows_eq_of_groups_eq {session : String} {options : Options}
    (h : items.map (Item.respell cleanTarget) = items'.map (Item.respell cleanTarget))
    (hgroups : (items.foldl step (.start session options)).rows.map Row.group
      = (items'.foldl step (.start session options)).rows.map Row.group) :
    (items.foldl step (.start session options)).rows
      = (items'.foldl step (.start session options)).rows := by
  refine Row.list_eq_of_unplaced_eq (spelledAlike_foldl_step session options h).map_unplaced_eq ?_
  induction items using List.reverseRecOn generalizing items' with
  | nil => rw [List.map_eq_nil_iff.mp h.symm]
  | append_singleton before i ih =>
    obtain ⟨before', i', rfl, hbefore, hi⟩ := exists_of_map_concat_eq h
    have halike := spelledAlike_foldl_step session options hbefore
    have hb := openedByRows_foldl_step session options before
    have hc := openedByRows_foldl_step session options before'
    have hinventory := (inventory_start session options).foldl_step before
    specialize ih hbefore
    rw [List.foldl_concat, List.foldl_concat] at hgroups ⊢
    generalize before.foldl step (.start session options) = b at *
    generalize before'.foldl step (.start session options) = c at *
    have hitems := Item.spelledAlike_of_respell_eq hi
    have hold := halike.length_eq
    have hlength := (halike.step hitems).length_eq
    rw [Row.map_group_eq, Row.map_group_eq] at ih hgroups
    -- both spellings add a row, or neither does
    rcases b.map_place_step i with hnew | hsame <;> rcases c.map_place_step i' with hnew' | hsame'
    · rw [hnew, hnew', List.map_cons, List.map_cons] at hgroups
      obtain ⟨hgroup, hgroups⟩ := List.cons.inj hgroups
      have hrows := Row.list_eq_of_unplaced_eq halike.map_unplaced_eq (ih hgroups)
      rw [hnew, hnew', ih hgroups, halike.place_eq hb hc hinventory hrows hitems hgroup]
    · have hmore := congrArg List.length hnew
      have hless := congrArg List.length hsame'
      simp only [List.length_map, List.length_cons] at hmore hless
      omega
    · have hless := congrArg List.length hsame
      have hmore := congrArg List.length hnew'
      simp only [List.length_map, List.length_cons] at hmore hless
      omega
    · rw [hsame, hsame'] at hgroups
      rw [hsame, hsame', ih hgroups]

end RowBuilder

namespace RowSet

/-- The same rows and groups but for where rows lie, and for what targets look like. -/
structure SpelledAlike (s s' : RowSet) : Prop where
  /-- There are the same rows. -/
  unplaced_eq : s.rows.map Row.unplaced = s'.rows.map Row.unplaced
  /-- There are the same groups, paired with the same requests, and they ended in the same way. -/
  groups_eq : ∀ call, (s.groups.get? call).map (fun g ↦ g.toDelegation.bare)
    = (s'.groups.get? call).map fun g ↦ g.toDelegation.bare
  /-- Depths and parents are the same if groups are. -/
  rows_eq_iff : s.rows = s'.rows ↔ s.rows.map Row.group = s'.rows.map Row.group

variable {events events' : List Event}

theorem spelledAlike_ofEvents (h : Respelled events events') (session : String)
    (options : Options) :
    (ofEvents session events options).SpelledAlike (ofEvents session events' options) := by
  have hitems : (Transcript.ofTimeline (Timeline.ofEvents session events options)).map
      (Item.respell cleanTarget)
        = (Transcript.ofTimeline (Timeline.ofEvents session events' options)).map
          (Item.respell cleanTarget) := by
    rw [← Transcript.ofTimeline_respell, ← Timeline.ofEvents_respell, h, Timeline.ofEvents_respell,
      Transcript.ofTimeline_respell]
  have halike := RowBuilder.spelledAlike_foldl_step session options hitems
  refine ⟨halike.unplaced_eq, fun call ↦ ?_, fun hrows ↦ by rw [hrows], fun hgroups ↦ ?_⟩
  · have hbare : ∀ b : RowBuilder, (b.finish.groups.get? call).map (fun g ↦ g.toDelegation.bare)
        = b.tracker.outline.groups.get? call := fun b ↦ by
      rw [RowBuilder.get?_groups_finish, Option.map_map, Tracker.get?_groups_outline]
      rfl
    exact (hbare _).trans ((congrArg (·.groups.get? call) halike.outline_eq).trans (hbare _).symm)
  · refine congrArg List.reverse (RowBuilder.rows_eq_of_groups_eq hitems ?_)
    have hreverse : ∀ b : RowBuilder, b.finish.rows.map Row.group
        = (b.rows.map Row.group).reverse := fun b ↦ List.map_reverse
    exact List.reverse_inj.mp ((hreverse _).symm.trans (hgroups.trans (hreverse _)))

end RowSet

end SessionReplay
