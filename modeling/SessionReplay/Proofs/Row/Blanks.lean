import Mathlib.Algebra.Order.BigOperators.Group.List
import Mathlib.Algebra.Order.Group.Nat
import SessionReplay.Proofs.Row.Routing
import SessionReplay.Proofs.Row.Spelling

/-!
# What blanks around a target do

A target with blanks around it is nobody's name. The blanks are trimmed where calls and requests are
paired, but not where a row looks for its group, so the rows of the agent that was meant stay
outside. This happens in every session in which anything lies in a group, `RowSet.exists_ungrouped`,
and nothing else happens: `RowSet.onlyMovesRows_ofEvents`.

## How to spell a name that nobody has

A text that is longer than the names of all agents is none of them. Which agents have rows does not
depend on the spelling, so enough blanks can be put before every target. Then nobody is asked for,
`Tracker.AsksFor`, and nobody is sent into a group.
-/

namespace SessionReplay

/-! ## A spelling that is nobody's name -/

/-- A target with some blanks before it. -/
def padTarget (n : Nat) (target : Option String) : Option String :=
  some (String.ofList (List.replicate n ' ') ++ target.getD "")

theorem Text.trim_padded (n : Nat) (s : String) :
    trim (String.ofList (List.replicate n ' ') ++ s) = trim s := by
  have hblank : ∀ c ∈ List.replicate n ' ', isBlank c = true := by
    intro c hc
    rw [List.eq_of_mem_replicate hc]
    decide
  rw [trim, trim, String.toList_append, String.toList_ofList, trimChars,
    List.dropWhile_append_of_pos hblank, trimChars]

private theorem cleanTarget_padTarget (n : Nat) (target : Option String) :
    cleanTarget (padTarget n target) = cleanTarget target := by
  rw [cleanTarget, padTarget, Option.bind_some, Text.nonBlank?, Text.trim_padded]
  cases target with
  | none => rfl
  | some s => rfl

private theorem exists_padTarget_eq (n : Nat) (target : Option String) :
    ∃ s, padTarget n target = some s ∧ n ≤ s.length := by
  refine ⟨_, rfl, ?_⟩
  rw [String.length_append, String.length_ofList, List.length_replicate]
  exact Nat.le_add_right n _

theorem Payload.exists_of_respell_eq_request {f : Option String → Option String} {p : Payload}
    {id : String} {target objective : Option String}
    (h : p.respell f = .delegationRequested id target objective) : ∃ t, f t = target := by
  cases p with
  | delegationRequested id' t objective' =>
    obtain ⟨-, htarget, -⟩ := Payload.delegationRequested.inj h
    exact ⟨t, htarget⟩
  | _ => cases h

/-- Where all targets are spelled as names of a kind, the tracker is asked for names of that kind
only. -/
theorem RowBuilder.asksFor_foldl_step {P : String → Prop} {f : Option String → Option String}
    (hf : ∀ target, ∃ s, f target = some s ∧ P s) (session : String) (options : Options)
    (items : List Item) :
    ((items.map (Item.respell f)).foldl step (.start session options)).tracker.AsksFor P := by
  induction items using List.reverseRecOn with
  | nil => exact Tracker.asksFor_empty P
  | append_singleton before i ih =>
    rw [List.map_append, List.map_singleton, List.foldl_concat, tracker_step_eq]
    cases hreport : report? _ (i.respell f) with
    | none => exact ih
    | some r =>
      refine ih.step ?_
      rintro q rfl
      generalize hx : i.respell f = x at hreport
      cases reports_of_report? hreport with
      | requested he =>
        cases i with
        | message m => cases hx
        | event e =>
          cases hx
          obtain ⟨t, rfl⟩ := Payload.exists_of_respell_eq_request he
          exact hf t

namespace RowSet

/-- No row lies in a group. -/
def Ungrouped (s : RowSet) : Prop := ∀ r ∈ s.rows, r.group = none

/-- **Blanks.** In some spelling no row lies in a group. -/
theorem exists_ungrouped (session : String) (events : List Event) (options : Options) :
    ∃ events', Respelled events events' ∧ (ofEvents session events' options).Ungrouped := by
  -- more blanks than any agent's name has characters
  let n := ((ofEvents session events options).rows.map fun r ↦ r.agent.length).sum + 1
  have hrespelled := respelled_map (cleanTarget_padTarget n) events
  refine ⟨_, hrespelled, fun r hr ↦ ?_⟩
  have hshort : r.agent.length < n := by
    have hmem := List.mem_map_of_mem (f := Row.unplaced) hr
    rw [← (spelledAlike_ofEvents hrespelled session options).unplaced_eq] at hmem
    obtain ⟨q, hq, hsame⟩ := List.mem_map.mp hmem
    have hagent : q.unplaced.agent = r.unplaced.agent := congrArg Row.agent hsame
    change q.agent = r.agent at hagent
    rw [← hagent, Nat.lt_succ_iff]
    exact List.single_le_sum (fun _ _ ↦ Nat.zero_le _) _ (List.mem_map_of_mem hq)
  have hasks := RowBuilder.asksFor_foldl_step (exists_padTarget_eq n) session options
    (Transcript.ofTimeline (Timeline.ofEvents session events options))
  rw [← Transcript.ofTimeline_respell, ← Timeline.ofEvents_respell] at hasks
  by_contra hgroup
  obtain ⟨group, hgroup⟩ := Option.ne_none_iff_exists'.mp hgroup
  obtain ⟨before, after, hrows⟩ := List.append_of_mem hr
  obtain ⟨g, hg, hpaired, htarget⟩ := (SessionView.sentTo_ofEvents none hrows hgroup).exists_group
  rw [SessionView.get?_groups_ofEvents, Option.map_eq_some_iff] at hg
  obtain ⟨d, hd, rfl⟩ := hg
  exact Nat.not_le.mpr hshort (hasks.of_serves ⟨d, hd, hpaired, htarget⟩)

/-- The rows of a session's events are the same in all spellings. -/
def SpellingFree (session : String) (events : List Event) (options : Options) : Prop :=
  ∀ events', Respelled events events' →
    (ofEvents session events' options).rows = (ofEvents session events options).rows

/-- What the spelling of targets can do to the rows of a session's events. -/
structure OnlyMovesRows (session : String) (events : List Event) (options : Options) : Prop where
  /-- It decides where rows lie and nothing else. -/
  alike : ∀ events', Respelled events events' →
    (ofEvents session events options).SpelledAlike (ofEvents session events' options)
  /-- It decides nothing if no row lies in a group, in whatever spelling, and only then. -/
  spellingFree_iff : SpellingFree session events options ↔
    ∀ events', Respelled events events' → (ofEvents session events' options).Ungrouped

theorem Ungrouped.map_group_eq {s s' : RowSet} (h : s.Ungrouped) (h' : s'.Ungrouped)
    (hlength : s.rows.length = s'.rows.length) : s.rows.map Row.group = s'.rows.map Row.group := by
  rw [List.map_eq_replicate_iff.mpr h, List.map_eq_replicate_iff.mpr h', hlength]

/-- **Spelling.** Blanks around the targets of requests decide where rows lie, and nothing else; and
they do decide it, unless no row lies in a group anyway. -/
theorem onlyMovesRows_ofEvents (session : String) (events : List Event) (options : Options) :
    OnlyMovesRows session events options where
  alike _ h := spelledAlike_ofEvents h session options
  spellingFree_iff := by
    constructor
    · intro hfree events' h r hr
      obtain ⟨padded, hpadded, hungrouped⟩ := exists_ungrouped session events options
      rw [hfree events' h, ← hfree padded hpadded] at hr
      exact hungrouped r hr
    · intro hungrouped events' h
      have halike := spelledAlike_ofEvents h session options
      have hlength : (ofEvents session events options).rows.length
          = (ofEvents session events' options).rows.length := by
        rw [← List.length_map (f := Row.unplaced), halike.unplaced_eq, List.length_map]
      exact (halike.rows_eq_iff.mpr
        ((hungrouped events rfl).map_group_eq (hungrouped events' h) hlength)).symm

/-- A call, the request for it, and a message of the agent that was meant. -/
def askedFor (target : String) : List Event :=
  [⟨1, "s1", some "main", some 1000,
      .toolStart "tc1" "delegate" (.object [("agent_id", .string "worker")])⟩,
   ⟨2, "s1", some "main", some 2000, .delegationRequested "d1" (some target) none⟩,
   ⟨3, "s1", some "worker", some 3000, .assistantMessage none "At work." none⟩]

private theorem ofEvents_askedFor (target : String) : ofEvents "s1" (askedFor target) default
    = ofTimeline "s1" ((askedFor target).map fun e ↦ ⟨e, e.agent.getD "", e.time.getD 0⟩)
      default := by
  rw [ofEvents, Timeline.ofEvents,
    Timeline.admitted_eq_self (by simp [askedFor]) (by simp [askedFor])]
  rfl

/-- With a blank on each side of the target, the message stands outside of the group. -/
theorem not_spellingFree_askedFor : ¬ SpellingFree "s1" (askedFor "worker") default := by
  intro hfree
  have hgroups := congrArg (List.map Row.group) (hfree (askedFor " worker ") rfl)
  have hinside : (ofEvents "s1" (askedFor "worker") default).rows.map Row.group
      = [none, some "tc1"] := by
    rw [ofEvents_askedFor]
    rfl
  have houtside : (ofEvents "s1" (askedFor " worker ") default).rows.map Row.group
      = [none, none] := by
    rw [ofEvents_askedFor]
    rfl
  rw [hinside, houtside] at hgroups
  exact absurd hgroups (by decide)

end RowSet

end SessionReplay
