import SessionReplay.Proofs.Delegation.Identity
import SessionReplay.Proofs.Row.Parts
import SessionReplay.Proofs.Timeline
import SessionReplay.View

/-!
# The identifiers of groups

The groups of a transcript are the delegations of a tracker, and the transcript decides what the
tracker is told. So what holds of every run of a tracker holds of the groups of every transcript:
`RowSet.bearersApart_ofTranscript` says when no two groups share an identifier, and
`RowSet.not_bearersApart_askedTwice` shows the shortest way to two groups that do.
-/

namespace SessionReplay

/-- A transcript tells the tracker a number of reports whose endings are final. -/
theorem RowBuilder.exists_run_tracker_final (session : String) (options : Options)
    (items : List Item) :
    ∃ reports, (∀ r ∈ reports, r.Allows (·.status.isTerminal = true)) ∧
      (items.foldl step (.start session options)).tracker = Tracker.run reports := by
  induction items using List.reverseRecOn with
  | nil => exact ⟨[], List.forall_mem_nil _, rfl⟩
  | append_singleton before i ih =>
    obtain ⟨reports, hfinal, hrun⟩ := ih
    rw [List.foldl_concat, tracker_step_eq]
    cases hreport : (before.foldl step (.start session options)).report? i with
    | none => exact ⟨reports, hfinal, hrun⟩
    | some r =>
      refine ⟨reports ++ [r], List.forall_mem_append.mpr ⟨hfinal, ?_⟩, ?_⟩
      · exact List.forall_mem_singleton.mpr (reports_of_report? hreport).allows
      · rw [Option.elim_some, hrun, Tracker.run_concat]

/-- A transcript tells the tracker a number of reports, and the groups are what comes of them. -/
theorem RowBuilder.exists_run_tracker (session : String) (options : Options) (items : List Item) :
    ∃ reports, (items.foldl step (.start session options)).tracker = Tracker.run reports := by
  obtain ⟨reports, -, hrun⟩ := exists_run_tracker_final session options items
  exact ⟨reports, hrun⟩

/-- No two groups have the same identifier. -/
def RowSet.BearersApart (s : RowSet) : Prop :=
  ∀ c c' g g' id, s.groups.get? c = some g → s.groups.get? c' = some g' →
    g.delegation = some id → g'.delegation = some id → c = c'

/-- Groups share an identifier only if the transcript asked for it again while a request for it was
waiting. -/
theorem RowSet.bearersApart_ofTranscript (session : String) (options : Options)
    (items : List Item) :
    ∃ reports, ((∀ call, ((ofTranscript session options items).groups.get? call).map
        Group.toDelegation = (Tracker.run reports).groups.get? call) ∧
      ((∀ id, ¬ Tracker.AskedAgain reports id) →
        (ofTranscript session options items).BearersApart)) := by
  obtain ⟨reports, hrun⟩ := RowBuilder.exists_run_tracker session options items
  have hgroups : ∀ call, ((ofTranscript session options items).groups.get? call).map
      Group.toDelegation = (Tracker.run reports).groups.get? call := by
    intro call
    rw [ofTranscript, RowBuilder.get?_groups_finish, hrun, Option.map_map]
    exact Option.map_id'
  refine ⟨reports, hgroups, fun h c c' g g' id hg hg' hid hid' ↦ ?_⟩
  refine Tracker.eq_of_not_askedAgain (h id) ⟨g.toDelegation, ?_, hid⟩ ⟨g'.toDelegation, ?_, hid'⟩
  · rw [← hgroups, hg, Option.map_some]
  · rw [← hgroups, hg', Option.map_some]

/-- Two requests for one identifier, and two calls that delegate to their target. -/
def askedTwice : List Event :=
  [⟨1, "s1", some "main", some 1000, .delegationRequested "d1" (some "worker") none⟩,
   ⟨2, "s1", some "main", some 2000, .delegationRequested "d1" (some "worker") none⟩,
   ⟨3, "s1", some "main", some 3000,
      .toolStart "tc1" "delegate" (.object [("agent_id", .string "worker")])⟩,
   ⟨4, "s1", some "main", some 4000,
      .toolStart "tc2" "delegate" (.object [("agent_id", .string "worker")])⟩]

/-- Both calls get the identifier. -/
theorem RowSet.not_bearersApart_askedTwice :
    ¬ (ofEvents "s1" askedTwice default).BearersApart := by
  have htimeline : Timeline.ofEvents "s1" askedTwice default =
      askedTwice.map fun e ↦ ⟨e, "main", e.time.getD 0⟩ := by
    rw [Timeline.ofEvents, Timeline.admitted_eq_self (by decide) (by decide)]
    rfl
  rw [ofEvents, htimeline]
  generalize hset : ofTimeline _ _ _ = set
  have hfirst : (set.groups.get? "tc1").map (·.delegation) = some (some "d1") := by
    rw [← hset]
    rfl
  have hsecond : (set.groups.get? "tc2").map (·.delegation) = some (some "d1") := by
    rw [← hset]
    rfl
  obtain ⟨g, hg, hid⟩ := Option.map_eq_some_iff.mp hfirst
  obtain ⟨g', hg', hid'⟩ := Option.map_eq_some_iff.mp hsecond
  intro h
  exact absurd (h "tc1" "tc2" g g' "d1" hg hg' hid hid') (by decide)

end SessionReplay
