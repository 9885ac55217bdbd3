import SessionReplay.Proofs.Row.Growth
import SessionReplay.Proofs.Timeline
import SessionReplay.View

/-!
# Views grow

Who watches a session builds its view again whenever events come in. As long as they come in the
order of their numbers, nothing that was shown moves, disappears or turns into something else:
`SessionView.extends_of_above`.

The view is a composition, and each part grows because the part before it does: the timeline
(`Timeline.exists_ofEvents_append_of_above`), the transcript (`Transcript.grows_ofTimeline`) and the
rows (`RowSet.extends_ofTranscript`).
-/

namespace SessionReplay

namespace SessionView

/-- The second view is a later one. Its rows start with those of the first, the same but for results
of tool calls and what live messages say. Every delegation is still there, and what identifies it
and how it ended stay once they are known. -/
structure Extends (v v' : SessionView) : Prop where
  session_eq : v'.session = v.session
  rows : Grows Row.Evolves v.rows v'.rows
  groups : v.groups.Keeps (fun g g' ↦ g.toDelegation.Evolves g'.toDelegation) v'.groups

/-- **Stability.** Events with numbers above those of all others of the session extend its view. -/
theorem extends_of_above {session : String} {events later : List Event} (options : Options)
    (activity activity' : Option Activity)
    (habove : ∀ x ∈ events, ∀ y ∈ later, x.session = session → y.session = session →
      x.sequence < y.sequence) :
    (ofEvents session events activity options).Extends
      (ofEvents session (events ++ later) activity' options) := by
  obtain ⟨entries, hentries⟩ := Timeline.exists_ofEvents_append_of_above options habove
  have hset := RowSet.extends_ofTranscript session options
    (Transcript.grows_ofTimeline (Timeline.ofEvents session events options) entries)
  rw [← hentries] at hset
  exact ⟨rfl, hset.rows, hset.groups⟩

/-- A live message and a tool call that delegates. -/
def early : List Event :=
  [⟨1, "root", some "main", some 10, .contentDelta none "I will "⟩,
   ⟨2, "root", some "main", some 20, .toolStart "call" "delegate" .null⟩]

/-- The stored form of the message. -/
def late : Event := ⟨3, "root", some "main", some 30, .assistantMessage none "I will ask." none⟩

theorem extends_early :
    (∀ x ∈ early, ∀ y ∈ [late], x.session = "root" → y.session = "root" →
      x.sequence < y.sequence) ∧
    (ofEvents "root" early none default).Extends
      (ofEvents "root" (early ++ [late]) none default) := by
  have habove : ∀ x ∈ early, ∀ y ∈ [late], x.session = "root" → y.session = "root" →
      x.sequence < y.sequence := by
    simp [early, late]
  exact ⟨habove, extends_of_above default none none habove⟩

end SessionView

end SessionReplay
