import Mathlib.Data.List.Perm.Subperm
import SessionReplay.Proofs.Firsts
import SessionReplay.Proofs.Tree.Visits

/-!
# Walking through a tree

`RowSet.tree` hands every call a list of the sessions that may still be entered. With one set for
all calls there is less to hand around: the sessions on the path, where a session is added when it
is entered and taken out when it is left. `Walk` makes a tree this way, one step at a time, with the
open calls in view. It ends whatever the forks are, with the same tree:
`SessionView.walkable_treeOfEvents`.

## Why the path can be relied on

The set is changed by every call, and it guards a call only as long as all others have cleaned up
after themselves. `Walk.Orderly` says that they have: at all times the path has the sessions of the
open calls and no others. Since no session has two open calls, and every session but the root is
named in an event, this also bounds how deep calls are nested.

## Why a walk ends

What gets smaller with every call is the number of named sessions that are not on the path. It is
the measure of `RowSet.tree`, since a list of what may be entered and a set of what may not say the
same: `Visit.enter_onPath`.
-/

open Relation

namespace SessionReplay

/-- A session that was entered and has not been left. -/
structure Call where
  session : String
  /-- The children still to be looked at, with repetitions. -/
  waiting : List String
  /-- The children that were walked through, with their trees. -/
  done : List (String × RowSet)

/-- A walk through a tree. -/
inductive Walk
  /-- There are the sessions on the path, the innermost call, and the calls around it. -/
  | running (path : Names) (call : Call) (callers : List Call)
  | finished (path : Names) (result : RowSet)

namespace Walk

/-- The children of a session's delegations, one for each delegation that has one. -/
def forked (events : List Event) (options : Options) (session : String) : List String :=
  (RowSet.ofEvents session events options).groups.values.filterMap fun g ↦ g.child

/-- A session is entered. -/
def enter (events : List Event) (options : Options) (session : String) (path : Names)
    (callers : List Call) : Walk :=
  .running (path.insert session ()) ⟨session, forked events options session, []⟩ callers

/-- The tree of a session is handed to the call that entered the session. -/
def handUp (path : Names) (session : String) (result : RowSet) : List Call → Walk
  | [] => .finished path result
  | caller :: callers =>
    .running path { caller with done := caller.done ++ [(session, result)] } callers

/-- One step: a child is entered, unless it is on the path or has been walked through, and a session
without more children is left. -/
def step (events : List Event) (options : Options) : Walk → Walk
  | .running path ⟨session, child :: rest, done⟩ callers =>
    if path.contains child || (done.map Prod.fst).contains child then
      .running path ⟨session, rest, done⟩ callers
    else enter events options child path (⟨session, rest, done⟩ :: callers)
  | .running path ⟨session, [], done⟩ callers =>
    handUp (path.erase session) session
      ((RowSet.ofEvents session events options).graft done) callers
  | .finished path result => .finished path result

/-- The walk through the tree of a session. -/
def start (events : List Event) (options : Options) (session : String) : Walk :=
  enter events options session .empty []

/-- Steps lead from the first walk to the second. -/
def LeadsTo (events : List Event) (options : Options) : Walk → Walk → Prop :=
  ReflTransGen fun w w' ↦ w.step events options = w'

/-- The sessions on the path. -/
def path : Walk → Names
  | .running path _ _ => path
  | .finished path _ => path

/-- The open calls, the innermost one first. -/
def calls : Walk → List Call
  | .running _ call callers => call :: callers
  | .finished _ _ => []

variable {events : List Event} {options : Options} {root session child : String} {path : Names}
  {call call' : Call} {callers : List Call} {w : Walk}

theorem mem_forked_iff :
    child ∈ forked events options session ↔ Forks events options session child := by
  rw [← mem_children_iff, RowSet.children, List.mem_eraseDups]
  rfl

/-! ## The path -/

/-- What holds of a walk at all times: the path has the sessions of the open calls, no session has
two of these, and all but the root are named in an event. -/
structure Orderly (events : List Event) (root : String) (path : Names) (calls : List Call) :
    Prop where
  nodup_sessions : (calls.map Call.session).Nodup
  contains_path_iff : ∀ s, path.contains s = true ↔ s ∈ calls.map Call.session
  session_named : ∀ c ∈ calls, c.session = root ∨ c.session ∈ forkedSessions events
  waiting_named : ∀ c ∈ calls, ∀ child ∈ c.waiting, child ∈ forkedSessions events

theorem orderly_nil : Orderly events root .empty [] where
  nodup_sessions := List.nodup_nil
  contains_path_iff _ := iff_of_false Bool.false_ne_true List.not_mem_nil
  session_named _ h := by cases h
  waiting_named _ h := by cases h

/-- A session is entered that is not on the path. -/
theorem Orderly.push (h : Orderly events root path callers)
    (hnew : path.contains session = false)
    (hsession : session = root ∨ session ∈ forkedSessions events) :
    Orderly events root (path.insert session ())
      (⟨session, forked events options session, []⟩ :: callers) where
  nodup_sessions := by
    refine List.nodup_cons.mpr ⟨fun hmem ↦ ?_, h.nodup_sessions⟩
    exact Bool.false_ne_true (hnew.symm.trans ((h.contains_path_iff session).mpr hmem))
  contains_path_iff s := by
    rw [Table.contains_insert_iff, h.contains_path_iff, List.map_cons, List.mem_cons]
  session_named := List.forall_mem_cons.mpr ⟨hsession, h.session_named⟩
  waiting_named := List.forall_mem_cons.mpr
    ⟨fun _ hchild ↦ (mem_forked_iff.mp hchild).mem_forkedSessions, h.waiting_named⟩

/-- The innermost session is left. -/
theorem Orderly.pop (h : Orderly events root path (call :: callers)) :
    Orderly events root (path.erase call.session) callers where
  nodup_sessions := (List.nodup_cons.mp h.nodup_sessions).2
  contains_path_iff s := by
    obtain ⟨hnew, -⟩ := List.nodup_cons.mp h.nodup_sessions
    by_cases hs : s = call.session
    · rw [hs, Table.contains_erase_self]
      exact iff_of_false Bool.false_ne_true hnew
    · rw [Table.contains_erase_of_ne _ hs, h.contains_path_iff, List.map_cons, List.mem_cons,
        or_iff_right hs]
  session_named := (List.forall_mem_cons.mp h.session_named).2
  waiting_named := (List.forall_mem_cons.mp h.waiting_named).2

/-- The innermost call has looked at a child, or got the tree of one. -/
theorem Orderly.replace (h : Orderly events root path (call :: callers))
    (hsession : call'.session = call.session) (hwaiting : ∀ c ∈ call'.waiting, c ∈ call.waiting) :
    Orderly events root path (call' :: callers) := by
  have hsessions : (call' :: callers).map Call.session = (call :: callers).map Call.session := by
    rw [List.map_cons, List.map_cons, hsession]
  obtain ⟨hnamed, hcallers⟩ := List.forall_mem_cons.mp h.session_named
  obtain ⟨hchildren, hwaiting'⟩ := List.forall_mem_cons.mp h.waiting_named
  exact ⟨hsessions ▸ h.nodup_sessions, hsessions ▸ h.contains_path_iff,
    List.forall_mem_cons.mpr ⟨hsession ▸ hnamed, hcallers⟩,
    List.forall_mem_cons.mpr ⟨fun c hc ↦ hchildren c (hwaiting c hc), hwaiting'⟩⟩

theorem Orderly.handUp (h : Orderly events root path callers) (session : String)
    (result : RowSet) : Orderly events root (handUp path session result callers).path
      (handUp path session result callers).calls := by
  cases callers with
  | nil => exact h
  | cons caller callers => exact h.replace rfl fun _ hc ↦ hc

/-- A child that is not passed over is not on the path. -/
theorem off_path_of_not_guard {known : List String}
    (h : ¬ (path.contains child || known.contains child) = true) : path.contains child = false := by
  rw [Bool.or_eq_true, not_or] at h
  exact Bool.eq_false_iff.mpr h.1

/-- **One step.** -/
theorem Orderly.step (h : Orderly events root w.path w.calls) :
    Orderly events root (w.step events options).path (w.step events options).calls := by
  cases w with
  | finished path result => exact h
  | running path call callers =>
    obtain ⟨session, waiting, done⟩ := call
    cases waiting with
    | nil => exact h.pop.handUp session _
    | cons child rest =>
      have hrest : Orderly events root path (⟨session, rest, done⟩ :: callers) :=
        h.replace rfl fun _ hc ↦ List.mem_cons_of_mem child hc
      rw [Walk.step]
      split
      · exact hrest
      · next hguard =>
        have hchild := h.waiting_named _ List.mem_cons_self child List.mem_cons_self
        exact hrest.push (off_path_of_not_guard hguard) (Or.inr hchild)

/-- **Any number of steps.** -/
theorem orderly_of_leadsTo (h : LeadsTo events options (start events options root) w) :
    Orderly events root w.path w.calls := by
  induction h with
  | refl => exact orderly_nil.push rfl (Or.inl rfl)
  | tail _ hstep ih => exact hstep ▸ ih.step

/-- Calls are not nested deeper than there are names for children, and one more for the root. -/
theorem Orderly.length_calls_le {calls : List Call} (h : Orderly events root path calls) :
    calls.length ≤ 1 + (forkedSessions events).eraseDups.length := by
  have hsub : calls.map Call.session ⊆ root :: (forkedSessions events).eraseDups := by
    intro s hs
    obtain ⟨c, hc, rfl⟩ := List.mem_map.mp hs
    rcases h.session_named c hc with hroot | hnamed
    · exact hroot ▸ List.mem_cons_self
    · exact List.mem_cons_of_mem _ (List.mem_eraseDups.mpr hnamed)
  have hlength := (List.subperm_of_subset h.nodup_sessions hsub).length_le
  rwa [List.length_map, List.length_cons, Nat.add_comm] at hlength

/-! ## Looking at children -/

/-- The children that a call enters of those that wait, given the path and the children that were
walked through. -/
def fresh (path : Names) : List String → List String → List String
  | _, [] => []
  | known, child :: rest =>
    if path.contains child || known.contains child then fresh path known rest
    else child :: fresh path (known ++ [child]) rest

private theorem fresh_eq (path : Names) (known waiting : List String) :
    fresh path known waiting
      = (waiting.filter fun c ↦ !(path.contains c || known.contains c)).eraseDups := by
  induction waiting generalizing known with
  | nil => rfl
  | cons child rest ih =>
    rw [fresh, List.filter_cons]
    by_cases hguard : (path.contains child || known.contains child) = true
    · rw [if_pos hguard, hguard, ih]
      rfl
    · rw [if_neg hguard, ih, Bool.eq_false_iff.mpr hguard, Bool.not_false, if_pos rfl,
        List.eraseDups_cons, List.filter_filter]
      congr 2
      refine List.filter_congr fun c _ ↦ ?_
      rw [List.contains_append, List.contains_cons, List.contains_nil, Bool.or_false,
        ← Bool.or_assoc, Bool.not_or, Bool.and_comm]

/-- A call looks at its children one by one. If every child that it enters comes back, the call ends
up with the trees of the children it enters. -/
theorem leadsTo_looked {trees : String → RowSet} (session : String) (waiting : List String)
    (h : ∀ child ∈ waiting, path.contains child = false → ∀ callers, LeadsTo events options
      (enter events options child path callers) (handUp path child (trees child) callers))
    (done : List (String × RowSet)) (callers : List Call) :
    LeadsTo events options (.running path ⟨session, waiting, done⟩ callers)
      (.running path ⟨session, [], done ++ (fresh path (done.map Prod.fst) waiting).map
        fun child ↦ (child, trees child)⟩ callers) := by
  induction waiting generalizing done with
  | nil =>
    rw [fresh, List.map_nil, List.append_nil]
    exact .refl
  | cons child rest ih =>
    obtain ⟨hchild, hrest⟩ := List.forall_mem_cons.mp h
    rw [fresh]
    by_cases hguard : (path.contains child || (done.map Prod.fst).contains child) = true
    · rw [if_pos hguard]
      exact .head (if_pos hguard) (ih hrest done)
    · -- into the child and back, then on with the rest of the children
      have hback := hchild (off_path_of_not_guard hguard) (⟨session, rest, done⟩ :: callers)
      have hlater := ih hrest (done ++ [(child, trees child)])
      rw [List.map_append, List.map_singleton, List.append_assoc] at hlater
      rw [if_neg hguard, List.map_cons]
      exact .head (if_neg hguard) (hback.trans hlater)

end Walk

/-! ## Paths and visits -/

namespace Visit

variable {events : List Event} {options : Options}

/-- The visit to a session with a path behind it: any session may be entered below that is neither
on the path nor the session itself. -/
def onPath (events : List Event) (path : Names) (session : String) : Visit :=
  ⟨session, (forkedSessions events).filter fun s ↦ !(path.insert session ()).contains s⟩

private theorem root_eq_onPath (events : List Event) (session : String) :
    root events session = onPath events .empty session := by
  refine congrArg (Visit.mk session) (List.filter_congr fun s _ ↦ ?_)
  rw [Table.contains_insert]
  exact congrArg not (Bool.or_false _).symm

theorem enter_onPath (events : List Event) (path : Names) (session child : String) :
    (onPath events path session).enter child
      = onPath events (path.insert session ()) child := by
  refine congrArg (Visit.mk child) ?_
  rw [onPath, otherSessions, List.filter_filter]
  refine List.filter_congr fun s _ ↦ ?_
  rw [Table.contains_insert (path.insert session ()), Bool.not_or]
  rfl

/-- With the same path, a call enters the children that a visit goes on to. -/
theorem entered_onPath (events : List Event) (options : Options) (path : Names)
    (session : String) : (onPath events path session).entered events options
      = Walk.fresh (path.insert session ()) [] (Walk.forked events options session) := by
  rw [entered, RowSet.children, ← eraseDups_filter, Walk.fresh_eq]
  refine congrArg List.eraseDups (List.filter_congr fun c hc ↦ ?_)
  have hnamed := (Walk.mem_forked_iff.mp hc).mem_forkedSessions
  simp [onPath, hnamed]

end Visit

namespace Walk

variable {events : List Event} {options : Options}

/-- **Return.** A session that is entered off the path is left again, with its tree, and then the
path is what it was. -/
theorem leadsTo_handUp {path : Names} {session : String} (hnew : path.contains session = false)
    (callers : List Call) :
    LeadsTo events options (enter events options session path callers)
      (handUp path session ((Visit.onPath events path session).tree events options) callers) := by
  -- the induction is on visits; which path belongs to a visit is left open, since a session is
  -- entered with more on the path every time
  generalize hv : Visit.onPath events path session = v
  induction v using Visit.of_goesOnTo events options generalizing path session callers with
  | h v ih =>
    subst hv
    have hback : ∀ child ∈ forked events options session,
        (path.insert session ()).contains child = false → ∀ callers, LeadsTo events options
          (enter events options child (path.insert session ()) callers)
          (handUp (path.insert session ()) child
            (((Visit.onPath events path session).enter child).tree events options) callers) := by
      intro child hchild hoff callers
      have hforks := mem_forked_iff.mp hchild
      refine ih child (Visit.mem_entered_iff.mpr ⟨hforks, ?_⟩) hoff callers
        (Visit.enter_onPath events path session child).symm
      exact List.mem_filter.mpr ⟨hforks.mem_forkedSessions, by rw [hoff, Bool.not_false]⟩
    -- the children come back by induction, and what is left to do is to leave the session
    have hlooked := leadsTo_looked session (forked events options session) hback [] callers
    rw [List.nil_append, List.map_nil, ← Visit.entered_onPath] at hlooked
    refine hlooked.tail ?_
    rw [step, Table.erase_insert (Table.contains_eq_false_iff.mp hnew), Visit.tree_eq]
    rfl

/-- If a step opens a call, it enters a session that is not on the path. -/
theorem exists_enter_of_length_lt {w : Walk}
    (h : w.calls.length < (w.step events options).calls.length) :
    ∃ session callers, w.step events options = enter events options session w.path callers ∧
      w.path.contains session = false := by
  cases w with
  | finished path result => exact absurd h (Nat.lt_irrefl _)
  | running path call callers =>
    obtain ⟨session, waiting, done⟩ := call
    cases waiting with
    | nil =>
      refine absurd h (Nat.not_lt.mpr ?_)
      cases callers with
      | nil => exact Nat.zero_le _
      | cons caller callers => exact Nat.le_succ _
    | cons child rest =>
      rw [step] at h ⊢
      split at h
      · exact absurd h (Nat.lt_irrefl _)
      · next hguard =>
        rw [if_neg hguard]
        exact ⟨child, _, rfl, off_path_of_not_guard hguard⟩

end Walk

namespace SessionView

/-- The view of a tree can be made by walking: with one set for the path, which all calls change,
and no more open calls than there are names for children and one more. -/
structure Walkable (session : String) (events : List Event) (options : Options)
    (view : SessionView) : Prop where
  /-- The walk ends with the view. -/
  ends : ∃ result, Walk.LeadsTo events options (Walk.start events options session)
      (.finished .empty result) ∧
    view = ofParts session (Timeline.ofEvents session events options) result none
  /-- A session is entered only while it is not on the path. -/
  enters_off_path : ∀ w, Walk.LeadsTo events options (Walk.start events options session) w →
    w.calls.length < (w.step events options).calls.length →
    ∃ child callers, w.step events options = Walk.enter events options child w.path callers ∧
      w.path.contains child = false
  /-- The path has the sessions of the open calls. -/
  contains_path_iff : ∀ w, Walk.LeadsTo events options (Walk.start events options session) w →
    ∀ s, w.path.contains s = true ↔ s ∈ w.calls.map Call.session
  /-- No session has two open calls. -/
  nodup_sessions : ∀ w, Walk.LeadsTo events options (Walk.start events options session) w →
    (w.calls.map Call.session).Nodup
  /-- A session that is entered is left again, and then the path is what it was. -/
  returns : ∀ path child callers, path.contains child = false → ∃ result,
    Walk.LeadsTo events options (Walk.enter events options child path callers)
      (Walk.handUp path child result callers)
  length_calls_le : ∀ w, Walk.LeadsTo events options (Walk.start events options session) w →
    w.calls.length ≤ 1 + (forkedSessions events).eraseDups.length

/-- **Termination.** Whatever the forks, the view of a tree is made by a walk that ends. -/
theorem walkable_treeOfEvents (session : String) (events : List Event) (options : Options) :
    Walkable session events options (treeOfEvents session events options) where
  ends := by
    have hends : Walk.LeadsTo events options (Walk.start events options session)
        (.finished .empty ((Visit.onPath events .empty session).tree events options)) :=
      Walk.leadsTo_handUp rfl []
    rw [← Visit.root_eq_onPath] at hends
    exact ⟨(Visit.root events session).tree events options, hends, rfl⟩
  enters_off_path _ _ h := Walk.exists_enter_of_length_lt h
  contains_path_iff _ hw := (Walk.orderly_of_leadsTo hw).contains_path_iff
  nodup_sessions _ hw := (Walk.orderly_of_leadsTo hw).nodup_sessions
  returns _ _ callers hnew := ⟨_, Walk.leadsTo_handUp hnew callers⟩
  length_calls_le _ hw := (Walk.orderly_of_leadsTo hw).length_calls_le

end SessionView

end SessionReplay
