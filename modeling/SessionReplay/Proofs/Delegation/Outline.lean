import SessionReplay.Proofs.Delegation.Reach
import SessionReplay.Proofs.Transcript.Spelling

/-!
# What a tracker knows without targets

How a request spells its target decides where the target's rows go, and nothing else. Everything
that a tracker keeps besides, its *outline*, is the same for every spelling: which calls and
requests are paired, what is open, what waits and in which queue, which child sessions and endings
there are. `Tracker.outline_step_congr` says that the outline after a report is determined by the
outline before it and by the report with its target clean.

The outline has no depths either. The depth of a call is where its row stands, and this may depend
on routes.

## Why the queues do not give a spelling away

Calls and requests are queued under clean targets, and a target is read once more only when a
pairing makes a route. So a waiting request can forget its target, `Request.bare`, and
`Tracker.pair` goes the same way without it: `Tracker.outline_pair`.
-/

namespace SessionReplay

/-! ## Queues -/

section Queues

variable {α β : Type} {f : α → β} {queues : Table (List α)} {key : String}

private theorem takeFirst?_map (f : α → β) (queues : Table (List α)) (key : String) :
    takeFirst? (queues.map (List.map f)) key
      = (takeFirst? queues key).map fun p ↦ (f p.1, p.2.map (List.map f)) := by
  rw [takeFirst?, takeFirst?, Table.get?_map]
  cases queues.get? key with
  | none => rfl
  | some queue =>
    cases queue with
    | nil => rfl
    | cons x rest =>
      exact congrArg (fun q ↦ some (f x, q)) (Table.map_insert _ queues key rest).symm

private theorem takeFor?_map (f : α → β) (queues : Table (List α)) (key : String) :
    takeFor? (queues.map (List.map f)) key
      = (takeFor? queues key).map fun p ↦ (f p.1, p.2.map (List.map f)) := by
  rw [takeFor?, takeFor?, takeFirst?_map, takeFirst?_map, Option.map_or]

private theorem putLast_map (f : α → β) (queues : Table (List α)) (key : String) (x : α) :
    putLast (queues.map (List.map f)) key (f x) = (putLast queues key x).map (List.map f) := by
  rw [putLast, putLast, Table.map_insert, Table.get?_map, List.map_append]
  cases queues.get? key <;> rfl

end Queues

/-! ## Outlines -/

/-- A delegation without its target and its depth. -/
def Delegation.bare (d : Delegation) : Delegation := { d with target := none, depth := 0 }

/-- A request without its target. -/
def Request.bare (r : Request) : Request := { r with target := none }

/-- A call without its target and its depth. -/
def Opening.bare (o : Opening) : Opening := { o with target := none, depth := 0 }

namespace Tracker

/-- A tracker without targets, without depths and without routes. -/
def outline (t : Tracker) : Tracker :=
  { t with
    groups := t.groups.map Delegation.bare
    waitingRequests := t.waitingRequests.map (List.map Request.bare)
    routes := .empty
    ranks := 0 }

/-- A report with the target of a request clean, and without the depth of a call. -/
def Report.outline : Report → Report
  | .opened o => .opened { o with depth := 0 }
  | .requested r => .requested { r with target := cleanTarget r.target }
  | r => r

variable {t u : Tracker} {call : String} {d : Delegation}

theorem get?_groups_outline (t : Tracker) (call : String) :
    t.outline.groups.get? call = (t.groups.get? call).map Delegation.bare :=
  Table.get?_map _ _ _

private theorem contains_groups_outline (t : Tracker) (call : String) :
    t.outline.groups.contains call = t.groups.contains call :=
  Table.contains_map _ _ _

theorem innermost?_outline (t : Tracker) (agent : String) :
    t.outline.innermost? agent = (t.innermost? agent).map Delegation.bare := by
  have hstack : t.outline.stack agent = t.stack agent := rfl
  rw [innermost?, innermost?, hstack]
  cases (t.stack agent).head? with
  | none => rfl
  | some call => exact t.get?_groups_outline call

private theorem bare_finish (d : Delegation) (e : Ending) :
    (d.finish e).bare = d.bare.finish e := by
  have hstatus : d.bare.status = d.status := rfl
  rw [Delegation.finish, Delegation.finish, hstatus]
  split <;> rfl

theorem outline_finishGroup (t : Tracker) (call : String) (e : Ending) :
    (t.finishGroup call e).outline = t.outline.finishGroup call e := by
  rw [finishGroup, finishGroup, get?_groups_outline]
  cases t.groups.get? call with
  | none => rfl
  | some d =>
    have hdelegation : d.bare.delegation = d.delegation := rfl
    dsimp only [Option.map_some, outline]
    rw [Table.map_insert, bare_finish, hdelegation]
    cases d.delegation <;> rfl

theorem outline_attachChild (t : Tracker) (call child : String) :
    (t.attachChild call child).outline = t.outline.attachChild call child := by
  have hmodify : (t.groups.modify call fun d ↦ { d with child := some child }).map Delegation.bare
      = (t.groups.map Delegation.bare).modify call fun d ↦ { d with child := some child } :=
    Table.map_modify (fun _ ↦ by rfl) t.groups call
  exact congrArg (fun groups ↦ { t.outline with groups }) hmodify

private theorem outline_attachAny (t : Tracker) (call : String) (child : Option String) :
    (t.attachAny call child).outline = t.outline.attachAny call child := by
  cases child with
  | none => rfl
  | some child => exact t.outline_attachChild call child

private theorem outline_finishAny (t : Tracker) (call : String) (e : Option Ending) :
    (t.finishAny call e).outline = t.outline.finishAny call e := by
  cases e with
  | none => rfl
  | some e => exact t.outline_finishGroup call e

/-- A route is no part of an outline. -/
theorem outline_activate (t : Tracker) (id call : String) (d : Delegation) :
    (t.activate id call d).outline = t.outline := by
  rw [activate]
  split <;> rfl

/-- Without a target there is no route. -/
theorem activate_of_target_eq_none (t : Tracker) (id call : String) (h : d.target = none) :
    t.activate id call d = t := by
  rw [activate, h]
  split
  · next htarget => cases htarget
  · rfl

private theorem outline_couple (t : Tracker) (call : String) (d : Delegation) (r : Request) :
    (t.couple call d r).outline = t.outline.couple call d.bare r.bare := by
  have htarget : (d.bare.pair r.bare).target = none := rfl
  rw [couple, outline_activate, couple, activate_of_target_eq_none _ _ _ htarget]
  exact congrArg (fun groups ↦ { t.outline with
    groups
    paired := t.paired.insert r.delegation call
    keptForks := t.keptForks.erase r.delegation
    keptEndings := t.keptEndings.erase r.delegation }) (Table.map_insert _ t.groups call (d.pair r))

/-- **A pairing** goes the same way without targets. -/
theorem outline_pair (t : Tracker) (call : String) (r : Request) :
    (t.pair call r).outline = t.outline.pair call r.bare := by
  have hget := t.get?_groups_outline call
  cases hd : t.groups.get? call with
  | none =>
    rw [hd, Option.map_none] at hget
    rw [pair, hd, pair, hget]
  | some d =>
    rw [hd, Option.map_some] at hget
    rw [pair_eq hd, pair_eq hget, outline_finishAny, outline_attachAny, outline_couple]
    rfl

private theorem outline_enter (t : Tracker) (o : Opening) :
    (t.enter o).outline = t.outline.enter o.bare := by
  dsimp only [enter, outline]
  rw [Table.map_insert]
  rfl

private theorem outline_opened (t : Tracker) (o : Opening) :
    (t.opened o).outline = if t.outline.groups.contains o.call then t.outline else
      match takeFor? t.outline.waitingRequests (queueKey o.target) with
      | some (r, queues) => { t.outline.enter o.bare with waitingRequests := queues }.pair o.call r
      | none => { t.outline.enter o.bare with
          waitingCalls := putLast t.outline.waitingCalls (queueKey o.target) o.call } := by
  have hrequests : t.outline.waitingRequests = t.waitingRequests.map (List.map Request.bare) := rfl
  rw [opened_eq, contains_groups_outline, hrequests, takeFor?_map, ← outline_enter]
  split
  · rfl
  · cases takeFor? t.waitingRequests (queueKey o.target) with
    | none => rfl
    | some taken => exact outline_pair _ o.call taken.1

private theorem outline_requested (t : Tracker) (r : Request) :
    (t.requested r).outline = if t.outline.paired.contains r.delegation then t.outline else
      match takeFor? t.outline.waitingCalls (queueKey r.target) with
      | some (call, queues) => { t.outline with waitingCalls := queues }.pair call r.bare
      | none => { t.outline with
          waitingRequests := putLast t.outline.waitingRequests (queueKey r.target) r.bare } := by
  have hpaired : t.outline.paired = t.paired := rfl
  have hcalls : t.outline.waitingCalls = t.waitingCalls := rfl
  rw [requested, hpaired, hcalls]
  split
  · rfl
  · cases takeFor? t.waitingCalls (queueKey r.target) with
    | none =>
      dsimp only [outline]
      rw [putLast_map]
    | some taken => exact outline_pair _ taken.1 r

private theorem outline_forked (t : Tracker) (id child : String) :
    (t.forked id child).outline = t.outline.forked id child := by
  have hpaired : t.outline.paired = t.paired := rfl
  rw [forked, forked, hpaired]
  cases t.paired.get? id with
  | none => rfl
  | some call => exact t.outline_attachChild call child

private theorem outline_finished (t : Tracker) (id : String) (e : Ending) :
    (t.finished id e).outline = t.outline.finished id e := by
  have hpaired : t.outline.paired = t.paired := rfl
  rw [finished, finished, hpaired]
  cases t.paired.get? id with
  | none => rfl
  | some call => exact t.outline_finishGroup call e

/-- **One report.** What it makes of an outline does not depend on how its target is spelled. -/
theorem outline_step_congr (h : t.outline = u.outline) {r r' : Report}
    (hr : r.outline = r'.outline) : (t.step r).outline = (u.step r').outline := by
  cases r with
  | opened o =>
    cases r' with
    | opened o' =>
      have ho : ({ o with depth := 0 } : Opening) = { o' with depth := 0 } := Report.opened.inj hr
      have hbare := congrArg Opening.bare ho
      change o.bare = o'.bare at hbare
      obtain ⟨hcall, -, htarget, -⟩ := Opening.mk.inj ho
      rw [step, step, outline_opened, outline_opened, h, hcall, htarget, hbare]
    | _ => cases hr
  | requested q =>
    cases r' with
    | requested q' =>
      have hq : ({ q with target := cleanTarget q.target } : Request)
          = { q' with target := cleanTarget q'.target } := Report.requested.inj hr
      have hbare := congrArg Request.bare hq
      change q.bare = q'.bare at hbare
      obtain ⟨hid, hclean, -⟩ := Request.mk.inj hq
      have hkey : queueKey q.target = queueKey q'.target := congrArg (·.getD "") hclean
      rw [step, step, outline_requested, outline_requested, h, hid, hkey, hbare]
    | _ => cases hr
  | forked id child =>
    cases r' with
    | forked id' child' =>
      cases hr
      rw [step, step, outline_forked, outline_forked, h]
    | _ => cases hr
  | finished id e =>
    cases r' with
    | finished id' e' =>
      cases hr
      rw [step, step, outline_finished, outline_finished, h]
    | _ => cases hr
  | finishGroup call e =>
    cases r' with
    | finishGroup call' e' =>
      cases hr
      rw [step, step, outline_finishGroup, outline_finishGroup, h]
    | _ => cases hr

end Tracker

end SessionReplay
