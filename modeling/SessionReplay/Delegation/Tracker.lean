import SessionReplay.Delegation.Basic
import SessionReplay.Table
import SessionReplay.Text.Basic

/-!
# Keeping track of delegations

A delegation shows in two events that may arrive in either order: the tool call that delegates, and
the request, which gives the delegation its identifier. Calls and requests for one target are paired
first come, first served; whichever comes first waits in the queue of its target. A call or request
without a target waits in a queue of its own, on which every target may draw when its own queue is
empty. A fork or an ending that names an identifier not yet paired is kept until it is.

While a paired delegation is in progress it routes the rows of its target into its group. Each
delegating agent also has a stack of its open delegations; ending one leaves the others open.

## One step function

`Tracker.step` takes one report and `Tracker.run` any number of them, so a fact about every run is
an induction over a list.
-/

namespace SessionReplay

/-- The request of a delegation. -/
structure Request where
  delegation : String
  target : Option String
  objective : Option String
deriving DecidableEq, Repr

/-- A tool call that delegates. -/
structure Opening where
  call : String
  agent : String
  target : Option String
  objective : Option String
  /-- The depth of the row of the call. -/
  depth : Nat
  time : Instant
deriving DecidableEq, Repr

/-- A route of an agent's rows into a group. -/
structure Route where
  target : String
  group : String
  /-- Routes that were made later have a greater rank. -/
  rank : Nat
deriving DecidableEq, Repr

/-- All delegations of a session, and what waits to be paired. -/
structure Tracker where
  /-- The delegations, by their calls. -/
  groups : Table Delegation
  /-- The open delegations of each delegating agent, the innermost first. -/
  openCalls : Table (List String)
  /-- The calls that wait for a request, by target. -/
  waitingCalls : Table (List String)
  /-- The requests that wait for a call, by target. -/
  waitingRequests : Table (List Request)
  /-- The calls of paired delegations, by identifier. -/
  paired : Table String
  /-- The routes of paired delegations in progress, by identifier. -/
  routes : Table Route
  /-- The child sessions of identifiers that are not paired yet. -/
  keptForks : Table String
  /-- The endings of identifiers that are not paired yet. -/
  keptEndings : Table Ending
  /-- How many routes were ever made. -/
  ranks : Nat

/-- The queue of a target; those without a target share the one without a name. -/
def queueKey (target : Option String) : String := (target.bind Text.nonBlank?).getD ""

/-- The first of a queue, and the queues without it. -/
def takeFirst? {α : Type} (queues : Table (List α)) (key : String) :
    Option (α × Table (List α)) :=
  match queues.get? key with
  | some (x :: rest) => some (x, queues.insert key rest)
  | _ => none

/-- The first of a queue, or of the queue without a name when it is empty. -/
def takeFor? {α : Type} (queues : Table (List α)) (key : String) : Option (α × Table (List α)) :=
  (takeFirst? queues key).or (takeFirst? queues "")

/-- Adds to the end of a queue. -/
def putLast {α : Type} (queues : Table (List α)) (key : String) (x : α) : Table (List α) :=
  queues.insert key ((queues.get? key).getD [] ++ [x])

/-- The route with the greatest rank. -/
def Route.latest? (routes : List Route) : Option Route :=
  routes.foldl (fun best r ↦
    match best with
    | some b => if b.rank < r.rank then some r else some b
    | none => some r) none

/-- A delegation paired with a request. What the request does not say stays as the call has it. -/
def Delegation.pair (d : Delegation) (r : Request) : Delegation :=
  { d with
    delegation := some r.delegation
    target := r.target.or d.target
    objective := r.objective.or d.objective }

/-- The delegation of a call that was just made. -/
def Opening.delegation (o : Opening) : Delegation where
  call := o.call
  agent := o.agent
  delegation := none
  target := o.target
  objective := o.objective
  child := none
  status := .inProgress
  start := o.time
  stop := none
  outcome := none
  depth := o.depth

namespace Tracker

/-- The tracker before any report. -/
def empty : Tracker := ⟨.empty, .empty, .empty, .empty, .empty, .empty, .empty, .empty, 0⟩

instance : Inhabited Tracker := ⟨empty⟩

/-! ## Questions -/

/-- The open delegations of an agent, the innermost first. -/
def stack (t : Tracker) (agent : String) : List String := (t.openCalls.get? agent).getD []

/-- The innermost open delegation of an agent. -/
def innermost? (t : Tracker) (agent : String) : Option Delegation :=
  (t.stack agent).head?.bind t.groups.get?

/-- How many delegations an agent has open. -/
def openDepth (t : Tracker) (agent : String) : Nat := (t.stack agent).length

/-- The delegation into whose group the rows of an agent go. -/
def route? (t : Tracker) (agent : String) : Option Delegation :=
  ((Route.latest? (t.routes.values.filter fun r ↦ r.target == agent)).bind
    fun r ↦ t.groups.get? r.group).filter Delegation.isInProgress

/-! ## Reports -/

/-- Ends the delegation of a call: it leaves its agent's stack and its route ends. -/
def finishGroup (t : Tracker) (group : String) (e : Ending) : Tracker :=
  match t.groups.get? group with
  | none => t
  | some d =>
    { t with
      groups := t.groups.insert group (d.finish e)
      openCalls := t.openCalls.modify d.agent fun open_ ↦ open_.filter (· != group)
      routes := match d.delegation with
        | some id => t.routes.erase id
        | none => t.routes }

/-- Gives the delegation of a call its child session. -/
def attachChild (t : Tracker) (group child : String) : Tracker :=
  { t with groups := t.groups.modify group fun d ↦ { d with child := some child } }

/-- Makes a route into the group of a paired delegation, if it is in progress and has a target. -/
def activate (t : Tracker) (id group : String) (d : Delegation) : Tracker :=
  match d.isInProgress, d.target with
  | true, some target =>
    { t with routes := t.routes.insert id ⟨target, group, t.ranks + 1⟩, ranks := t.ranks + 1 }
  | _, _ => t

/-- Attaches the child session that was kept for an identifier. -/
def releaseFork (t : Tracker) (id group : String) : Tracker :=
  match t.keptForks.get? id with
  | some child => { t with keptForks := t.keptForks.erase id }.attachChild group child
  | none => t

/-- Applies the ending that was kept for an identifier. -/
def releaseEnding (t : Tracker) (id group : String) : Tracker :=
  match t.keptEndings.get? id with
  | some e => { t with keptEndings := t.keptEndings.erase id }.finishGroup group e
  | none => t

/-- Pairs a call with a request. -/
def pair (t : Tracker) (group : String) (r : Request) : Tracker :=
  match t.groups.get? group with
  | none => t
  | some d =>
    let d := d.pair r
    let t := { t with
      groups := t.groups.insert group d
      paired := t.paired.insert r.delegation group }
    ((t.activate r.delegation group d).releaseFork r.delegation group).releaseEnding
      r.delegation group

/-- A tool call that delegates. A call that was made before changes nothing. -/
def opened (t : Tracker) (o : Opening) : Tracker :=
  if t.groups.contains o.call then t else
  let t := { t with
    groups := t.groups.insert o.call o.delegation
    openCalls := t.openCalls.insert o.agent (o.call :: t.stack o.agent) }
  match takeFor? t.waitingRequests (queueKey o.target) with
  | some (r, queues) => { t with waitingRequests := queues }.pair o.call r
  | none => { t with waitingCalls := putLast t.waitingCalls (queueKey o.target) o.call }

/-- A request. One for an identifier that is paired changes nothing. -/
def requested (t : Tracker) (r : Request) : Tracker :=
  if t.paired.contains r.delegation then t else
  match takeFor? t.waitingCalls (queueKey r.target) with
  | some (call, queues) => { t with waitingCalls := queues }.pair call r
  | none => { t with waitingRequests := putLast t.waitingRequests (queueKey r.target) r }

/-- A fork of a child session for an identifier. -/
def forked (t : Tracker) (id child : String) : Tracker :=
  match t.paired.get? id with
  | some group => t.attachChild group child
  | none => { t with keptForks := t.keptForks.insert id child }

/-- An ending for an identifier. -/
def finished (t : Tracker) (id : String) (e : Ending) : Tracker :=
  match t.paired.get? id with
  | some group => t.finishGroup group e
  | none => { t with keptEndings := t.keptEndings.insert id e }

/-! ## Runs -/

/-- What a tracker may be told. -/
inductive Report
  | opened (o : Opening)
  | requested (r : Request)
  | forked (id child : String)
  | finished (id : String) (e : Ending)
  | finishGroup (group : String) (e : Ending)
deriving DecidableEq, Repr

/-- One report. -/
def step (t : Tracker) : Report → Tracker
  | .opened o => t.opened o
  | .requested r => t.requested r
  | .forked id child => t.forked id child
  | .finished id e => t.finished id e
  | .finishGroup group e => t.finishGroup group e

/-- Any number of reports, from the start. -/
def run (reports : List Report) : Tracker := reports.foldl step empty

end Tracker

end SessionReplay
