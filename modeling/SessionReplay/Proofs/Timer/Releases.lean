import SessionReplay.Proofs.Timer.Ticking

/-!
# What an agent waits for

A delegation is open from its request on until it is released, and what is open at the end of some
entries can be read off them: `Timeline.IsOpen`. A request may be made again and a release may come
for nothing; only the last word on a delegation counts.

An agent waits for what it has requested. A release says who reports it and not who is waiting, so
the replay keeps the agent of each request, and a release without a request is for the agent that
reports it. Where one agent does all of this, it waits for the open delegations and for no others:
`SessionTimers.Replay.contains_waitingFor_iff`.
-/

namespace SessionReplay

namespace Entry

/-- The delegation that an entry requests. -/
def requested? (e : Entry) : Option String := match e.payload with
  | .delegationRequested id _ _ => some id
  | _ => none

/-- The delegation that is over, as an entry says. -/
def released? (e : Entry) : Option String := match e.payload with
  | .delegationCompleted id _ => some id
  | .delegationFailed id _ => some id
  | _ => none

/-- Whether an entry is the end of a request that hands back. -/
def isHandBack (e : Entry) : Bool := match e.payload with
  | .requestEnd reason => handsBack reason
  | _ => false

/-- Whether an entry is an error. -/
def isError (e : Entry) : Bool := match e.payload with
  | .systemError _ => true
  | _ => false

end Entry

/-! ## Open delegations -/

namespace Timeline

/-- A delegation is requested and not released afterwards. -/
def IsOpen (id : String) (entries : List Entry) : Prop :=
  ∃ before e after, entries = before ++ e :: after ∧ e.requested? = some id ∧
    ∀ x ∈ after, x.released? ≠ some id

/-- Whether some delegation is requested and not released afterwards. -/
def isAnyOpen : List Entry → Bool
  | [] => false
  | e :: rest =>
    (e.requested?.any fun id ↦ rest.all fun x ↦ x.released? != some id) || isAnyOpen rest

variable {id : String} {entries : List Entry}

theorem isOpen_cons_iff (e : Entry) : IsOpen id (e :: entries) ↔
    (e.requested? = some id ∧ ∀ x ∈ entries, x.released? ≠ some id) ∨ IsOpen id entries := by
  constructor
  · rintro ⟨before, x, after, hsplit, hx⟩
    cases before with
    | nil =>
      obtain ⟨rfl, rfl⟩ := List.cons.inj hsplit
      exact Or.inl hx
    | cons y before => exact Or.inr ⟨before, x, after, (List.cons.inj hsplit).2, hx⟩
  · rintro (h | ⟨before, x, after, rfl, hx⟩)
    · exact ⟨[], e, entries, rfl, h⟩
    · exact ⟨e :: before, x, after, rfl, hx⟩

private theorem isAnyOpen_iff : isAnyOpen entries = true ↔ ∃ id, IsOpen id entries := by
  induction entries with
  | nil => simp [isAnyOpen, IsOpen]
  | cons e rest ih =>
    rw [isAnyOpen, Bool.or_eq_true, ih, Option.any_eq_true]
    simp only [isOpen_cons_iff, exists_or, List.all_eq_true, bne_iff_ne]

/-- **One more entry** opens what it requests and closes what it releases. -/
theorem isOpen_concat_iff (e : Entry) : IsOpen id (entries ++ [e]) ↔
    e.requested? = some id ∨ IsOpen id entries ∧ e.released? ≠ some id := by
  induction entries with
  | nil =>
    have hnil : ¬IsOpen id [] := by simp [IsOpen]
    rw [List.nil_append, isOpen_cons_iff]
    simp [hnil]
  | cons x rest ih =>
    rw [List.cons_append, isOpen_cons_iff, isOpen_cons_iff, ih, List.forall_mem_append,
      List.forall_mem_singleton]
    tauto

end Timeline

/-! ## Signals -/

namespace AgentTimer

private theorem waitingFor_work (t : AgentTimer) (now : Instant) :
    (t.work now).waitingFor = t.waitingFor := by
  rw [work]
  split <;> rfl

/-- **One signal.** An agent waits for what it delegates, and no longer for what is released. -/
theorem contains_heed (t : AgentTimer) (now : Instant) (s : Option Signal) (id : String) :
    (t.heed now s).waitingFor.contains id = true ↔
      s = some (.delegate id) ∨ t.waitingFor.contains id = true ∧ s ≠ some (.release id) := by
  match s with
  | some .work => simp [heed, waitingFor_work]
  | some .rest => simp [heed, rest]
  | some .handBack =>
    rw [heed, handBack]
    split <;> simp [rest]
  | some (.delegate j) =>
    rw [heed, delegate, Table.contains_insert_iff]
    simp [eq_comm (a := id)]
  | some (.release j) =>
    rw [heed, release]
    by_cases hj : id = j
    · subst hj
      split
      · simp [waitingFor_work, Table.contains_erase_self]
      · next hnot => simp [hnot]
    · split
      · simp [waitingFor_work, Table.contains_erase_of_ne _ hj, Ne.symm hj]
      · simp [Ne.symm hj]
  | none => simp [heed]

end AgentTimer

namespace SessionTimers.Replay

open AgentTimer (Signal)

variable {r : Replay} {e : Entry} {name id : String}

theorem signal?_eq_delegate_iff :
    r.signal? e name = some (.delegate id) ↔ e.requested? = some id ∧ e.agent = name := by
  rw [signal?, Entry.requested?]
  cases e.payload <;> simp [and_comm]

theorem signal?_eq_release_iff : r.signal? e name = some (.release id) ↔
    e.released? = some id ∧ (r.owners.get? id).getD e.agent = name := by
  have hrelease : ∀ j, (if (r.owners.get? j).getD e.agent = name then some (.release j) else none)
      = some (Signal.release id) ↔ some j = some id ∧ (r.owners.get? id).getD e.agent = name := by
    intro j
    rw [Option.ite_none_right_eq_some]
    constructor
    · rintro ⟨h, ⟨⟩⟩
      exact ⟨rfl, h⟩
    · rintro ⟨⟨⟩, h⟩
      exact ⟨h, rfl⟩
  rw [signal?, Entry.released?]
  cases e.payload with
  | delegationCompleted j _ => exact hrelease j
  | delegationFailed j _ => exact hrelease j
  | _ => simp

theorem signal?_eq_rest_iff : r.signal? e name = some .rest ↔
    e.isError = true ∧ (e.namesAgent = true → e.agent = name) := by
  rw [signal?, Entry.isError]
  cases e.payload <;> simp

theorem signal?_eq_handBack_iff :
    r.signal? e name = some .handBack ↔ e.isHandBack = true ∧ e.agent = name := by
  rw [signal?, Entry.isHandBack]
  cases e.payload <;> simp

/-! ## Whom a release frees -/

/-- **One entry.** The agent that is kept for a delegation is the one that requests it, until the
delegation is over. -/
theorem get?_owners_step : (r.step e).owners.get? id =
    if e.requested? = some id then some e.agent
    else if e.released? = some id then none
    else r.owners.get? id := by
  have hsame : ∀ j, id = j ↔ some j = some id := fun j ↦ by rw [Option.some_inj, eq_comm]
  have herase : ∀ j, (r.owners.erase j).get? id = if some j = some id then none
      else r.owners.get? id := fun j ↦
    (Table.get?_erase _ _ _).trans (if_congr (hsame j) rfl rfl)
  rw [step, act, Entry.requested?, Entry.released?]
  cases e.payload with
  | delegationRequested j _ _ =>
    exact (Table.get?_insert _ _ _ _).trans (if_congr (hsame j) rfl rfl)
  | delegationCompleted j _ => exact herase j
  | delegationFailed j _ => exact herase j
  | requestEnd reason => dsimp only; split <;> rfl
  | systemError _ => dsimp only; split <;> rfl
  | _ => rfl

private theorem eq_of_owners_step {owner : String} (h : (r.step e).owners.get? id = some owner) :
    owner = e.agent ∨ r.owners.get? id = some owner := by
  rw [get?_owners_step] at h
  split at h
  · exact Or.inl (Option.some.inj h).symm
  · split at h
    · cases h
    · exact Or.inr h

/-- Where all entries are by one agent, it is the one that requested every delegation. -/
theorem eq_of_owners {timeline : List Entry} {owner : String}
    (hagent : ∀ x ∈ timeline, x.agent = name)
    (h : (timeline.foldl step start).owners.get? id = some owner) : owner = name := by
  induction timeline using List.reverseRecOn with
  | nil => cases h
  | append_singleton before e ih =>
    rw [List.forall_mem_append, List.forall_mem_singleton] at hagent
    rw [List.foldl_concat] at h
    rcases eq_of_owners_step h with rfl | hold
    · exact hagent.2
    · exact ih hagent.1 hold

/-- **Any number of entries** by one agent. It waits for the delegations that are open. -/
theorem contains_waitingFor_iff {timeline : List Entry} (hagent : ∀ x ∈ timeline, x.agent = name) :
    ((timeline.foldl step start).agent name).waitingFor.contains id = true ↔
      Timeline.IsOpen id timeline := by
  induction timeline using List.reverseRecOn with
  | nil => simp [Timeline.IsOpen]; rfl
  | append_singleton before e ih =>
    rw [List.forall_mem_append, List.forall_mem_singleton] at hagent
    have howner : ((before.foldl step start).owners.get? id).getD e.agent = name := by
      cases howner : (before.foldl step start).owners.get? id with
      | none => exact hagent.2
      | some owner => exact eq_of_owners hagent.1 howner
    rw [List.foldl_concat, agent_step, AgentTimer.contains_heed, signal?_eq_delegate_iff, Ne,
      signal?_eq_release_iff, ih hagent.1, Timeline.isOpen_concat_iff, and_iff_left hagent.2,
      and_iff_left howner]

theorem isDelegating_eq_isAnyOpen {timeline : List Entry}
    (hagent : ∀ x ∈ timeline, x.agent = name) :
    ((timeline.foldl step start).agent name).isDelegating = Timeline.isAnyOpen timeline := by
  rw [Bool.eq_iff_iff, AgentTimer.isDelegating_iff, Timeline.isAnyOpen_iff]
  exact exists_congr fun id ↦ contains_waitingFor_iff hagent

end SessionTimers.Replay

end SessionReplay
