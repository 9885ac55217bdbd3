import SessionReplay.Proofs.Delegation.Pairing

/-!
# First come, first served

Calls and requests that name their targets are paired in the order in which they came: the first
call for a target with the first request for it, the second with the second, and so on, each pair as
soon as both are there. What else is reported in between does not matter:
`Tracker.firstComeFirstServed_run`.

## The two queues of a target

Of the calls for a target as many are paired as there are requests for it, or all of them if there
are fewer. So the calls that wait are those behind as many places as there are requests, and the
requests that wait are those behind as many places as there are calls. One of the two queues is
always empty, and the next pair is the head of the other one with whoever comes next. This is
`Tracker.PairsInTurn`.
-/

namespace SessionReplay

/-! ## What came for a target -/

section Under

variable {α β : Type} {xs : List (String × α)} {key key' : String} {k k' : Nat} {x y : α}

/-- The things under a name, in the order in which they came. -/
def under (key : String) (xs : List (String × α)) : List α :=
  xs.filterMap fun x ↦ if x.1 = key then some x.2 else none

theorem under_concat (key : String) (xs : List (String × α)) (x : String × α) :
    under key (xs ++ [x]) = under key xs ++ if x.1 = key then [x.2] else [] := by
  rw [under, List.filterMap_append, under]
  congr 1
  by_cases h : x.1 = key
  · simp [h]
  · simp [h]

theorem mem_of_mem_under (h : x ∈ under key xs) : (key, x) ∈ xs := by
  obtain ⟨e, he, hx⟩ := List.mem_filterMap.mp h
  obtain ⟨rfl, hsome⟩ := Option.ite_none_right_eq_some.mp hx
  obtain rfl := Option.some.inj hsome
  exact he

theorem under_eq_nil (h : ∀ e ∈ xs, e.1 ≠ key) : under key xs = [] := by
  rw [under, List.filterMap_eq_nil_iff]
  exact fun e he ↦ if_neg (h e he)

private theorem filterMap_concat (f : α → Option β) (xs : List α) (x : α) :
    (xs ++ [x]).filterMap f = xs.filterMap f ++ (f x).toList := by
  rw [List.filterMap_append]
  cases hx : f x with
  | none => rw [List.filterMap_cons_none hx, List.filterMap_nil, Option.toList_none]
  | some y => rw [List.filterMap_cons_some hx, List.filterMap_nil, Option.toList_some]

private theorem getElem?_concat_eq_some_iff {xs : List α} :
    (xs ++ [x])[k]? = some y ↔ xs[k]? = some y ∨ k = xs.length ∧ x = y := by
  rw [List.getElem?_append]
  split
  · next hlt => simp [Nat.ne_of_lt hlt]
  · next hge =>
    have hnone : xs[k]? = none := List.getElem?_eq_none (Nat.le_of_not_lt hge)
    have hzero : k - xs.length = 0 ↔ k = xs.length := by omega
    rw [hnone, List.getElem?_singleton]
    simp [hzero]

theorem getElem?_under_concat_iff {e : String × α} :
    (under key (xs ++ [e]))[k]? = some y ↔ (under key xs)[k]? = some y ∨
      e.1 = key ∧ k = (under key xs).length ∧ e.2 = y := by
  rw [under_concat]
  by_cases h : e.1 = key
  · rw [if_pos h, getElem?_concat_eq_some_iff, and_iff_right h]
  · rw [if_neg h, List.append_nil, or_iff_left fun hnew ↦ h hnew.1]

/-- Where things are told apart by a tag, each has one name and one number under it. -/
theorem eq_of_getElem?_under (f : α → β) (hnodup : (xs.map fun e ↦ f e.2).Nodup)
    (hx : (under key xs)[k]? = some x) (hy : (under key' xs)[k']? = some y) (hf : f x = f y) :
    key = key' ∧ k = k' := by
  induction xs using List.reverseRecOn with
  | nil => cases hx
  | append_singleton xs e ih =>
    rw [List.map_append, List.nodup_append] at hnodup
    obtain ⟨hold, -, hnew⟩ := hnodup
    have hapart : ∀ {j : String} {i : Nat} {z : α}, (under j xs)[i]? = some z → f z ≠ f e.2 :=
      fun hz ↦ hnew _ (List.mem_map_of_mem (mem_of_mem_under (List.mem_of_getElem? hz))) _
        List.mem_cons_self
    rw [getElem?_under_concat_iff] at hx hy
    rcases hx with hx | ⟨rfl, rfl, rfl⟩ <;> rcases hy with hy | ⟨rfl, rfl, rfl⟩
    · exact ih hold hx hy
    · exact absurd hf (hapart hx)
    · exact absurd hf.symm (hapart hy)
    · exact ⟨rfl, rfl⟩

end Under

section SideBySide

variable {α β : Type} {xs : List α} {ys rest : List β} {z : β}

/-- Where the second list is no longer, one more of the first waits. -/
private theorem drop_concat_of_drop_eq_nil (h : ys.drop xs.length = []) (x : α) :
    (xs ++ [x]).drop ys.length = xs.drop ys.length ++ [x] ∧ ys.drop (xs ++ [x]).length = [] ∧
      ys[xs.length]? = none := by
  have hle : ys.length ≤ xs.length := List.drop_eq_nil_iff.mp h
  refine ⟨List.drop_append_of_le_length hle, ?_, List.getElem?_eq_none hle⟩
  rw [List.drop_eq_nil_iff, List.length_append]
  exact Nat.le_add_right_of_le hle

/-- Where the second list is longer, one more of the first meets the next of the second. -/
private theorem drop_concat_of_drop_eq_cons (h : ys.drop xs.length = z :: rest) (x : α) :
    (xs ++ [x]).drop ys.length = xs.drop ys.length ∧ ys.drop (xs ++ [x]).length = rest ∧
      ys[xs.length]? = some z := by
  have hz : ys[xs.length]? = some z := by rw [← List.head?_drop, h, List.head?_cons]
  have hlt : xs.length < ys.length := (List.getElem?_eq_some_iff.mp hz).1
  have hshort : (xs ++ [x]).length ≤ ys.length := by
    rw [List.length_append, List.length_singleton]
    exact hlt
  refine ⟨?_, ?_, hz⟩
  · rw [List.drop_eq_nil_of_le hshort, List.drop_eq_nil_of_le (Nat.le_of_lt hlt)]
  · rw [List.length_append, List.length_singleton, ← List.tail_drop, h, List.tail_cons]

end SideBySide

/-- The queues hold, under each name, what came behind as many places as others came. -/
def Behind {α β : Type} (queues : Table (List α)) (xs : List (String × α))
    (ys : List (String × β)) : Prop :=
  ∀ key, queueOf queues key = (under key xs).drop (under key ys).length

namespace Behind

variable {α β : Type} {queues : Table (List α)} {xs : List (String × α)} {ys : List (String × β)}
  {key : String} {rest : List α} {y : α} {z : β} {others : List β}

/-- One more that finds nobody waits. -/
theorem putLast (h : Behind queues xs ys)
    (hnobody : (under key ys).drop (under key xs).length = []) (x : α) :
    Behind (putLast queues key x) (xs ++ [(key, x)]) ys := by
  intro key'
  rw [queueOf_putLast, under_concat]
  by_cases hkey : key' = key
  · subst hkey
    rw [if_pos rfl, if_pos rfl, (drop_concat_of_drop_eq_nil hnobody x).1, h]
  · rw [if_neg hkey, if_neg (Ne.symm hkey), List.append_nil, h]

/-- One of the others who finds nobody changes nothing. -/
theorem concat_of_nil (h : Behind queues xs ys)
    (hnobody : (under key xs).drop (under key ys).length = []) (z : β) :
    Behind queues xs (ys ++ [(key, z)]) := by
  intro key'
  rw [under_concat]
  by_cases hkey : key' = key
  · subst hkey
    rw [if_pos rfl, (drop_concat_of_drop_eq_nil hnobody z).2.1, h, hnobody]
  · rw [if_neg (Ne.symm hkey), List.append_nil, h]

/-- One of the others takes the first one away. -/
theorem insert (h : Behind queues xs ys)
    (hfirst : (under key xs).drop (under key ys).length = y :: rest) (z : β) :
    Behind (queues.insert key rest) xs (ys ++ [(key, z)]) := by
  intro key'
  rw [queueOf_insert, under_concat]
  by_cases hkey : key' = key
  · subst hkey
    rw [if_pos rfl, if_pos rfl, (drop_concat_of_drop_eq_cons hfirst z).2.1]
  · rw [if_neg hkey, if_neg (Ne.symm hkey), List.append_nil, h]

/-- One more that finds somebody does not wait. -/
theorem concat_of_cons (h : Behind queues xs ys)
    (hfirst : (under key ys).drop (under key xs).length = z :: others) (x : α) :
    Behind queues (xs ++ [(key, x)]) ys := by
  intro key'
  rw [under_concat]
  by_cases hkey : key' = key
  · subst hkey
    rw [if_pos rfl, (drop_concat_of_drop_eq_cons hfirst x).1, h]
  · rw [if_neg (Ne.symm hkey), List.append_nil, h]

end Behind

namespace Tracker

open Delegation (Advances)

/-- The call that a report is, under its target. -/
def Report.calling? : Report → Option (String × String)
  | .opened o => some (queueKey o.target, o.call)
  | _ => none

/-- The request that a report is, under its target. -/
def Report.asking? : Report → Option (String × Request)
  | .requested r => some (queueKey r.target, r)
  | _ => none

/-- The calls for a target, in the order in which they came. -/
def callsFor (target : String) (reports : List Report) : List String :=
  under target (reports.filterMap Report.calling?)

/-- The requests for a target, in the order in which they came. -/
def requestsFor (target : String) (reports : List Report) : List Request :=
  under target (reports.filterMap Report.asking?)

/-- A call or request names its target. -/
def Report.NamesTarget : Report → Prop
  | .opened o => queueKey o.target ≠ ""
  | .requested r => queueKey r.target ≠ ""
  | _ => True

instance : DecidablePred Report.NamesTarget
  | .opened o => inferInstanceAs (Decidable (queueKey o.target ≠ ""))
  | .requested r => inferInstanceAs (Decidable (queueKey r.target ≠ ""))
  | .forked .. => isTrue trivial
  | .finished .. => isTrue trivial
  | .finishGroup .. => isTrue trivial

variable {reports : List Report} {t : Tracker} {cs : List (String × String)}
  {rs : List (String × Request)} {id call : String}

private theorem map_calling? (reports : List Report) :
    (reports.filterMap Report.calling?).map Prod.snd = reports.filterMap Report.call? := by
  rw [List.map_filterMap]
  refine congrArg (List.filterMap · reports) (funext fun r ↦ ?_)
  cases r <;> rfl

theorem map_asking? (reports : List Report) :
    (reports.filterMap Report.asking?).map (fun e ↦ e.2.delegation) = requests reports := by
  rw [List.map_filterMap, requests]
  refine congrArg (List.filterMap · reports) (funext fun r ↦ ?_)
  cases r <;> rfl

/-- Where all targets are named, nothing comes without one. -/
theorem callsFor_unnamed (h : ∀ r ∈ reports, r.NamesTarget) : callsFor "" reports = [] := by
  refine under_eq_nil fun e he ↦ ?_
  obtain ⟨r, hr, hcalling⟩ := List.mem_filterMap.mp he
  cases r with
  | opened o => exact Option.some.inj hcalling ▸ h _ hr
  | _ => cases hcalling

private theorem requestsFor_unnamed (h : ∀ r ∈ reports, r.NamesTarget) :
    requestsFor "" reports = [] := by
  refine under_eq_nil fun e he ↦ ?_
  obtain ⟨r, hr, hasking⟩ := List.mem_filterMap.mp he
  cases r with
  | requested r => exact Option.some.inj hasking ▸ h _ hr
  | _ => cases hasking

/-! ## Who is in turn -/

/-- A call and the request with an identifier have the same number among the calls and requests for
their target. -/
def InTurn (cs : List (String × String)) (rs : List (String × Request)) (id call : String) : Prop :=
  ∃ (target : String) (k : Nat) (r : Request), (under target cs)[k]? = some call ∧
    (under target rs)[k]? = some r ∧ r.delegation = id

/-- A call is in turn with the request that has its number already. -/
theorem inTurn_concat_call {e : String × String} :
    InTurn (cs ++ [e]) rs id call ↔ InTurn cs rs id call ∨
      e.2 = call ∧ ∃ r : Request, (under e.1 rs)[(under e.1 cs).length]? = some r ∧
        r.delegation = id := by
  constructor
  · rintro ⟨target, k, r, hcall, hr, hid⟩
    rcases getElem?_under_concat_iff.mp hcall with hcall | ⟨rfl, rfl, hsame⟩
    · exact Or.inl ⟨target, k, r, hcall, hr, hid⟩
    · exact Or.inr ⟨hsame, r, hr, hid⟩
  · rintro (⟨target, k, r, hcall, hr, hid⟩ | ⟨hcall, r, hr, hid⟩)
    · exact ⟨target, k, r, getElem?_under_concat_iff.mpr (Or.inl hcall), hr, hid⟩
    · exact ⟨e.1, _, r, getElem?_under_concat_iff.mpr (Or.inr ⟨rfl, rfl, hcall⟩), hr, hid⟩

/-- A request is in turn with the call that has its number already. -/
theorem inTurn_concat_request {e : String × Request} :
    InTurn cs (rs ++ [e]) id call ↔ InTurn cs rs id call ∨
      (under e.1 cs)[(under e.1 rs).length]? = some call ∧ e.2.delegation = id := by
  constructor
  · rintro ⟨target, k, r, hcall, hr, hid⟩
    rcases getElem?_under_concat_iff.mp hr with hr | ⟨rfl, rfl, rfl⟩
    · exact Or.inl ⟨target, k, r, hcall, hr, hid⟩
    · exact Or.inr ⟨hcall, hid⟩
  · rintro (⟨target, k, r, hcall, hr, hid⟩ | ⟨hcall, hid⟩)
    · exact ⟨target, k, r, hcall, getElem?_under_concat_iff.mpr (Or.inl hr), hid⟩
    · exact ⟨e.1, _, e.2, hcall, getElem?_under_concat_iff.mpr (Or.inr ⟨rfl, rfl, rfl⟩), hid⟩

/-! ## The invariant -/

/-- Calls and requests are paired in turn, and who has no partner waits. -/
structure PairsInTurn (t : Tracker) (cs : List (String × String)) (rs : List (String × Request)) :
    Prop where
  carries_iff : ∀ id call, Carries t.groups id call ↔ InTurn cs rs id call
  calls : Behind t.waitingCalls cs rs
  requests : Behind t.waitingRequests rs cs

theorem pairsInTurn_empty : empty.PairsInTurn [] [] where
  carries_iff id call := by
    refine iff_of_false ?_ ?_
    · rintro ⟨d, hd, -⟩
      cases hd
    · rintro ⟨target, k, r, hcall, -, -⟩
      cases hcall
  calls _ := rfl
  requests _ := rfl

/-- A call takes the request that has its number, or waits for it. -/
theorem PairsInTurn.opened (h : t.PairsInTurn cs rs) {o : Opening}
    (hnew : t.groups.get? o.call = none) (hunnamed : under "" rs = []) :
    (t.opened o).PairsInTurn (cs ++ [(queueKey o.target, o.call)]) rs := by
  have hqueue := h.requests (queueKey o.target)
  have hnobody : queueOf t.waitingRequests "" = [] := by
    rw [h.requests, hunnamed, List.drop_nil]
  cases hdrop : (under (queueKey o.target) rs).drop (under (queueKey o.target) cs).length with
  | nil =>
    rw [opened_of_waits hnew (takeFor?_of_nil (hqueue.trans hdrop) hnobody)]
    refine ⟨fun id call ↦ ?_, h.calls.putLast hdrop o.call, h.requests.concat_of_nil hdrop o.call⟩
    rw [inTurn_concat_call, (drop_concat_of_drop_eq_nil hdrop o.call).2.2, ← h.carries_iff]
    refine (carries_enter_iff hnew).trans (or_iff_left ?_).symm
    rintro ⟨-, r, hr, -⟩
    cases hr
  | cons r rest =>
    rw [opened_of_finds hnew (takeFor?_of_cons (hqueue.trans hdrop))]
    generalize hqueues : t.waitingRequests.insert (queueKey o.target) rest = queues
    have hentered : ({ t.enter o with waitingRequests := queues } : Tracker).groups.get? o.call
        = some o.delegation := Table.get?_insert_self _ _ _
    refine ⟨fun id call ↦ ?_, ?_, ?_⟩
    · rw [inTurn_concat_call, (drop_concat_of_drop_eq_cons hdrop o.call).2.2, ← h.carries_iff,
        carries_pair_iff hentered rfl, carries_enter_iff hnew]
      simp only [Option.some.injEq, exists_eq_left']
    · rw [waitingCalls_pair]
      exact h.calls.concat_of_cons hdrop o.call
    · rw [waitingRequests_pair, ← hqueues]
      exact h.requests.insert hdrop o.call

/-- A request takes the call that has its number, or waits for it. -/
theorem PairsInTurn.requested (h : t.PairsInTurn cs rs) (ht : t.Orderly) {r : Request}
    (hunpaired : t.paired.get? r.delegation = none) (hunnamed : under "" cs = []) :
    (t.requested r).PairsInTurn cs (rs ++ [(queueKey r.target, r)]) := by
  have hqueue := h.calls (queueKey r.target)
  have hnobody : queueOf t.waitingCalls "" = [] := by
    rw [h.calls, hunnamed, List.drop_nil]
  cases hdrop : (under (queueKey r.target) cs).drop (under (queueKey r.target) rs).length with
  | nil =>
    rw [requested_of_waits hunpaired (takeFor?_of_nil (hqueue.trans hdrop) hnobody)]
    refine ⟨fun id call ↦ ?_, h.calls.concat_of_nil hdrop r, h.requests.putLast hdrop r⟩
    rw [inTurn_concat_request, (drop_concat_of_drop_eq_nil hdrop r).2.2, ← h.carries_iff]
    refine (or_iff_left ?_).symm
    rintro ⟨hcall, -⟩
    cases hcall
  | cons call rest =>
    have htake := takeFor?_of_cons (hqueue.trans hdrop)
    obtain ⟨d, hd, hnone⟩ := (ht.orderlyBut_take htake).unpaired
    rw [requested_of_finds hunpaired htake]
    refine ⟨fun id c ↦ ?_, ?_, ?_⟩
    · rw [inTurn_concat_request, (drop_concat_of_drop_eq_cons hdrop r).2.2, ← h.carries_iff,
        carries_pair_iff hd hnone, Option.some_inj]
    · rw [waitingCalls_pair]
      exact h.calls.insert hdrop r
    · rw [waitingRequests_pair]
      exact h.requests.concat_of_cons hdrop r

/-- Forks and endings change no pair and no queue. -/
theorem PairsInTurn.of_related (h : t.PairsInTurn cs rs) {u : Tracker}
    (hgroups : t.groups.Related Advances u.groups) (hcalls : u.waitingCalls = t.waitingCalls)
    (hrequests : u.waitingRequests = t.waitingRequests) : u.PairsInTurn cs rs where
  carries_iff id call := (carries_iff_of_related hgroups).trans (h.carries_iff id call)
  calls := hcalls ▸ h.calls
  requests := hrequests ▸ h.requests

/-- **One report** keeps calls and requests in turn. -/
theorem PairsInTurn.step (h : t.PairsInTurn cs rs) (ht : t.Orderly) (hcs : under "" cs = [])
    (hrs : under "" rs = []) {r : Report}
    (hcall : ∀ call, r.call? = some call → t.groups.get? call = none)
    (hrequest : ∀ id, r.request? = some id → t.paired.get? id = none) :
    (t.step r).PairsInTurn (cs ++ r.calling?.toList) (rs ++ r.asking?.toList) := by
  have hsame : t.PairsInTurn (cs ++ []) (rs ++ []) := by rwa [List.append_nil, List.append_nil]
  have hunchanged := Table.Related.refl Advances.refl t.groups
  cases r with
  | opened o =>
    change (t.opened o).PairsInTurn _ (rs ++ [])
    rw [List.append_nil]
    exact h.opened (hcall o.call rfl) hrs
  | requested r =>
    change (t.requested r).PairsInTurn (cs ++ []) _
    rw [List.append_nil]
    exact h.requested ht (hrequest r.delegation rfl) hcs
  | forked id child =>
    rw [Tracker.step, forked]
    split
    · next group _ => exact hsame.of_related (t.related_attachChild group child) rfl rfl
    · exact hsame.of_related hunchanged rfl rfl
  | finished id e =>
    rw [Tracker.step, finished]
    split
    · next group _ =>
      exact hsame.of_related (t.related_finishGroup group e) (waitingCalls_finishGroup ..)
        (waitingRequests_finishGroup ..)
    · exact hsame.of_related hunchanged rfl rfl
  | finishGroup group e =>
    exact hsame.of_related (t.related_finishGroup group e) (waitingCalls_finishGroup ..)
      (waitingRequests_finishGroup ..)

/-- **Any number of reports**, where every call and every identifier comes once and all targets are
named. -/
theorem pairsInTurn_run (hcalls : (reports.filterMap Report.call?).Nodup)
    (hrequests : (requests reports).Nodup) (hnamed : ∀ r ∈ reports, r.NamesTarget) :
    (run reports).PairsInTurn (reports.filterMap Report.calling?)
      (reports.filterMap Report.asking?) := by
  induction reports using List.reverseRecOn with
  | nil => exact pairsInTurn_empty
  | append_singleton before r ih =>
    rw [List.filterMap_append, List.nodup_append] at hcalls
    rw [requests, List.filterMap_append, List.nodup_append, ← requests] at hrequests
    have hnamed' : ∀ x ∈ before, x.NamesTarget := fun x hx ↦
      hnamed x (List.mem_append_left _ hx)
    have hbefore := ih hcalls.1 hrequests.1 hnamed'
    obtain ⟨asked, -, hreaches⟩ := reaches_run fun r _ ↦ r.allows_true
    rw [run_concat, filterMap_concat, filterMap_concat]
    refine hbefore.step (orderly_run before) (callsFor_unnamed hnamed')
      (requestsFor_unnamed hnamed') (fun call hcall ↦ ?_) fun id hid ↦ ?_
    · -- a call that is there came before
      rw [← Table.contains_eq_false_iff, ← Bool.not_eq_true, ← hreaches.mem_calls_iff, calls,
        List.mem_eraseDups]
      intro hmem
      exact hcalls.2.2 call hmem call (by rw [List.filterMap_cons_some hcall]; simp) rfl
    · -- a paired identifier is in turn, so a request for it came before
      rw [Option.eq_none_iff_forall_ne_some]
      intro call hpaired
      obtain ⟨target, k, r', -, hr', rfl⟩ := (hbefore.carries_iff id call).mp
        (hreaches.carries hpaired)
      have hmem := mem_of_mem_under (List.mem_of_getElem? hr')
      have hold : r'.delegation ∈ requests before := by
        rw [← map_asking?]
        exact List.mem_map_of_mem hmem
      exact hrequests.2.2 _ hold _ (by rw [List.filterMap_cons_some hid]; simp) rfl

/-! ## Served in turn -/

/-- Calls and requests with one number for one target are paired, and neither has another
partner. The delegation of a call and the table of pairs say the same. -/
structure FirstComeFirstServed (t : Tracker) (reports : List Report) : Prop where
  carries_iff_paired : ∀ id call, Carries t.groups id call ↔ t.paired.get? id = some call
  carries : ∀ (target : String) (k : Nat) (call : String) (r : Request),
    (callsFor target reports)[k]? = some call → (requestsFor target reports)[k]? = some r →
    Carries t.groups r.delegation call
  request_eq : ∀ (target : String) (k : Nat) (call id : String),
    (callsFor target reports)[k]? = some call → Carries t.groups id call →
    ((requestsFor target reports)[k]?).map Request.delegation = some id
  call_eq : ∀ (target : String) (k : Nat) (r : Request) (call : String),
    (requestsFor target reports)[k]? = some r → Carries t.groups r.delegation call →
    (callsFor target reports)[k]? = some call

/-- **First come, first served.** Where every call and every identifier comes once and all targets
are named, the calls and the requests for one target are paired one by one in the order in which
they came. -/
theorem firstComeFirstServed_run {reports : List Report}
    (hcalls : (reports.filterMap Report.call?).Nodup) (hrequests : (requests reports).Nodup)
    (hnamed : ∀ r ∈ reports, r.NamesTarget) :
    (run reports).FirstComeFirstServed reports := by
  have hturn := pairsInTurn_run hcalls hrequests hnamed
  obtain ⟨asked, -, hreaches⟩ := reaches_run fun r _ ↦ r.allows_true
  rw [← map_calling?] at hcalls
  rw [← map_asking?] at hrequests
  -- an identifier in turn with two calls would have two numbers
  have hunique : ∀ {id call call' : String}, Carries (run reports).groups id call →
      Carries (run reports).groups id call' → call = call' := by
    intro id call call' h h'
    obtain ⟨target, k, r, hcall, hr, hid⟩ := (hturn.carries_iff id call).mp h
    obtain ⟨target', k', r', hcall', hr', hid'⟩ := (hturn.carries_iff id call').mp h'
    obtain ⟨rfl, rfl⟩ := eq_of_getElem?_under Request.delegation hrequests hr hr'
      (hid.trans hid'.symm)
    exact Option.some.inj (hcall.symm.trans hcall')
  refine ⟨fun id call ↦ ⟨fun hcarries ↦ ?_, fun hpaired ↦ ?_⟩, fun target k call r hcall hr ↦ ?_,
    fun target k call id hcall hcarries ↦ ?_, fun target k r call hr hcarries ↦ ?_⟩
  · obtain ⟨call', hpaired⟩ := hreaches.exists_paired hcarries
    rwa [hunique hcarries (hreaches.carries hpaired)]
  · exact hreaches.carries hpaired
  · exact (hturn.carries_iff _ _).mpr ⟨target, k, r, hcall, hr, rfl⟩
  · obtain ⟨target', k', r, hcall', hr, hid⟩ := (hturn.carries_iff id call).mp hcarries
    obtain ⟨rfl, rfl⟩ := eq_of_getElem?_under (fun c ↦ c) hcalls hcall hcall' rfl
    rw [requestsFor, hr, Option.map_some, hid]
  · obtain ⟨target', k', r', hcall, hr', hid⟩ := (hturn.carries_iff _ call).mp hcarries
    obtain ⟨rfl, rfl⟩ := eq_of_getElem?_under Request.delegation hrequests hr hr' hid.symm
    exact hcall

/-- Two targets, of which one is asked for first and the other called first, with an ending in
between. -/
def interleaved : List Report := [
  .requested ⟨"d1", some "worker", none⟩,
  .opened ⟨"tc1", "main", some " helper", none, 0, ⟨1000⟩⟩,
  .opened ⟨"tc2", "main", some "helper", none, 1, ⟨2000⟩⟩,
  .opened ⟨"tc3", "main", some "worker ", none, 2, ⟨3000⟩⟩,
  .finishGroup "tc1" ⟨.completed, ⟨4000⟩, none⟩,
  .requested ⟨"d2", some "helper", none⟩,
  .finished "d1" ⟨.completed, ⟨5000⟩, none⟩,
  .requested ⟨"d3", some "helper", none⟩]

theorem firstComeFirstServed_interleaved :
    (interleaved.filterMap Report.call?).Nodup ∧ (requests interleaved).Nodup ∧
      (∀ r ∈ interleaved, r.NamesTarget) ∧ (run interleaved).FirstComeFirstServed interleaved ∧
      callsFor "helper" interleaved = ["tc1", "tc2"] ∧
      (requestsFor "helper" interleaved).map Request.delegation = ["d2", "d3"] := by
  have hcalls : (interleaved.filterMap Report.call?).Nodup := by decide
  have hrequests : (requests interleaved).Nodup := by decide
  have hnamed : ∀ r ∈ interleaved, r.NamesTarget := by decide
  exact ⟨hcalls, hrequests, hnamed, firstComeFirstServed_run hcalls hrequests hnamed, by decide,
    by decide⟩

end Tracker

end SessionReplay
