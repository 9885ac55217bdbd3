import SessionReplay.Proofs.Growth
import SessionReplay.Proofs.Timer.Releases
import SessionReplay.Proofs.Timer.Thinking

/-!
# The last word on who is thinking

Who is thinking is kept up to date entry by entry, and so is whether the root has handed back. Both
can be said without any state: an agent thinks if the last word on it is a prompt or the start of a
request, and the conversation is complete if nobody thinks and the last word of the root is that it
hands back: `Activity.hasLastWord_ofTimeline`.

## Words before the first prompt

The root is the agent of the first prompt. What it did before was not done as the root and does not
count, so its last word is looked for from the first prompt on. That prompt is a word of the root,
so there is always one.

## Whose word counts

On the thoughts of an agent it is the agent itself that has the last word, and errors: one that
names another agent ends no thought of this one, and one that names nobody ends all thoughts. On the
conversation errors have no say. An error may leave nobody thinking, and still the root has not
handed back.
-/

namespace SessionReplay

namespace Entry

/-- Whether an entry makes its agent think. -/
def isThought (e : Entry) : Bool := match e.payload with
  | .userPrompt _ => true
  | .requestStart => true
  | _ => false

private theorem isThought_of_isPrompt {e : Entry} (h : e.isPrompt = true) : e.isThought = true := by
  rw [isPrompt] at h
  rw [isThought]
  generalize e.payload = payload at h ⊢
  cases payload with
  | userPrompt _ => rfl
  | _ => cases h

/-- An entry ends what an agent thinks: the agent hands back, or there is an error that names it or
nobody. -/
def EndsThought (e : Entry) (name : String) : Prop :=
  e.isHandBack = true ∧ e.agent = name ∨ e.isError = true ∧ (e.namesAgent = true → e.agent = name)

/-- Whether an entry is a word of an agent on the conversation. -/
def isWordOf (e : Entry) (name : String) : Bool :=
  e.agent == name && (e.isThought || e.isHandBack)

end Entry

namespace Timeline

/-- An agent begins to think, and nothing ends the thought afterwards. -/
def IsThinking (name : String) (timeline : List Entry) : Prop :=
  ∃ before e after, timeline = before ++ e :: after ∧
    (e.isThought = true ∧ e.agent = name) ∧ ∀ x ∈ after, ¬x.EndsThought name

/-- There is a first prompt, and the last word of its agent from then on is that it hands back. -/
def IsHandedBack (timeline : List Entry) : Prop :=
  ∃ before first after, timeline = before ++ first :: after ∧
    (∀ x ∈ before, x.isPrompt = false) ∧ first.isPrompt = true ∧
    ∃ last ∈ ((first :: after).filter fun e ↦ e.isWordOf first.agent).getLast?,
      last.isHandBack = true

variable {name : String} {timeline : List Entry} {e : Entry}

private theorem isThinking_concat_iff : IsThinking name (timeline ++ [e]) ↔
    (e.isThought = true ∧ e.agent = name) ∨ IsThinking name timeline ∧ ¬e.EndsThought name := by
  rw [IsThinking, exists_split_concat_iff, and_iff_left (List.forall_mem_nil _)]
  simp only [List.forall_mem_append, List.forall_mem_singleton, ← and_assoc, exists_and_right,
    IsThinking]

end Timeline

namespace Activity

open Timeline (IsThinking IsHandedBack)

namespace Trace

open AgentTimer (Signal)
open SessionTimers (Replay)

variable {name : String} {timeline : List Entry} {e : Entry}

/-! ## Who is thinking -/

private theorem signal?_eq_work_iff {r : Replay} :
    r.signal? e name = some .work ↔ e.isThought = true ∧ e.agent = name := by
  rw [Replay.signal?, Entry.isThought]
  cases e.payload <;> simp

private theorem endsThought_iff {r : Replay} : e.EndsThought name ↔
    r.signal? e name = some .handBack ∨ r.signal? e name = some .rest := by
  rw [Replay.signal?_eq_handBack_iff, Replay.signal?_eq_rest_iff, Entry.EndsThought]

/-- **One entry** begins a thought, or leaves it as it is unless it ends it. -/
theorem contains_step_iff (t : Trace) : (t.step e).thinking.contains name = true ↔
    (e.isThought = true ∧ e.agent = name) ∨
      t.thinking.contains name = true ∧ ¬e.EndsThought name := by
  rw [contains_step t .start, ← signal?_eq_work_iff (r := .start), endsThought_iff (r := .start)]
  match Replay.start.signal? e name with
  | some .work => simp [Signal.thinking?]
  | some .rest => simp [Signal.thinking?]
  | some .handBack => simp [Signal.thinking?]
  | some (.delegate _) => simp [Signal.thinking?]
  | some (.release _) => simp [Signal.thinking?]
  | none => simp

/-- **Any number of entries.** -/
theorem contains_foldl_step_iff :
    (timeline.foldl step start).thinking.contains name = true ↔ IsThinking name timeline := by
  induction timeline using List.reverseRecOn with
  | nil => simp [IsThinking]; rfl
  | append_singleton before e ih =>
    rw [List.foldl_concat, contains_step_iff, ih, Timeline.isThinking_concat_iff]

/-! ## The root -/

private theorem root_step (t : Trace) (e : Entry) :
    (t.step e).root = if e.isPrompt then t.root.or (some e.agent) else t.root := by
  rw [step, Entry.isPrompt]
  cases e.payload with
  | requestEnd reason => dsimp only; split <;> rfl
  | _ => rfl

theorem root_foldl_step (timeline : List Entry) :
    (timeline.foldl step start).root = (timeline.find? Entry.isPrompt).map Entry.agent := by
  induction timeline using List.reverseRecOn with
  | nil => rfl
  | append_singleton before e ih =>
    rw [List.foldl_concat, root_step, ih, List.find?_append, List.find?_singleton, Option.map_or]
    cases e.isPrompt with
    | false =>
      rw [if_neg Bool.false_ne_true, if_neg Bool.false_ne_true, Option.map_none, Option.or_none]
    | true => rfl

private theorem handedBack_step_of_isThought (t : Trace) (h : e.isThought = true) :
    (t.step e).handedBack = (t.handedBack && (t.step e).root != some e.agent) := by
  rw [Entry.isThought] at h
  rw [step]
  generalize e.payload = payload at h ⊢
  cases payload with
  | userPrompt _ => rfl
  | requestStart => rfl
  | _ => cases h

private theorem step_of_isHandBack (t : Trace) (h : e.isHandBack = true) :
    t.step e = t.handBack e.agent := by
  rw [Entry.isHandBack] at h
  rw [step]
  generalize e.payload = payload at h ⊢
  cases payload with
  | requestEnd reason => exact if_pos h
  | _ => cases h

private theorem handedBack_step_of_eq_false (t : Trace) (hthought : e.isThought = false)
    (hback : e.isHandBack = false) : (t.step e).handedBack = t.handedBack := by
  rw [Entry.isThought] at hthought
  rw [Entry.isHandBack] at hback
  rw [step]
  generalize e.payload = payload at hthought hback ⊢
  cases payload with
  | userPrompt _ => cases hthought
  | requestStart => cases hthought
  | requestEnd reason => exact congrArg handedBack (if_neg (Bool.eq_false_iff.mp hback))
  | _ => rfl

/-- **One entry.** Only a word of the root says anew whether the root has handed back. -/
theorem handedBack_step (t : Trace) (e : Entry) : (t.step e).handedBack =
    if (t.step e).root.any e.isWordOf then e.isHandBack else t.handedBack := by
  have hany : ∀ root : Option String, root.any e.isWordOf
      = (root == some e.agent && (e.isThought || e.isHandBack)) := by
    intro root
    cases root with
    | none => rfl
    | some name => exact congrArg (· && _) BEq.comm
  rw [hany]
  cases hback : e.isHandBack with
  | true =>
    rw [step_of_isHandBack t hback, handBack, Bool.or_true, Bool.and_true]
    cases t.root == some e.agent with
    | true => rw [if_pos rfl, Bool.or_true]
    | false => rw [if_neg Bool.false_ne_true, Bool.or_false]
  | false =>
    cases hthought : e.isThought with
    | true =>
      rw [handedBack_step_of_isThought t hthought, Bool.or_false, Bool.and_true, bne]
      cases (t.step e).root == some e.agent with
      | true => rw [if_pos rfl, Bool.not_true, Bool.and_false]
      | false => rw [if_neg Bool.false_ne_true, Bool.not_false, Bool.and_true]
    | false =>
      rw [handedBack_step_of_eq_false t hthought hback, Bool.or_false, Bool.and_false,
        if_neg Bool.false_ne_true]

/-- **Any number of entries.** Without a root nothing is handed back. -/
theorem handedBack_foldl_step_of_no_prompt (h : ∀ e ∈ timeline, e.isPrompt = false) :
    (timeline.foldl step start).handedBack = false := by
  induction timeline using List.reverseRecOn with
  | nil => rfl
  | append_singleton before e ih =>
    have hroot : ((before ++ [e]).foldl step start).root = none := by
      rw [root_foldl_step, List.find?_eq_none.mpr fun x hx ↦ Bool.eq_false_iff.mp (h x hx),
        Option.map_none]
    rw [List.foldl_concat] at hroot ⊢
    rw [handedBack_step, hroot, Option.any_none, if_neg Bool.false_ne_true]
    exact ih fun x hx ↦ h x (List.mem_append_left _ hx)

/-- **Any number of entries.** From the first prompt on, the last word of the root counts. -/
theorem handedBack_foldl_step {before after : List Entry} {first : Entry}
    (hbefore : ∀ x ∈ before, x.isPrompt = false) (hfirst : first.isPrompt = true) :
    ((before ++ first :: after).foldl step start).handedBack =
      (((first :: after).filter fun e ↦ e.isWordOf first.agent).getLast?).any Entry.isHandBack := by
  have hroot : ∀ after, ((before ++ first :: after).foldl step start).root = some first.agent := by
    intro after
    rw [root_foldl_step, List.find?_append, List.find?_eq_none.mpr fun x hx ↦
      Bool.eq_false_iff.mp (hbefore x hx), Option.none_or, List.find?_cons_of_pos hfirst,
      Option.map_some]
  induction after using List.reverseRecOn with
  | nil =>
    have hword : first.isWordOf first.agent = true := by
      rw [Entry.isWordOf, Entry.isThought_of_isPrompt hfirst, BEq.rfl, Bool.true_or, Bool.and_true]
    have hroot := hroot []
    rw [List.foldl_concat] at hroot ⊢
    rw [handedBack_step, hroot, Option.any_some, if_pos hword, List.filter_singleton, hword]
    rfl
  | append_singleton after e ih =>
    have hroot := hroot (after ++ [e])
    rw [← List.cons_append, ← List.append_assoc, List.foldl_concat] at hroot ⊢
    rw [handedBack_step, hroot, Option.any_some, ih, List.filter_append, List.filter_singleton]
    cases e.isWordOf first.agent with
    | true => rw [if_pos rfl, cond_true, List.getLast?_concat, Option.any_some]
    | false => rw [if_neg Bool.false_ne_true, cond_false, List.append_nil]

private theorem handedBack_foldl_step_iff :
    (timeline.foldl step start).handedBack = true ↔ IsHandedBack timeline := by
  constructor
  · intro hback
    cases hfind : timeline.find? Entry.isPrompt with
    | none =>
      rw [handedBack_foldl_step_of_no_prompt fun x hx ↦
        Bool.eq_false_iff.mpr (List.find?_eq_none.mp hfind x hx)] at hback
      cases hback
    | some first =>
      obtain ⟨hfirst, before, after, rfl, hbefore⟩ := List.find?_eq_some_iff_append.mp hfind
      have hbefore : ∀ x ∈ before, x.isPrompt = false := fun x hx ↦ by simpa using hbefore x hx
      rw [handedBack_foldl_step hbefore hfirst, Option.any_eq_true] at hback
      exact ⟨before, first, after, rfl, hbefore, hfirst, hback⟩
  · rintro ⟨before, first, after, rfl, hbefore, hfirst, hlast⟩
    rw [handedBack_foldl_step hbefore hfirst, Option.any_eq_true]
    exact hlast

end Trace

/-! ## The activity of a timeline -/

/-- An activity is what the last words of a timeline say. -/
structure HasLastWord (timeline : List Entry) (a : Activity) : Prop where
  isThinking_iff : ∀ name, a.isThinking name = true ↔ IsThinking name timeline
  isComplete_iff : a.isComplete = true ↔ a.isAnyThinking = false ∧ IsHandedBack timeline

/-- **The last word.** Whether an agent thinks is said by the last word on its thoughts, and whether
the conversation is complete by the last word of the root, if nobody thinks. -/
theorem hasLastWord_ofTimeline (timeline : List Entry) :
    (ofTimeline timeline).HasLastWord timeline where
  isThinking_iff _ := Trace.contains_foldl_step_iff
  isComplete_iff := by
    rw [← Trace.handedBack_foldl_step_iff, isAnyThinking, Bool.not_eq_false', ofTimeline,
      Trace.finish, Bool.and_eq_true, and_comm]

end Activity

end SessionReplay
