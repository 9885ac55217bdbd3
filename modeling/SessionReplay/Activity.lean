import SessionReplay.Table
import SessionReplay.Timeline

/-!
# Activity

At any moment some agents have a model request in flight, and the conversation may have been handed
back to the user for good. A transport may report both; without such a report they are read off the
timeline.

## The root agent

The agent of the first prompt is the root. The conversation is complete when the root has handed
back since it was last prompted or last asked its model, and nobody is thinking.
-/

namespace SessionReplay

/-- Who is thinking, and whether the conversation is over. -/
structure Activity where
  /-- The agents with a model request in flight. -/
  thinking : Names
  /-- Whether the conversation has been handed back to the user. -/
  isComplete : Bool
deriving DecidableEq

namespace Activity

/-- Whether an agent is thinking. -/
def isThinking (a : Activity) (agent : String) : Bool := a.thinking.contains agent

/-- Whether anybody is thinking. -/
def isAnyThinking (a : Activity) : Bool := !a.thinking.isEmpty

/-- Whether the session is at work. -/
def isActive (a : Activity) : Bool := a.isAnyThinking && !a.isComplete

/-- The activity of a part of a timeline. -/
structure Trace where
  thinking : Names
  /-- The agent of the first prompt. -/
  root : Option String
  /-- Whether the root has handed back since it last began to think. -/
  handedBack : Bool
deriving DecidableEq

namespace Trace

/-- Before the first event. -/
def start : Trace := ⟨.empty, none, false⟩

/-- An agent begins to think. -/
def think (t : Trace) (agent : String) : Trace :=
  { t with
    thinking := t.thinking.insert agent ()
    handedBack := t.handedBack && t.root != some agent }

/-- The first prompt makes its agent the root. -/
def prompt (t : Trace) (agent : String) : Trace :=
  { t with root := t.root.or (some agent) }.think agent

/-- An agent hands back. -/
def handBack (t : Trace) (agent : String) : Trace :=
  { t with
    thinking := t.thinking.erase agent
    handedBack := t.handedBack || t.root == some agent }

/-- Takes in an entry. -/
def step (t : Trace) (e : Entry) : Trace :=
  match e.payload with
  | .userPrompt _ => t.prompt e.agent
  | .requestStart => t.think e.agent
  | .requestEnd reason => if handsBack reason then t.handBack e.agent else t
  | .systemError _ =>
    { t with thinking := if e.namesAgent then t.thinking.erase e.agent else .empty }
  | _ => t

/-- The activity at the end. -/
def finish (t : Trace) : Activity := ⟨t.thinking, t.handedBack && t.thinking.isEmpty⟩

end Trace

/-- The activity at the end of a timeline. -/
def ofTimeline (timeline : List Entry) : Activity := (timeline.foldl Trace.step .start).finish

end Activity

end SessionReplay
