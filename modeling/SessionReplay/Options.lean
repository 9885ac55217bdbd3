import SessionReplay.Json.Value
import SessionReplay.Text.Basic

/-!
# Options

What a replay may be told: the key for agents without a name, the tools that delegate, and where a
delegating call names its target.
-/

namespace SessionReplay

/-- The knobs of a replay. -/
structure Options where
  /-- The key of an agent that is missing or blank. -/
  sentinel : String
  /-- The names of tools that delegate; their case does not matter. -/
  delegationTools : List String
  /-- The argument names that may hold the target of a delegation, the first choice first. -/
  targetKeys : List String
deriving DecidableEq, Repr

namespace Options

/-- The key of an agent that is missing or blank, unless told otherwise. -/
def defaultSentinel : String := "unknown"

/-- The tools that delegate, unless told otherwise. -/
def defaultDelegationTools : List String :=
  ["delegate", "delegate_task", "spawn_agent", "spawn_subagent", "Task"]

/-- The argument names for a target, unless told otherwise. -/
def defaultTargetKeys : List String :=
  ["agent_id", "agentId", "target_agent_id", "targetAgentId", "agent", "subagent_type"]

/-- The argument names for an objective. -/
def objectiveKeys : List String := ["objective", "task", "prompt", "description"]

instance : Inhabited Options := ⟨⟨defaultSentinel, defaultDelegationTools, defaultTargetKeys⟩⟩

/-- Whether a tool delegates. -/
def isDelegationTool (o : Options) (name : String) : Bool :=
  o.delegationTools.any fun tool ↦ Text.sameButCase tool (Text.trim name)

/-- The key of an agent: its trimmed name, or the sentinel when that is missing or blank. -/
def agentKey (o : Options) (name : Option String) : String :=
  (name.bind Text.nonBlank?).getD o.sentinel

/-- The first argument that is a text and not blank, trimmed. -/
def firstText? (keys : List String) (arguments : Json) : Option String :=
  keys.findSome? fun key ↦ ((arguments.get? key).bind Json.string?).bind Text.nonBlank?

/-- The target that the arguments of a delegating call name. -/
def target? (o : Options) (arguments : Json) : Option String := firstText? o.targetKeys arguments

/-- The objective that the arguments of a delegating call name. -/
def objective? (arguments : Json) : Option String := firstText? objectiveKeys arguments

end Options

end SessionReplay
