import SessionReplay.Json.Value
import SessionReplay.Options
import SessionReplay.Report.Basic
import SessionReplay.Text.Basic
import SessionReplay.Toml.Printer

/-!
# Settings

The settings of the command line. Every setting has a default, so a file may hold any part of them.

## Reading and repairing

Reading is strict about types: a setting of a wrong type is a mistake. It is lenient about the rest,
and `Settings.repair` then brings values that would be of no use into a usable form. Repairs are a
list of partial functions: each gives new settings or finds nothing to do.
-/

namespace SessionReplay

/-- The format of reports as a settings file names it. -/
inductive FormatSetting
  | text
  | json
  /-- A word that names no format. -/
  | unknown
deriving DecidableEq, Repr

namespace FormatSetting

/-- The format that a word names. -/
def ofWord : String → FormatSetting
  | "text" | "plain" | "pretty" => .text
  | "json" | "jsonl" | "ndjson" => .json
  | _ => .unknown

/-- The word for a format. -/
def word : FormatSetting → String
  | .text => "text"
  | .json => "json"
  | .unknown => "unknown"

/-- The format of reports. -/
def format : FormatSetting → Report.Format
  | .json => .json
  | _ => .text

end FormatSetting

/-- The settings of the command line. -/
structure Settings where
  /-- The key of agents without a name. -/
  sentinel : String
  /-- The names of tools that delegate; none means the usual ones. -/
  delegationTools : List String
  /-- The argument names that may hold a target; none means the usual ones. -/
  targetKeys : List String
  /-- The milliseconds between two looks at a log that is watched. -/
  tickInterval : Nat
  /-- What is written to the diagnostic log. -/
  filter : String
  format : FormatSetting
deriving DecidableEq, Repr

namespace Settings

/-- The milliseconds between two looks, unless told otherwise. -/
def defaultTick : Nat := 1000

/-- What is written to the diagnostic log, unless told otherwise. -/
def defaultFilter : String := "warn"

instance : Inhabited Settings :=
  ⟨⟨Options.defaultSentinel, [], [], defaultTick, defaultFilter, .text⟩⟩

/-- The options of a replay. -/
def options (s : Settings) : Options where
  sentinel := s.sentinel
  delegationTools :=
    if s.delegationTools = [] then Options.defaultDelegationTools else s.delegationTools
  targetKeys := if s.targetKeys = [] then Options.defaultTargetKeys else s.targetKeys

/-! ## Reading -/

/-- The value of a section's field. A section is a table, or an array of the values of its first
fields in order. -/
def field? (names : List String) : Toml.Value → Option (String → Option Toml.Value)
  | .table fields => some fun name ↦ fields.lookup name
  | .array items =>
    if items.length ≤ names.length then some fun name ↦ (names.zip items).lookup name else none
  | _ => none

/-- The text of a text; a date or a time is a text too. -/
def text? : Toml.Value → Option String
  | .string s => some s
  | .datetime s => some s
  | _ => none

/-- The texts of an array of texts. -/
def texts? : Toml.Value → Option (List String)
  | .array items => items.mapM text?
  | _ => none

/-- The number of a whole number that is not negative. -/
def natural? (v : Toml.Value) : Option Nat :=
  v.integer?.bind fun n ↦ if 0 ≤ n then some n.toNat else none

/-- The format of a word, or of a table with that word alone and nothing under it. -/
def format? : Toml.Value → Option FormatSetting
  | .string s => some (.ofWord s)
  | .table [(s, .table [])] => some (.ofWord s)
  | .table [(s, .array [])] => some (.ofWord s)
  | _ => none

/-- A field that has a value when it is missing. -/
def withDefault? {α : Type} (v : Option Toml.Value) (read : Toml.Value → Option α) (missing : α) :
    Option α :=
  match v with
  | some v => read v
  | none => some missing

/-- The sections and their fields, in order. -/
def sectionNames : List String := ["engine", "timer", "log", "output"]

/-- The settings that a document holds. -/
def ofToml? (root : Toml.Value) : Option Settings := do
  let default : Settings := default
  let sections ← field? sectionNames root
  let empty := Toml.Value.table []
  let engine ← field? ["sentinel_agent_id", "delegation_tools", "target_agent_keys"]
    ((sections "engine").getD empty)
  let sentinel ← withDefault? (engine "sentinel_agent_id") text? default.sentinel
  let delegationTools ← withDefault? (engine "delegation_tools") texts? default.delegationTools
  let targetKeys ← withDefault? (engine "target_agent_keys") texts? default.targetKeys
  let timer ← field? ["tick_interval_ms"] ((sections "timer").getD empty)
  let tickInterval ← withDefault? (timer "tick_interval_ms") natural? default.tickInterval
  let log ← field? ["filter"] ((sections "log").getD empty)
  let filter ← withDefault? (log "filter") text? default.filter
  let output ← field? ["format"] ((sections "output").getD empty)
  let format ← withDefault? (output "format") format? default.format
  some { sentinel, delegationTools, targetKeys, tickInterval, filter, format }

/-! ## Repairing -/

/-- The interval that older files keep in a place of its own, if there is no section for the
timer. -/
def formerTick? (root : Option Toml.Value) : Option Nat :=
  if (root.bind fun r ↦ r.get? "timer").isSome then none
  else ((root.bind fun r ↦ r.get? "watch").bind fun w ↦ w.get? "interval_ms").bind natural?

/-- Takes the interval from its former place. -/
def takeFormerTick (root : Option Toml.Value) (s : Settings) : Option Settings :=
  (formerTick? root).map fun tick ↦ { s with tickInterval := tick }

/-- Replaces an interval of nothing. -/
def repairTick (s : Settings) : Option Settings :=
  if s.tickInterval = 0 then some { s with tickInterval := defaultTick } else none

/-- Trims the sentinel, and replaces a blank one. -/
def repairSentinel (s : Settings) : Option Settings :=
  match Text.nonBlank? s.sentinel with
  | none => some { s with sentinel := Options.defaultSentinel }
  | some trimmed => if trimmed = s.sentinel then none else some { s with sentinel := trimmed }

/-- Names trimmed, without the blank ones, each only where it first occurs. -/
def cleanNames (names : List String) : List String := (names.filterMap Text.nonBlank?).eraseDups

/-- Cleans the names of delegating tools. -/
def repairTools (s : Settings) : Option Settings :=
  let names := cleanNames s.delegationTools
  if names = s.delegationTools then none else some { s with delegationTools := names }

/-- Cleans the argument names. -/
def repairKeys (s : Settings) : Option Settings :=
  let names := cleanNames s.targetKeys
  if names = s.targetKeys then none else some { s with targetKeys := names }

/-- Replaces a format that is none. -/
def repairFormat (s : Settings) : Option Settings :=
  if s.format = .unknown then some { s with format := .text } else none

/-- Replaces a blank filter. -/
def repairFilter (s : Settings) : Option Settings :=
  match Text.nonBlank? s.filter with
  | none => some { s with filter := defaultFilter }
  | some _ => none

/-- All repairs, in order. -/
def repairs (root : Option Toml.Value) : List (Settings → Option Settings) :=
  [takeFormerTick root, repairTick, repairSentinel, repairTools, repairKeys, repairFormat,
    repairFilter]

/-- Settings brought into a usable form, and whether a repair found something to do. -/
def repair (root : Option Toml.Value) (s : Settings) : Settings × Bool :=
  (repairs root).foldl (fun (s, changed) r ↦
    match r s with
    | some s => (s, true)
    | none => (s, changed)) (s, false)

/-- The usable settings of a document. -/
def load? (root : Toml.Value) : Option Settings :=
  (ofToml? root).map fun s ↦ (s.repair (some root)).1

/-! ## Writing -/

/-- Settings as a record. -/
def toJson (s : Settings) : Json := .object [
  ("engine", .object [
    ("sentinel_agent_id", .string s.sentinel), ("delegation_tools", .strings s.delegationTools),
    ("target_agent_keys", .strings s.targetKeys)]),
  ("timer", .object [("tick_interval_ms", .int s.tickInterval)]),
  ("log", .object [("filter", .string s.filter)]),
  ("output", .object [("format", .string s.format.word)])]

/-- Settings as sections, with the names that are in force. -/
def sections (s : Settings) : List Toml.Section := [
  ⟨"engine", [
    ("sentinel_agent_id", .text s.sentinel), ("delegation_tools", .texts s.options.delegationTools),
    ("target_agent_keys", .texts s.options.targetKeys)]⟩,
  ⟨"timer", [("tick_interval_ms", .number s.tickInterval)]⟩,
  ⟨"log", [("filter", .text s.filter)]⟩,
  ⟨"output", [("format", .text s.format.word)]⟩]

/-- Settings as the text of a settings file. -/
def render (s : Settings) : String := Toml.render s.sections

end Settings

end SessionReplay
