import SessionReplay.Command.Arguments
import SessionReplay.Command.Failure
import SessionReplay.Log
import SessionReplay.Settings
import SessionReplay.Toml.Document

/-!
# Running commands

What a command writes and how it ends, as a function of its arguments and of what it can see: the
files, the home directory and the clock.
-/

namespace SessionReplay

/-- What a command can see. -/
structure Environment where
  /-- What is in the file at a path. -/
  read : String → Except Fault (List UInt8)
  home : Option String
  now : Instant

/-- What a command writes and how it ends. -/
structure Outcome where
  output : String
  errors : String
  exit : UInt8
  /-- The milliseconds after which the command is to be carried out once more. -/
  again : Option Nat
deriving DecidableEq, Repr

namespace Command

/-! ## Settings -/

/-- A path within a directory. -/
def joinPath (directory file : String) : String :=
  if directory = "" then file
  else if directory.endsWith "/" then directory ++ file
  else directory ++ "/" ++ file

/-- Where the settings file stands unless another one is named. -/
def settingsPath (home : String) : String := joinPath home ".config/agentlens/agentlens.toml"

/-- The settings of a file. -/
def readSettings (env : Environment) (path : String) : Except Failure Settings :=
  match env.read path with
  | .error fault => .error (.cannotReadSettings path fault)
  | .ok bytes =>
    match String.fromUTF8? bytes.toByteArray with
    | none => .error (.cannotReadSettings path .notText)
    | some text =>
      match Toml.Value.read? text with
      | none => .error (.cannotParseSettings path)
      | some root =>
        match Settings.load? root with
        | some s => .ok s
        | none => .error (.invalidSettings path)

/-- Whether there is something at a path. -/
def isThere (env : Environment) (path : String) : Bool :=
  match env.read path with
  | .ok _ => true
  | .error fault => !fault.isAbsence

/-- The settings in force: those of the file that is named, else of the one in the home directory if
it is there, else the usual ones. -/
def loadSettings (env : Environment) (named : Option String) : Except Failure Settings :=
  match named with
  | some path => readSettings env path
  | none =>
    match env.home.map settingsPath with
    | some path => if isThere env path then readSettings env path else .ok default
    | none => .ok default

/-! ## Logs -/

/-- The contents of a log. -/
def readLog (env : Environment) (path : String) : Except Failure Log.Contents :=
  match env.read path with
  | .error fault =>
    .error (if fault.isOnOpening then .cannotOpen path fault else .cannotReadEvents path fault)
  | .ok bytes =>
    match Log.read bytes with
    | .ok contents => .ok contents
    | .error fault => .error (.cannotReadEvents path fault)

/-- The session of a log to show, and the log's events. -/
def chooseSession (path : String) (contents : Log.Contents) (requested : Option String) :
    Except Failure (String × EventStore) :=
  let store := EventStore.ofBatch contents.events
  match store.choose requested with
  | .ok session => .ok (session, store)
  | .error why => .error (.noSession path why)

/-- The warning about lines that are no events. -/
def warning (path : String) (contents : Log.Contents) : String :=
  if contents.skipped = 0 then ""
  else "Warning: skipped " ++ Report.number contents.skipped ++ " malformed line(s) in " ++ path ++
    "\n"

/-! ## Outcomes -/

/-- The outcome of a failure, after a warning. -/
def failed (before : String) (f : Failure) : Outcome :=
  ⟨"", before ++ "Error: " ++ f.message ++ "\n", 1, none⟩

/-- What a command on a session of a log does: `show_` says what to write and when to go on. -/
def onSession (env : Environment) (path : String) (requested : Option String)
    (show_ : String → EventStore → String × Option Nat) : Outcome :=
  match readLog env path with
  | .error f => failed "" f
  | .ok contents =>
    match chooseSession path contents requested with
    | .error f => failed (warning path contents) f
    | .ok (session, store) =>
      let (text, again) := show_ session store
      ⟨text, warning path contents, 0, again⟩

/-- The view of a session, with its children or alone. -/
def view (options : Options) (tree : Bool) (session : String) (store : EventStore) : SessionView :=
  if tree then .treeOfEvents session store.allEvents options
  else .ofEvents session store.allEvents none options

/-- The text that shows the settings in force. -/
def settingsText (home : String) (s : Settings) : String :=
  "# Config file: " ++ settingsPath home ++ "\n" ++ s.render

/-- Carries out a command. -/
def execute (env : Environment) (s : Settings) : Command → Outcome
  | .report subject file session format now tree =>
    onSession env file session fun session store ↦
      (Report.render (view s.options tree session store) (now.getD env.now) subject
        (format.getD s.format.format), none)
  | .watch file session interval =>
    onSession env file session fun session store ↦
      let v := view s.options false session store
      (Report.page [Report.timersLine v env.now],
        if v.needsTick then some ((interval.filter (0 < ·)).getD s.tickInterval) else none)
  | .settings =>
    match env.home with
    | some home => ⟨settingsText home s, "", 0, none⟩
    | none => failed "" .noHome

/-! ## Command lines -/

/-- The log that a command reads. -/
def logFile? : Command → Option String
  | .report _ file _ _ _ _ => some file
  | .watch file _ _ => some file
  | .settings => none

/-- The logs that a command line reads. -/
def logFiles (words : List String) : List String :=
  match Invocation.parse words with
  | .ok invocation => (logFile? invocation.command).toList
  | .error _ => []

/-- The settings files that a command line reads. -/
def settingsFiles (home : Option String) (words : List String) : List String :=
  match Invocation.parse words with
  | .ok invocation => (invocation.settingsFile.or (home.map settingsPath)).toList
  | .error _ => []

/-- How the program is used. -/
def usageText : String := Report.page [
  "Usage: agentlens [--config <FILE>] <COMMAND>",
  "",
  "Commands:",
  "  rows | turns | groups | timers <FILE> [--session <ID>] [--format text|json] [--now <MS>]" ++
    " [--tree]",
  "  watch <FILE> [--session <ID>] [--interval-ms <MS>]",
  "  config"]

/-- The outcome of a command line that runs no command. -/
def usage : Usage → Outcome
  | .help => ⟨usageText, "", 0, none⟩
  | .mistake => ⟨"", usageText, 2, none⟩

/-- Carries out a command line. -/
def run (env : Environment) (words : List String) : Outcome :=
  match Invocation.parse words with
  | .error u => usage u
  | .ok invocation =>
    match loadSettings env invocation.settingsFile with
    | .error f => failed "" f
    | .ok s => execute env s invocation.command

end Command

end SessionReplay
