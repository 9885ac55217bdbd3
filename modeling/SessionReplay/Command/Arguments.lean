import SessionReplay.Decimal.Whole
import SessionReplay.Report.Basic

/-!
# Commands

What the program can be asked to do, and the words of a command line that ask for it: options before
the command, the command, and its options and files in any order.

An option has two dashes and a name. Its value follows as the next word, which may not look like an
option itself, or after an equals sign. An option may be given once. After a word of two dashes
alone no word is an option. The option for the settings file may stand on both sides of the command,
and the one behind it counts.
-/

namespace SessionReplay

/-- What the program is to do. -/
inductive Command
  /-- Report on a session of a log. -/
  | report (subject : Report.Subject) (file : String) (session : Option String)
      (format : Option Report.Format) (now : Option Instant) (tree : Bool)
  /-- Show the timers of a session of a log over and over, until none is running. -/
  | watch (file : String) (session : Option String) (interval : Option Nat)
  /-- Show the settings in force. -/
  | settings
deriving DecidableEq, Repr

/-- A command and the settings file to use. -/
structure Invocation where
  settingsFile : Option String
  command : Command
deriving DecidableEq, Repr

/-- What the program says instead of running a command. -/
inductive Usage
  /-- Help was asked for. -/
  | help
  /-- The arguments make no sense. -/
  | mistake
deriving DecidableEq, Repr

namespace Arguments

/-- What a command may be given. -/
structure Grammar where
  /-- The options with a value, and which values each of them takes. -/
  valued : List (String × (String → Bool))
  /-- The options without a value. -/
  flags : List String
  /-- How many files there may be. -/
  files : Nat

/-- What a command was given. -/
structure Given where
  values : List (String × String)
  flags : List String
  files : List String

namespace Given

/-- Nothing. -/
def nothing : Given := ⟨[], [], []⟩

/-- The value of an option. -/
def value? (g : Given) (name : String) : Option String := g.values.lookup name

end Given

/-- The name of an option and what follows its equals sign. -/
def splitValue (word : List Char) : String × Option String :=
  let name := word.takeWhile (· ≠ '=')
  match word.drop name.length with
  | _ :: value => (String.ofList name, some (String.ofList value))
  | [] => (String.ofList name, none)

/-- Whether a word looks like an option. A dash alone does not. -/
def looksLikeOption (word : String) : Bool :=
  match word.toList with
  | '-' :: _ :: _ => true
  | _ => false

/-- Takes an option's value. -/
def takeValue (grammar : Grammar) (g : Given) (name value : String) : Except Usage Given :=
  match grammar.valued.lookup name with
  | some accepts =>
    if accepts value ∧ (g.value? name).isNone then
      .ok { g with values := (name, value) :: g.values }
    else .error .mistake
  | none => .error .mistake

/-- Takes an option without a value. -/
def takeFlag (grammar : Grammar) (g : Given) (name : String) : Except Usage Given :=
  if name = "help" then .error .help
  else if grammar.flags.contains name && !g.flags.contains name then
    .ok { g with flags := name :: g.flags }
  else .error .mistake

/-- Takes a file. -/
def takeFile (grammar : Grammar) (g : Given) (file : String) : Except Usage Given :=
  if file ≠ "" ∧ g.files.length < grammar.files then .ok { g with files := g.files ++ [file] }
  else .error .mistake

/-- A word that may be an option. -/
inductive Word
  /-- Two dashes alone. -/
  | dashes
  /-- An option, and what follows its equals sign. -/
  | option (name : String) (value : Option String)
  /-- The short form of the option for help. -/
  | shortHelp
  /-- Another option of one dash. There is none. -/
  | short
  | plain (text : String)
deriving DecidableEq, Repr

/-- What a word is. -/
def Word.of (text : String) : Word :=
  match text.toList with
  | ['-', '-'] => .dashes
  | '-' :: '-' :: rest => .option (splitValue rest).1 (splitValue rest).2
  | '-' :: 'h' :: _ => .shortHelp
  | '-' :: _ :: _ => .short
  | _ => .plain text

/-- Goes through the words after a command. -/
def scan (grammar : Grammar) (g : Given) : List String → Except Usage Given
  | [] => .ok g
  | word :: rest =>
    match Word.of word with
    | .dashes => rest.foldlM (takeFile grammar) g
    | .plain file => do scan grammar (← takeFile grammar g file) rest
    | .option name (some value) => do scan grammar (← takeValue grammar g name value) rest
    | .option name none =>
      if (grammar.valued.lookup name).isSome then
        match rest with
        | value :: rest =>
          if looksLikeOption value then .error .mistake
          else do scan grammar (← takeValue grammar g name value) rest
        | [] => .error .mistake
      else do scan grammar (← takeFlag grammar g name) rest
    | .shortHelp => .error .help
    | .short => .error .mistake

end Arguments

open Arguments

/-! ## The commands -/

/-- Whether a text is the path of a file. -/
def isPath (text : String) : Bool := text ≠ ""

/-- The instant that a text names as a number. -/
def Instant.ofDigits? (text : String) : Option Instant :=
  (Decimal.readInt? text.toList).bind fun n ↦
    if Instant.least ≤ n ∧ n ≤ Instant.greatest then some (Instant.clamp n) else none

/-- The interval that a text names as a number. -/
def interval? (text : String) : Option Nat :=
  let n := match text.toList with
    | '+' :: cs => Decimal.readNat? cs
    | cs => Decimal.readNat? cs
  n.filter (· < UInt64.size)

/-- The format that a word names. -/
def Report.Format.ofWord? : String → Option Report.Format
  | "text" => some .text
  | "json" => some .json
  | _ => none

/-- The subject that a word names. -/
def Report.Subject.ofWord? : String → Option Report.Subject
  | "rows" => some .rows
  | "turns" => some .turns
  | "groups" => some .groups
  | "timers" => some .timers
  | _ => none

/-- The option for the settings file. -/
def settingsOption : String × (String → Bool) := ("config", isPath)

/-- What a report may be given. -/
def reportGrammar : Grammar where
  valued := [settingsOption, ("session", fun _ ↦ true),
    ("format", fun s ↦ (Report.Format.ofWord? s).isSome),
    ("now", fun s ↦ (Instant.ofDigits? s).isSome)]
  flags := ["tree"]
  files := 1

/-- What watching may be given. -/
def watchGrammar : Grammar where
  valued := [settingsOption, ("session", fun _ ↦ true),
    ("interval-ms", fun s ↦ (interval? s).isSome)]
  flags := []
  files := 1

/-- What showing the settings may be given. -/
def settingsGrammar : Grammar := ⟨[settingsOption], [], 0⟩

/-- The report that was asked for. -/
def reportOf? (subject : Report.Subject) (g : Given) : Option Command :=
  g.files.head?.map fun file ↦
    .report subject file (g.value? "session") ((g.value? "format").bind Report.Format.ofWord?)
      ((g.value? "now").bind Instant.ofDigits?) (g.flags.contains "tree")

/-- The watching that was asked for. -/
def watchOf? (g : Given) : Option Command :=
  g.files.head?.map fun file ↦
    .watch file (g.value? "session") ((g.value? "interval-ms").bind interval?)

/-- What may be given to the command of a name, and what that asks for. -/
def commandOf? (name : String) : Option (Grammar × (Given → Option Command)) :=
  match Report.Subject.ofWord? name with
  | some subject => some (reportGrammar, reportOf? subject)
  | none =>
    match name with
    | "watch" => some (watchGrammar, watchOf?)
    | "config" => some (settingsGrammar, fun _ ↦ some .settings)
    | _ => none

namespace Invocation

/-- The command of a name, with the words behind it. -/
def parseCommand (settingsFile : Option String) (name : String) (words : List String) :
    Except Usage Invocation :=
  match commandOf? name with
  | some (grammar, ask) => do
    let g ← scan grammar .nothing words
    match ask g with
    | some command => .ok ⟨(g.value? "config").or settingsFile, command⟩
    | none => .error .mistake
  | none =>
    if name = "help" ∧ words.all (fun w ↦ w = "help" ∨ (commandOf? w).isSome) ∧
        words.length ≤ 1 then
      .error .help
    else .error .mistake

/-- Takes the settings file. -/
def takeSettingsFile (before : Option String) (path : String) : Except Usage (Option String) :=
  if isPath path ∧ before.isNone then .ok (some path) else .error .mistake

/-- What the words of a command line ask for, after those that name the settings file. -/
def parseAfter (settingsFile : Option String) : List String → Except Usage Invocation
  | [] => .error .mistake
  | word :: rest =>
    match Word.of word with
    | .plain name => parseCommand settingsFile name rest
    | .option "config" (some path) => do parseAfter (← takeSettingsFile settingsFile path) rest
    | .option "config" none =>
      match rest with
      | path :: rest =>
        if looksLikeOption path then .error .mistake
        else do parseAfter (← takeSettingsFile settingsFile path) rest
      | [] => .error .mistake
    | .option "help" none | .shortHelp => .error .help
    | _ => .error .mistake

/-- What a command line asks for. -/
def parse (words : List String) : Except Usage Invocation := parseAfter none words

end Invocation

end SessionReplay
