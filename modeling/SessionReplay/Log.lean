import SessionReplay.Event.Wire
import SessionReplay.Fault

/-!
# Event logs

A log is a text of lines with one event each. Reading is lenient line by line: a blank line is
passed over, and a line that is no event is counted and passed over, so that one damaged record
never hides the rest. Only bytes that are no text make the whole log unreadable.

Main statements: `lines_append` — a line that has ended is read on its own, whatever follows it.
-/

namespace SessionReplay.Log

/-! ## Lines -/

/-- The byte that ends a line. -/
def lineEnd : UInt8 := 10

/-- The lines of a log, the first of which starts with bytes that were already read. -/
def linesAfter (before : List UInt8) : List UInt8 → List (List UInt8)
  | [] => if before = [] then [] else [before.reverse]
  | b :: rest =>
    if b = lineEnd then before.reverse :: linesAfter [] rest else linesAfter (b :: before) rest

/-- The lines of a log. What follows the last line end is a line of its own unless it is empty. -/
def lines (bytes : List UInt8) : List (List UInt8) := linesAfter [] bytes

/-- What a line holds. -/
inductive Line
  | blank
  | event (e : Event)
  | malformed

/-- Reads a line that is text. -/
def Line.ofText (text : String) : Line :=
  let trimmed := Text.trim text
  if trimmed = "" then .blank
  else match Event.read? trimmed with
    | some e => .event e
    | none => .malformed

/-- Reads a line. -/
def Line.ofBytes (bytes : List UInt8) : Except Fault Line :=
  match String.fromUTF8? bytes.toByteArray with
  | some text => .ok (.ofText text)
  | none => .error .notText

/-- The event of a line that holds one. -/
def Line.event? : Line → Option Event
  | .event e => some e
  | _ => none

/-- Whether a line should hold an event and does not. -/
def Line.isMalformed : Line → Bool
  | .malformed => true
  | _ => false

/-! ## Whole logs -/

/-- What a log holds: its events in order, and how many lines are no event. -/
structure Contents where
  events : List Event
  skipped : Nat

/-- What lines hold together. -/
def Contents.ofLines (ls : List Line) : Contents :=
  ⟨ls.filterMap Line.event?, ls.countP Line.isMalformed⟩

/-- Reads a log. -/
def read (bytes : List UInt8) : Except Fault Contents :=
  ((lines bytes).mapM Line.ofBytes).map Contents.ofLines

/-- Reads a log that is text. -/
def readText (text : String) : Except Fault Contents := read text.toUTF8.toList

/-- Writes events as a log, one line each. -/
def write (events : List Event) : String :=
  String.join (events.map fun e ↦ e.toJson.render ++ "\n")

/-! ## Lines end for good -/

private theorem linesAfter_append {before bytes more : List UInt8}
    (h : bytes.getLast? = some lineEnd) :
    linesAfter before (bytes ++ more) = linesAfter before bytes ++ lines more := by
  induction bytes generalizing before with
  | nil => simp at h
  | cons b rest ih =>
    cases rest with
    | nil =>
      have hb : b = lineEnd := by simpa using h
      simp [linesAfter, hb, lines]
    | cons c rest =>
      have hr : (c :: rest).getLast? = some lineEnd := by simpa [List.getLast?_cons_cons] using h
      rw [List.cons_append, linesAfter, linesAfter]
      split
      · rw [ih hr]; rfl
      · exact ih hr

theorem lines_append {bytes more : List UInt8} (h : bytes.getLast? = some lineEnd) :
    lines (bytes ++ more) = lines bytes ++ lines more := linesAfter_append h

end SessionReplay.Log
