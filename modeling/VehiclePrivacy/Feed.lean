import VehiclePrivacy.Sanitizer

/-!
# A feed of messages

A feed has one message a line. Retained messages are written one a line, and all are counted by what
became of them. A line ends behind its line feed; blank lines are no messages, and a line that is no
UTF-8 is a message that cannot be read.
-/

namespace VehiclePrivacy

/-- How many messages came, by what became of them, and how many octets were written. -/
structure Tally where
  processed : Nat := 0
  retained : Nat := 0
  suppressed : Nat := 0
  speed : Nat := 0
  geoposition : Nat := 0
  parse : Nat := 0
  missing : Nat := 0
  other : Nat := 0
  octetsOut : Nat := 0
  deriving DecidableEq, Repr

namespace Tally

/-- Counts a message. -/
def record (t : Tally) (verdict : Verdict) : Tally :=
  let t := { t with processed := t.processed + 1 }
  match verdict with
  | .success => { t with retained := t.retained + 1 }
  | .speed => { t with suppressed := t.suppressed + 1, speed := t.speed + 1 }
  | .geoposition => { t with suppressed := t.suppressed + 1, geoposition := t.geoposition + 1 }
  | .parse => { t with suppressed := t.suppressed + 1, parse := t.parse + 1 }
  | .missing => { t with suppressed := t.suppressed + 1, missing := t.missing + 1 }
  | .other => { t with suppressed := t.suppressed + 1, other := t.other + 1 }

/-- The number of messages with a verdict. -/
def count (t : Tally) : Verdict → Nat
  | .success => t.retained
  | .speed => t.speed
  | .geoposition => t.geoposition
  | .parse => t.parse
  | .missing => t.missing
  | .other => t.other

end Tally

namespace Feed

/-- The line feed. -/
def lineFeed : UInt8 := 10

/-- The lines of some octets, each with its line feed; the last one may be without. -/
def lines (octets : List UInt8) : List (List UInt8) :=
  octets.foldr (fun b ls =>
    if b = lineFeed then [b] :: ls
    else match ls with
      | [] => [[b]]
      | l :: more => (b :: l) :: more) []

/-- Where messages come from. -/
structure Source where
  octets : List UInt8
  /-- Why reading fails behind the octets, if it does. -/
  failure : Option String := none

/-- Where messages go to. -/
structure Sink where
  /-- How many octets there is room for, if room is limited. -/
  room : Option Nat := none
  /-- Why the last flush fails, if it does. -/
  flushFailure : Option String := none

/-- Why a run fails. -/
inductive Error where
  | readFailed (cause : String)
  | writeFailed (cause : String)
  | flushFailed (cause : String)
  deriving DecidableEq, Repr

/-- The error in words, the outermost first. -/
def Error.messages : Error → List String
  | readFailed cause => ["failed to read message stream", cause]
  | writeFailed cause => ["failed to write retained message", cause]
  | flushFailed cause => ["failed to flush output", cause]

/-- The error of a sink without room. -/
def noRoom : Error := .writeFailed "failed to write whole buffer"

/-- The lines of a source that are read completely: a line that breaks off is not. -/
def Source.completeLines (s : Source) : List (List UInt8) :=
  match s.failure with
  | none => lines s.octets
  | some _ => (lines s.octets).filter fun l => l.getLast? = some lineFeed

/-- A run under way: the sanitizer, the counts, and what was written, last first. -/
structure Run where
  sanitizer : Sanitizer
  tally : Tally := {}
  written : List (List UInt8) := []
  size : Nat := 0
  error : Option Error := none

namespace Run

/-- Writes octets as far as there is room. -/
def write (r : Run) (sink : Sink) (octets : List UInt8) : Run :=
  match sink.room with
  | none => { r with written := octets :: r.written, size := r.size + octets.length }
  | some room =>
    let fitting := octets.take (room - r.size)
    { r with
      written := fitting :: r.written
      size := r.size + fitting.length
      error := if fitting.length < octets.length then some noRoom else none }

/-- The message of a line, without its line break; a blank line has none. -/
def message? (text : String) : Option String :=
  let m := Text.dropEndWhile (fun c => c = '\n' || c = '\r') text.toList
  if m.all Text.isBlank then none else some (String.ofList m)

/-- Counts the message at hand by what became of it. -/
def countMessage (r : Run) : Run := { r with tally := r.tally.record r.sanitizer.verdict }

/-- Takes in one message, and writes it if it is retained. -/
def message (sink : Sink) (r : Run) (m : String) : Run :=
  let s := (r.sanitizer.receive m).2
  if s.verdict.retains then
    let (text, s) := s.emit
    let octets := text.toUTF8.data.toList ++ [lineFeed]
    let r := { r with sanitizer := s }.write sink octets
    match r.error with
    | some _ => r
    | none =>
      let octetsOut := r.tally.octetsOut + octets.length
      { r with tally := { r.tally with octetsOut } }.countMessage
  else { r with sanitizer := s }.countMessage

/-- Takes in one line, unless the run has failed already. -/
def line (sink : Sink) (r : Run) (octets : List UInt8) : Run :=
  match r.error with
  | some _ => r
  | none =>
    match String.fromUTF8? octets.toByteArray with
    | none => { r with tally := r.tally.record .parse }
    | some text =>
      match message? text with
      | none => r
      | some m => r.message sink m

/-- The end of the source: reading may fail, else the sink is flushed. -/
def finish (source : Source) (sink : Sink) (r : Run) : Run :=
  match r.error, source.failure, sink.flushFailure with
  | some _, _, _ => r
  | none, some cause, _ => { r with error := some (.readFailed cause) }
  | none, none, some cause => { r with error := some (.flushFailed cause) }
  | none, none, none => r

/-- What was written. -/
def output (r : Run) : List UInt8 := r.written.reverse.flatten

/-- The counts, or the error that ended the run. -/
def outcome (r : Run) : Except Error Tally :=
  match r.error with
  | some e => .error e
  | none => .ok r.tally

end Run

/-- Gives all messages of a source to a sanitizer and writes the retained ones to a sink. -/
def run (s : Sanitizer) (source : Source) (sink : Sink) : Run :=
  (source.completeLines.foldl (Run.line sink) { sanitizer := s }).finish source sink

end Feed

end VehiclePrivacy
