import VehiclePrivacy.Redaction.Rules
import VehiclePrivacy.Screening
import VehiclePrivacy.Settings.Basic

/-!
# The life of a message

A sanitizer takes one message after the other. `receive` screens a message and redacts it if it is
retained, and `emit` gives the redacted text. Each call of `receive` forgets the message before;
what stays is the settings and which capabilities are active.

A message that is rejected still leaves its record, one that cannot be read leaves nothing.
-/

namespace VehiclePrivacy

namespace Sanitizer

/-- Where a sanitizer stands. -/
inductive Phase where
  /-- No message yet. -/
  | idle
  /-- A message is being read. -/
  | reading
  /-- The message is held back. -/
  | rejected (verdict : Verdict)
  /-- The message is retained and redacted. -/
  | redacted
  /-- The message is retained and its text was asked for. -/
  | emitted
  /-- The message could not be read. -/
  | unreadable
  deriving DecidableEq, Repr

end Sanitizer

/-- Settings, active capabilities, and the message at hand. -/
structure Sanitizer where
  active : Activation
  speeds : SpeedRange
  /-- Whether a position is in the geofence. -/
  within : Point → Bool
  rules : Rules
  /-- The buffer distance of the geofence in meters. -/
  buffer : Float
  /-- Where random pseudonyms come from. -/
  entropy : StdGen
  phase : Sanitizer.Phase := .idle
  verdict : Verdict := .success
  record : Record := {}
  /-- The position of this message that the geofence was asked about. -/
  asked : Option Point := none
  /-- The redacted message, if it is retained. -/
  tree : Option Json := none
  /-- The text that was given out for this message, if it was asked for. -/
  output : Option String := none

namespace Sanitizer

/-- A sanitizer for some settings, without a message. -/
def ofSettings (s : Settings) (within : Point → Bool) (entropy : StdGen) : Sanitizer where
  active := s.active
  speeds := s.speeds
  within
  rules := s.rules
  buffer := s.geofence.buffer
  entropy

/-- What a message must satisfy. -/
def filters (s : Sanitizer) : Filters := ⟨s.active, s.speeds, s.within⟩

/-- Whether a capability is active. -/
def isActive (s : Sanitizer) (c : Capability) : Bool := s.active.has c

/-- Turns a capability on, from the next message. -/
def activate (s : Sanitizer) (c : Capability) : Sanitizer :=
  { s with active := s.active.insert c }

/-- Turns a capability off, from the next message. -/
def deactivate (s : Sanitizer) (c : Capability) : Sanitizer :=
  { s with active := s.active.erase c }

/-- Forgets the message and reads another one. -/
def reset (s : Sanitizer) : Sanitizer :=
  { s with
    phase := .reading, verdict := .success, record := {}, asked := none, tree := none,
    output := none }

/-- Gives a message up that cannot be read. -/
def giveUp (s : Sanitizer) : Sanitizer :=
  { s with record := {}, verdict := .parse, phase := .unreadable }

/-- Holds a message back; a reason that is already known stands. -/
def reject (s : Sanitizer) (reason : Verdict) : Sanitizer :=
  let verdict := if s.verdict.retains then reason else s.verdict
  { s with verdict, phase := .rejected verdict }

/-- Redacts a message that was read completely. -/
def redact (s : Sanitizer) (tree : Json) : Sanitizer :=
  let r := s.rules.redact (s.isActive .idRedaction) (s.isActive .sizeRedaction)
    (s.isActive .partIIRedaction) ⟨tree, s.record, s.entropy⟩
  let s := { s with record := r.1.record, entropy := r.1.entropy, phase := .redacted }
  match r.2 with
  | none => { s with tree := some r.1.tree }
  | some _ => s.reject .other

/-- Takes in what the screening of a message has found. -/
def conclude (s : Sanitizer) (screened : Screening × Json.Outcome) : Bool × Sanitizer :=
  let (found, outcome) := screened
  match outcome with
  | .fault _ => (false, { s with asked := found.asked }.giveUp)
  | .stopped =>
    (true, { s with asked := found.asked, record := found.record }.reject found.verdict)
  | .value tree =>
    let found := found.finish s.filters
    let s := { s with asked := found.asked, record := found.record }
    if found.verdict.retains then (true, s.redact tree) else (true, s.reject found.verdict)

/-- Whether a message spans several lines. -/
def hasLineBreak (message : String) : Bool :=
  message.toList.any fun c => c = '\n' || c = '\r'

/-- Takes in one message without line breaks. The answer is false only if it cannot be read as one
JSON object; whether it is retained is told by `verdict`. -/
def receive (s : Sanitizer) (message : String) : Bool × Sanitizer :=
  let s := s.reset
  if hasLineBreak message then (false, s.giveUp)
  else s.conclude (Screening.read s.filters message)

/-- The redacted message as one line of text, or nothing if it is not retained. -/
def emit (s : Sanitizer) : String × Sanitizer :=
  match s.output with
  | some text => (text, s)
  | none =>
    match s.tree with
    | some tree =>
      if s.verdict.retains then
        (tree.render, { s with output := some tree.render, phase := .emitted })
      else ("", { s with output := some "" })
    | none => ("", { s with output := some "" })

/-- The octets that the redacted message takes. -/
def emittedSize (s : Sanitizer) : Nat × Sanitizer :=
  let (text, s) := s.emit
  (text.utf8ByteSize, s)

/-- Takes the listed members out of any part II block, and counts the names that were there. -/
def redactBlock (s : Sanitizer) (block : Json) : Except RedactionError (Json × Nat) :=
  match s.rules.partII.redact? block with
  | some r => .ok r
  | none => .error (.notABlock ((s.record.partIIAt.map Json.Path.pointer).getD ""))

end Sanitizer

end VehiclePrivacy
