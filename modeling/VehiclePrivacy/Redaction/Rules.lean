import VehiclePrivacy.Record
import VehiclePrivacy.Redaction.Pseudonym
import VehiclePrivacy.Redaction.MemberList
import VehiclePrivacy.Redaction.Dimensions

/-!
# Redacting a message

The rules for ids, dimensions and part II blocks, and how they change a message that was read. Each
rule writes to the place that the record names. The record keeps what is true of the message
afterwards, also when a later rule fails.
-/

namespace VehiclePrivacy

/-- What is redacted, and how. -/
structure Rules where
  id : IdRule := {}
  partII : MemberList := {}
  size : SizeRule := {}
  deriving DecidableEq

/-- Why a message is not redacted. -/
inductive RedactionError where
  /-- The part II block is neither an array nor an object. -/
  | notABlock (pointer : String)
  /-- A place of the record is not in the message. -/
  | noSuchPlace (pointer : String)
  deriving DecidableEq, Repr

/-- The error in words. -/
def RedactionError.message : RedactionError → String
  | notABlock pointer =>
    "unexpected value at '" ++ pointer ++ "': expected array or object"
  | noSuchPlace pointer =>
    "redaction target '" ++ pointer ++ "' is no longer present"

/-- A message under redaction. -/
structure Draft where
  tree : Json
  record : Record
  entropy : StdGen

namespace Draft

/-- A draft, and the error that ended its redaction, if any. -/
abbrev Result := Draft × Option RedactionError

/-- Goes on unless there was an error. -/
def Result.andThen (r : Result) (f : Draft → Result) : Result :=
  match r with
  | (d, none) => f d
  | (d, some e) => (d, some e)

/-- Puts a value at a place of the message and then changes the record. -/
def put (d : Draft) (p : Json.Path) (v : Json) (note : Record → Record) : Result :=
  match d.tree.set? p v with
  | some tree => ({ d with tree, record := note d.record }, none)
  | none => (d, some (.noSuchPlace p.pointer))

/-- Overwrites the recorded id, if the rule applies to it. -/
def redactId (r : IdRule) (d : Draft) : Result :=
  match d.record.id, d.record.idAt with
  | some id, some p =>
    match r.redact? id d.entropy with
    | (none, _) => (d, none)
    | (some text, entropy) =>
      { d with entropy }.put p (.string text) ({ · with id := some text })
  | _, _ => (d, none)

/-- Overwrites the recorded width. -/
def redactWidth (r : SizeRule) (d : Draft) : Result :=
  match d.record.widthAt with
  | some p => d.put p r.value ({ · with width := some r.number })
  | none => (d, none)

/-- Overwrites the recorded length. -/
def redactLength (r : SizeRule) (d : Draft) : Result :=
  match d.record.lengthAt with
  | some p => d.put p r.value ({ · with length := some r.number })
  | none => (d, none)

/-- Takes the listed members out of the recorded part II block. -/
def redactPartII (l : MemberList) (d : Draft) : Result :=
  match d.record.partIIAt with
  | none => (d, none)
  | some p =>
    match d.tree.get? p with
    | none => (d, some (.noSuchPlace p.pointer))
    | some block =>
      match l.redact? block with
      | none => (d, some (.notABlock p.pointer))
      | some (block, _) => d.put p block id

end Draft

/-- Redacts a message by the rules, its id first, then its dimensions, then part II. -/
def Rules.redact (r : Rules) (ids sizes partII : Bool) (d : Draft) : Draft.Result :=
  let keep (d : Draft) : Draft.Result := (d, none)
  let redactSize (d : Draft) : Draft.Result :=
    (d.redactWidth r.size).andThen (·.redactLength r.size)
  ((if ids then d.redactId r.id else keep d).andThen
    fun d => if sizes then redactSize d else keep d).andThen
    fun d => if partII then d.redactPartII r.partII else keep d

end VehiclePrivacy
