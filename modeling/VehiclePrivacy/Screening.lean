import VehiclePrivacy.Decimal.Literal
import VehiclePrivacy.Capability
import VehiclePrivacy.Json.Printer
import VehiclePrivacy.Json.Reader
import VehiclePrivacy.Record
import VehiclePrivacy.Verdict
import VehiclePrivacy.SpeedRange

/-!
# Screening a message while it is read

The screening listens to the reader and notes the recognised fields as they come. A filter decides
the moment it has what it needs, and a message that is rejected is not read any further.

A field is recognised by the name of its member (`Field.names`), anywhere in the message except
below a member `metadata` or `partII`. Its first value that is not `null` counts. Numeric fields may
also be written as strings; a recognised field of another kind rejects the message.
-/

namespace VehiclePrivacy

/-- A field of a message that is recognised. -/
inductive Field where
  | id
  | latitude
  | longitude
  | speed
  | width
  | length
  | partII
  deriving DecidableEq, Repr

namespace Field

/-- The field that a member name stands for. -/
def named? (n : String) : Option Field :=
  if n = "id" then some id
  else if n = "latitude" || n = "lat" then some latitude
  else if n = "longitude" || n = "lon" || n = "long" then some longitude
  else if n = "speed" then some speed
  else if n = "width" then some width
  else if n = "length" then some length
  else if n = "partII" then some partII
  else none

/-- The names of the members that hold a field. -/
def names : Field → List String
  | id => ["id"]
  | latitude => ["latitude", "lat"]
  | longitude => ["longitude", "lon", "long"]
  | speed => ["speed"]
  | width => ["width"]
  | length => ["length"]
  | partII => ["partII"]

/-- A name stands for a field if it is one of the field's names, and for nothing else. -/
theorem named?_eq_some_iff {n : String} {field : Field} :
    named? n = some field ↔ n ∈ field.names := by
  constructor
  · intro h
    unfold named? at h
    repeat' split at h
    all_goals cases h
    all_goals simp_all [names, or_assoc]
  · intro h
    cases field
    all_goals
      simp only [names, List.mem_cons, List.not_mem_nil, or_false] at h
      rcases h with rfl | rfl | rfl
    all_goals rfl

/-- Whether nothing is recognised below a member of that name. -/
def isOpaque (n : String) : Bool := n = "metadata" || n = "partII"

theorem isOpaque_iff {n : String} : isOpaque n = true ↔ n = "metadata" ∨ n = "partII" := by
  rw [isOpaque, Bool.or_eq_true, decide_eq_true_eq, decide_eq_true_eq]

/-- Whether a step goes below a member where nothing is recognised. -/
def hides : Json.Step → Bool
  | .name n => isOpaque n
  | .index _ => false

/-- The field that stands at a path, if one is recognised there. -/
def at? (p : Json.Path) : Option Field :=
  if p.dropLast.any hides then none
  else match p.getLast? with
    | some (.name n) => named? n
    | _ => none

end Field

/-- What a message must satisfy to be retained. -/
structure Filters where
  active : Activation
  speeds : SpeedRange
  /-- Whether a position is in the geofence. -/
  within : Point → Bool

/-- What has been found out about a message. -/
structure Screening where
  record : Record := {}
  /-- The position that the geofence was asked about. -/
  asked : Option Point := none
  verdict : Verdict := .success

namespace Screening

/-- Rejects the message. -/
def reject (s : Screening) (verdict : Verdict) : Screening := { s with verdict }

/-- Changes the record. -/
def note (s : Screening) (f : Record → Record) : Screening := { s with record := f s.record }

/-- Whether a field has its value. -/
def has (s : Screening) : Field → Bool
  | .id => s.record.id.isSome
  | .latitude => s.record.latitude.isSome
  | .longitude => s.record.longitude.isSome
  | .speed => s.record.speed.isSome
  | .width => s.record.width.isSome
  | .length => s.record.length.isSome
  | .partII => s.record.partIIAt.isSome

/-- The number that a scalar says: a number or a numeric string, and finite. -/
def finite? (v : Scalar) : Option Float :=
  let number := match v with
    | .number n => some n.toFloat
    | .string t => Decimal.read? (Text.trim t)
    | _ => none
  number.filter Float.isFinite

/-- Asks the geofence once both coordinates are known, and no second time. -/
def checkPosition (f : Filters) (s : Screening) : Screening :=
  match s.asked, s.record.position with
  | none, some p =>
    if f.active.has .positionFilter then
      let s := { s with asked := some p }
      if f.within p then s else s.reject .geoposition
    else s
  | _, _ => s

/-- Takes in the number of a numeric field. -/
def hearNumber (f : Filters) (field : Field) (p : Json.Path) (x : Float) (s : Screening) :
    Screening :=
  match field with
  | .speed =>
    let s := s.note ({ · with speed := some x })
    if f.active.has .speedFilter && !f.speeds.accepts x then s.reject .speed else s
  | .latitude => (s.note ({ · with latitude := some x })).checkPosition f
  | .longitude => (s.note ({ · with longitude := some x })).checkPosition f
  | .width => s.note ({ · with width := some x, widthAt := some p })
  | .length => s.note ({ · with length := some x, lengthAt := some p })
  | .id | .partII => s

/-- Takes in the value of a field that has none yet. -/
def hearField (f : Filters) (field : Field) (p : Json.Path) (h : Json.Head) (s : Screening) :
    Screening :=
  match field, h with
  | .partII, _ => s.note ({ · with partIIAt := some p })
  | _, .opening _ => s.reject .other
  | _, .scalar .null => s
  | .id, .scalar (.string t) => s.note ({ · with id := some t, idAt := some p })
  | .id, .scalar v => s.note ({ · with id := some (Json.scalarText v), idAt := some p })
  | field, .scalar v =>
    match finite? v with
    | some x => s.hearNumber f field p x
    | none => s.reject .other

/-- Takes in a value of the message. -/
def hear (f : Filters) (s : Screening) (p : Json.Path) (h : Json.Head) : Screening :=
  match Field.at? p with
  | none => s
  | some field => if s.has field then s else s.hearField f field p h

/-- The screening as a listener: a rejected message is not read any further. -/
def listener (f : Filters) : Json.Listener Screening where
  hear := hear f
  stop s := !s.verdict.retains

/-- At the end of a message: an active filter that never got its field rejects it. -/
def finish (f : Filters) (s : Screening) : Screening :=
  if !s.verdict.retains then s
  else if f.active.has .speedFilter && s.record.speed.isNone then s.reject .missing
  else if f.active.has .positionFilter && s.record.position.isNone then s.reject .missing
  else s

/-- What is asked of a message as a text. -/
def demands : Json.Demands := ⟨true, true⟩

/-- Reads a message and screens it on the way. -/
def read (f : Filters) (message : String) : Screening × Json.Outcome :=
  Json.read demands (listener f) {} message

end Screening

end VehiclePrivacy
