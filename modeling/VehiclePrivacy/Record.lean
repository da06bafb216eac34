import VehiclePrivacy.Geo.Point
import VehiclePrivacy.Json.Path

/-!
# What is known of a message

The record holds the fields of a safety message that the filters and the redaction ask for, and the
places in the message where those stand that may be redacted.
-/

namespace VehiclePrivacy

/-- The fields of one message. -/
structure Record where
  id : Option String := none
  latitude : Option Float := none
  longitude : Option Float := none
  speed : Option Float := none
  width : Option Float := none
  length : Option Float := none
  /-- Where the id stands. -/
  idAt : Option Json.Path := none
  /-- Where the width stands. -/
  widthAt : Option Json.Path := none
  /-- Where the length stands. -/
  lengthAt : Option Json.Path := none
  /-- Where the part II block stands. -/
  partIIAt : Option Json.Path := none
  deriving DecidableEq

/-- The position, once both coordinates are known. -/
def Record.position (r : Record) : Option Point :=
  match r.latitude, r.longitude with
  | some lat, some lon => some ⟨lat, lon⟩
  | _, _ => none

end VehiclePrivacy
