import VehiclePrivacy.Json.Decode
import VehiclePrivacy.Json.Printer

/-!
# Accepted speeds

Messages of vehicles that are nearly at rest, or faster than roads allow, are held back. The limits
themselves are accepted.
-/

namespace VehiclePrivacy

/-- The accepted speeds, in meters per second. -/
structure SpeedRange where
  min : Float := 2.235
  max : Float := 35.763
  deriving DecidableEq

namespace SpeedRange

/-- Whether a speed is accepted; NaN never is. -/
def accepts (r : SpeedRange) (speed : Float) : Bool := r.min ≤ speed && speed ≤ r.max

/-- The range as JSON. -/
def toJson (r : SpeedRange) : Json :=
  .object [("min", .ofFloat r.min), ("max", .ofFloat r.max)]

/-- The limits as they come. -/
structure Parts where
  min : Option Float := none
  max : Option Float := none

/-- Takes in a limit. -/
def Parts.field (name : String) (p : Parts) : Json.Decoder Parts := fun ts => do
  let t ← Json.Decoder.float ts
  let p := if name = "min" then { p with min := some t.value } else { p with max := some t.value }
  return ⟨p, t.rest, t.shorter⟩

/-- The range, if no limit is missing. -/
def Parts.finish (p : Parts) : Option SpeedRange := do return ⟨← p.min, ← p.max⟩

/-- Reads a range. -/
def decoder : Json.Decoder SpeedRange :=
  Json.Decoder.record ["min", "max"] Parts.field {} Parts.finish

end SpeedRange

end VehiclePrivacy
