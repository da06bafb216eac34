import VehiclePrivacy.Geofence.Corridor
import VehiclePrivacy.Json.Decode
import VehiclePrivacy.Json.Printer
import VehiclePrivacy.Files

/-!
# Map files

A map file is a JSON array of segments. A segment and a position may each be an object or the array
of their fields; the classification of the road may be left out or `null`.
-/

namespace VehiclePrivacy

open Json (Decoder)

namespace Point

/-- The fields of a position as they come. -/
structure Parts where
  lat : Option Float := none
  lon : Option Float := none

/-- Takes in a field of a position. -/
def Parts.field (name : String) (p : Parts) : Decoder Parts := fun ts => do
  let t ← Decoder.float ts
  let p := if name = "lat" then { p with lat := some t.value } else { p with lon := some t.value }
  return ⟨p, t.rest, t.shorter⟩

/-- The position, if no field is missing. -/
def Parts.finish (p : Parts) : Option Point := do return ⟨← p.lat, ← p.lon⟩

/-- Reads a position. -/
def decoder : Decoder Point := Decoder.record ["lat", "lon"] Parts.field {} Parts.finish

/-- A position as JSON. -/
def toJson (p : Point) : Json :=
  .object [("lat", .ofFloat p.lat), ("lon", .ofFloat p.lon)]

end Point

namespace Segment

/-- The fields of a segment as they come. -/
structure Parts where
  id : Option Nat := none
  a : Option Point := none
  b : Option Point := none
  wayType : Option String := none

/-- Takes in a field of a segment. -/
def Parts.field (name : String) (p : Parts) : Decoder Parts := fun ts =>
  if name = "id" then do
    let t ← Decoder.natural ts
    return ⟨{ p with id := some t.value }, t.rest, t.shorter⟩
  else if name = "a" then do
    let t ← Point.decoder ts
    return ⟨{ p with a := some t.value }, t.rest, t.shorter⟩
  else if name = "b" then do
    let t ← Point.decoder ts
    return ⟨{ p with b := some t.value }, t.rest, t.shorter⟩
  else do
    let t ← Decoder.optionalText ts
    return ⟨{ p with wayType := t.value }, t.rest, t.shorter⟩

/-- The segment, if none but the classification is missing. -/
def Parts.finish (p : Parts) : Option Segment := do return ⟨← p.id, ← p.a, ← p.b, p.wayType⟩

/-- Reads a segment. -/
def decoder : Decoder Segment :=
  Decoder.record ["id", "a", "b", "way_type"] Parts.field {} Parts.finish

/-- A segment as JSON; a missing classification is left out. -/
def toJson (s : Segment) : Json :=
  .object ([("id", .integer s.id), ("a", s.a.toJson), ("b", s.b.toJson)] ++
    match s.wayType with
    | some w => [("way_type", .string w)]
    | none => [])

end Segment

namespace SegmentFile

/-- Why a map file is not loaded. -/
inductive Error where
  | unreadable (path : String) (cause : FileError)
  | unparsable (path : String) (cause : Json.Fault)
  deriving DecidableEq

/-- The segments that the text of a map file lists. -/
def parse (text : String) : Except Json.Fault (List Segment) :=
  Json.decode (Decoder.list Segment.decoder) text

/-- The text of a map file. -/
def render (segments : List Segment) : String :=
  Json.render (.array (segments.map Segment.toJson))

/-- Loads a map file. -/
def load (files : FileSource) (path : String) : Except Error (List Segment) :=
  match files.text path with
  | .error e => .error (.unreadable path e)
  | .ok text =>
    match parse text with
    | .error f => .error (.unparsable path f)
    | .ok segments => .ok segments

/-- The error in words, the outermost first. -/
def Error.messages : Error → List String
  | .unreadable path cause => ["failed to read segment file '" ++ path ++ "'", cause.message]
  | .unparsable path cause => ["failed to parse segment file '" ++ path ++ "'", cause.message]

end SegmentFile

end VehiclePrivacy
