import VehiclePrivacy.Settings.Basic

/-!
# Sample roads

A grid of short roads from west to east, forty by forty, near Ann Arbor, and settings that fit it.
-/

namespace VehiclePrivacy.Sample

/-- The number of rows of the grid. -/
def rows : Nat := 40

/-- The number of columns of the grid. -/
def columns : Nat := 40

/-- The south-western end of the grid. -/
def origin : Point := ⟨42.2, -83.8⟩

/-- The distance between neighbours in degrees. -/
def spacing : Float := 0.004

/-- The length of a road in degrees. -/
def roadLength : Float := 0.002

/-- A place of the grid. -/
def place (row column : Nat) : Point :=
  ⟨origin.lat + Decimal.floatOfNat row * spacing, origin.lon + Decimal.floatOfNat column * spacing⟩

/-- The road that begins at a place of the grid. -/
def road (row column : Nat) : Segment :=
  let a := place row column
  { id := row * columns + column, a, b := ⟨a.lat, a.lon + roadLength⟩ }

/-- The roads of the grid, row by row. -/
def roads : List Segment :=
  (List.range rows).flatMap fun row => (List.range columns).map (road row)

/-- A box around the grid. -/
def bounds : Box :=
  let ne := place rows columns
  ⟨⟨origin.lat - 0.01, origin.lon - 0.01⟩, ⟨ne.lat + 0.01, ne.lon + 0.01⟩⟩

/-- Settings for the grid, with some ids and members to redact. -/
def properties : Properties :=
  let number := Decimal.Notation.plain.text
  .ofList ([
    (Key.speedMin, "2.235"),
    (.speedMax, "35.763"),
    (.geofenceBuffer, "10"),
    (.southWestLat, number bounds.sw.lat),
    (.southWestLon, number bounds.sw.lon),
    (.northEastLat, number bounds.ne.lat),
    (.northEastLon, number bounds.ne.lon),
    (.idIncluded, "BEA10000,BEA10001,BEA10002"),
    (.partIIFields, "vendorId,classDetails")].map fun (k, v) => (k.text, v))

/-- The settings that the properties make; they name no files. -/
def settings : Except Settings.Error Settings :=
  Settings.ofProperties (fun _ => .error .notFound) properties

/-- The geofence of the grid for some settings. -/
def geofence (s : Settings) : Except Geofence.Error Geofence :=
  Geofence.ofSegments s.geofence.bounds roads s.geofence.buffer {}

end VehiclePrivacy.Sample
