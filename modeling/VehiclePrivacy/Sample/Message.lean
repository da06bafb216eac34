import VehiclePrivacy.Json.Printer
import VehiclePrivacy.Sample.Grid

/-!
# Sample messages

Safety messages in their usual envelope: on the grid and in range, on the grid and too fast, and
between the roads.
-/

namespace VehiclePrivacy.Sample

/-- A text as JSON. -/
def text (s : String) : Json := .string s

/-- An object with one member. -/
def only (n : String) (v : Json) : Json := .object [(n, v)]

/-- The envelope's part about how the message was received. -/
def metadata : Json :=
  .object [
    ("logFileName", text ""),
    ("recordType", text "bsmTx"),
    ("receivedMessageDetails", .object [
      ("locationData", .object (["latitude", "longitude", "elevation", "speed", "heading"].map
        fun n => (n, text ""))),
      ("rxSource", text "RV")]),
    ("payloadType", text "us.dot.its.jpo.ode.model.OdeBsmPayload"),
    ("odeReceivedAt", text "2024-05-01T13:04:11.120Z")]

/-- The core of a message. -/
def coreData (id : String) (p : Point) (speed : Float) : Json :=
  .object [
    ("msgCnt", .integer 17),
    ("id", text id),
    ("secMark", .integer 45200),
    ("position", .object [
      ("latitude", .ofFloat p.lat), ("longitude", .ofFloat p.lon), ("elevation", .real 259.8)]),
    ("accelSet", only "accelYaw" (.integer 0)),
    ("accuracy", .object [("semiMajor", .real 2), ("semiMinor", .real 2)]),
    ("speed", .ofFloat speed),
    ("heading", .real 90),
    ("brakes", only "wheelBrakes"
      (.object [("leftFront", .bool false), ("rightFront", .bool false)])),
    ("size", .object [("width", .integer 190), ("length", .integer 570)])]

/-- The optional elements of a message. -/
def partII : Json :=
  .array [
    .object [
      ("id", text "VehicleSafetyExtensions"),
      ("value", only "pathHistory" (only "crumbData" (.array [])))],
    .object [
      ("id", text "SupplementalVehicleExtensions"),
      ("value", .object [
        ("classDetails", only "role" (text "basicVehicle")), ("vendorId", text "acme")])]]

/-- A safety message of a vehicle. -/
def message (id : String) (p : Point) (speed : Float) : String :=
  Json.render (.object [
    ("metadata", metadata),
    ("payload", .object [
      ("dataType", text "us.dot.its.jpo.ode.plugin.j2735.J2735Bsm"),
      ("data", .object [("coreData", coreData id p speed), ("partII", partII)])])])

/-- A number below 10000 with four digits. -/
def fourDigits (n : Nat) : String :=
  let ds := Nat.toDigits 10 (n % 10000)
  String.ofList (List.replicate (4 - ds.length) '0' ++ ds)

/-- A place of the grid, drawn at random. -/
def drawPlace (g : StdGen) : Point × StdGen :=
  let (row, g) := randNat g 0 (rows - 1)
  let (column, g) := randNat g 0 (columns - 1)
  (place row column, g)

/-- As many messages as asked for, each drawn with its number. -/
def drawMessages (draw : Nat → StdGen → String × StdGen) (count : Nat) (g : StdGen) :
    List String :=
  ((List.range count).foldl (fun (done, g) i =>
    let (m, g) := draw i g
    (m :: done, g)) ([], g)).1.reverse

/-- Messages from the middle of roads, with speeds in range. -/
def retainedMessages : Nat → StdGen → List String :=
  drawMessages fun i g =>
    let (p, g) := drawPlace g
    let (n, g) := randNat g 5000 29999
    (message ("BEA1" ++ fourDigits i) ⟨p.lat, p.lon + roadLength / 2⟩
      (Decimal.floatOfNat n / 1000), g)

/-- Messages from between the rows, away from every road. -/
def offRoadMessages : Nat → StdGen → List String :=
  drawMessages fun i g =>
    let (p, g) := drawPlace g
    (message ("BEA2" ++ fourDigits i) ⟨p.lat + spacing / 2, p.lon⟩ 15, g)

/-- Messages of ever faster vehicles; their speed comes first. -/
def speedingMessages (count : Nat) : List String :=
  (List.range count).map fun i =>
    Json.render (.object [
      ("speed", .real (40 + Decimal.floatOfNat i)),
      ("id", text "BEA10000"),
      ("lat", .real 0),
      ("lon", .real 0)])

end VehiclePrivacy.Sample
