import VehiclePrivacy.Geo.Point

/-!
# Boxes along the axes

A box has a south-west and a north-east corner, and its edges belong to it. No order of the corners
is assumed: a box that is turned inside out, or has NaN in a corner, contains nothing.
-/

namespace VehiclePrivacy

/-- A box between two corners. -/
structure Box where
  sw : Point
  ne : Point
  deriving DecidableEq

namespace Box

/-- The smaller of two numbers; a number beside NaN wins, and of equal ones the first. -/
def lesser (a b : Float) : Float := if b < a || a.isNaN then b else a

/-- The larger of two numbers; a number beside NaN wins, and of equal ones the first. -/
def greater (a b : Float) : Float := if a < b || a.isNaN then b else a

/-- The whole globe. -/
def globe : Box := ⟨⟨-90, -180⟩, ⟨90, 180⟩⟩

/-- The smallest box with both positions in it. -/
def spanning (a b : Point) : Box where
  sw := ⟨lesser a.lat b.lat, lesser a.lon b.lon⟩
  ne := ⟨greater a.lat b.lat, greater a.lon b.lon⟩

/-- Whether both corners lie on the globe and in the right order. -/
def isProper (b : Box) : Bool :=
  b.sw.onGlobe && b.ne.onGlobe && b.sw.lat ≤ b.ne.lat && b.sw.lon ≤ b.ne.lon

/-- Whether a position is in the box. -/
def contains (b : Box) (p : Point) : Bool :=
  b.sw.lat ≤ p.lat && p.lat ≤ b.ne.lat && b.sw.lon ≤ p.lon && p.lon ≤ b.ne.lon

/-- Whether two boxes have a position in common. -/
def meets (b c : Box) : Bool :=
  b.sw.lat ≤ c.ne.lat && c.sw.lat ≤ b.ne.lat && b.sw.lon ≤ c.ne.lon && c.sw.lon ≤ b.ne.lon

/-- The position halfway between the corners. -/
def midpoint (b : Box) : Point :=
  ⟨(b.sw.lat + b.ne.lat) / 2, (b.sw.lon + b.ne.lon) / 2⟩

/-- The south-western quarter. -/
def southWest (b : Box) : Box := ⟨b.sw, b.midpoint⟩

/-- The south-eastern quarter. -/
def southEast (b : Box) : Box := ⟨⟨b.sw.lat, b.midpoint.lon⟩, ⟨b.midpoint.lat, b.ne.lon⟩⟩

/-- The north-western quarter. -/
def northWest (b : Box) : Box := ⟨⟨b.midpoint.lat, b.sw.lon⟩, ⟨b.ne.lat, b.midpoint.lon⟩⟩

/-- The north-eastern quarter. -/
def northEast (b : Box) : Box := ⟨b.midpoint, b.ne⟩

/-- The four quarters, the southern ones first, from west to east. -/
def quarters (b : Box) : List Box := [b.southWest, b.southEast, b.northWest, b.northEast]

/-! ## Padding by a distance -/

/-- The mean length of one degree of latitude. -/
def metersPerDegree : Float := 111320

/-- The least cosine that is used, so that boxes near the poles stay finite. -/
def leastCosine : Float := 0.01

/-- One degree in radians. -/
def radiansPerDegree : Float := 3.141592653589793 / 180

/-- How much shorter than at the equator a degree of longitude is at a latitude. -/
def shrinkage (lat : Float) : Float :=
  greater (lat * radiansPerDegree).cos leastCosine

/-- The box with a padding of some meters on every side. In longitude the padding is taken at the
latitude farthest from the equator, where degrees are shortest, so it is never too small. -/
def pad (b : Box) (meters : Float) : Box :=
  let farthest := lesser (greater b.sw.lat.abs b.ne.lat.abs) 90
  let dlat := meters / metersPerDegree
  let dlon := meters / (metersPerDegree * shrinkage farthest)
  ⟨⟨b.sw.lat - dlat, b.sw.lon - dlon⟩, ⟨b.ne.lat + dlat, b.ne.lon + dlon⟩⟩

/-- The box with its parts named, for messages. -/
def listing (b : Box) : String :=
  "Bounds \x7b sw: " ++ b.sw.listing ++ ", ne: " ++ b.ne.listing ++ " \x7d"

end Box

end VehiclePrivacy
