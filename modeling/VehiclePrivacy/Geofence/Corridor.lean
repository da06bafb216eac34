import VehiclePrivacy.Geo.Box

/-!
# Road segments and their corridors

A segment is a straight piece of road. Its corridor is the box that spans its two ends, padded by
the buffer distance; a diagonal road so covers more than the strip along it.
-/

namespace VehiclePrivacy

/-- A straight piece of road between two positions. -/
structure Segment where
  id : Nat
  a : Point
  b : Point
  /-- How the map classifies the road. -/
  wayType : Option String := none
  deriving DecidableEq

/-- Whether both ends lie on the globe. -/
def Segment.onGlobe (s : Segment) : Bool := s.a.onGlobe && s.b.onGlobe

/-- The region that a segment adds to a geofence. -/
structure Corridor where
  segment : Nat
  box : Box
  deriving DecidableEq

/-- The corridor of a segment for a buffer distance in meters. -/
def Segment.corridor (s : Segment) (buffer : Float) : Corridor :=
  ⟨s.id, (Box.spanning s.a s.b).pad buffer⟩

/-- Whether a position is in the corridor. -/
def Corridor.contains (c : Corridor) (p : Point) : Bool := c.box.contains p

end VehiclePrivacy
