import VehiclePrivacy.Geofence.QuadTree

/-!
# The geofence

An index over the corridors of road segments. It answers one question: does a position lie in any
corridor? Segments off the globe, and those whose corridor does not touch the bounds, are left out.
-/

namespace VehiclePrivacy

/-- An index over road corridors. -/
structure Geofence where
  tree : QuadTree
  /-- The buffer distance in meters. -/
  buffer : Float
  /-- How many segments are in the index. -/
  size : Nat

namespace Geofence

/-- Why there is no index. -/
inductive Error where
  | badBounds (bounds : Box)
  | badBuffer (meters : Float)
  deriving DecidableEq

/-- The error in words. -/
def Error.message : Error → String
  | .badBounds b =>
    "invalid geofence bounds: sw=" ++ b.sw.listing ++ " ne=" ++ b.ne.listing
  | .badBuffer m =>
    "invalid buffer distance: " ++ Decimal.Notation.plain.text m ++ " meters"

/-- Whether a number is a distance to pad boxes by. -/
def isBuffer (meters : Float) : Bool := meters.isFinite && !(meters < 0)

/-- Adds a segment, unless it is off the globe, and counts it if it was stored. -/
def add (l : QuadTree.Limits) (g : Geofence) (s : Segment) : Geofence :=
  if !s.onGlobe then g
  else
    let (tree, stored) := g.tree.insert l (s.corridor g.buffer)
    { g with tree, size := if stored then g.size + 1 else g.size }

/-- The index of some segments within bounds. -/
def ofSegments (bounds : Box) (segments : List Segment) (buffer : Float) (l : QuadTree.Limits) :
    Except Error Geofence :=
  if !bounds.isProper then .error (.badBounds bounds)
  else if !isBuffer buffer then .error (.badBuffer buffer)
  else .ok (segments.foldl (add l) ⟨.empty bounds, buffer, 0⟩)

/-- The index without segments. -/
def empty (bounds : Box) : Except Error Geofence := ofSegments bounds [] 0 {}

/-- The box outside of which nothing is found. -/
def bounds (g : Geofence) : Box := g.tree.box

/-- The first segment whose corridor contains the position. -/
def segmentAt? (g : Geofence) (p : Point) : Option Nat :=
  (g.tree.find? p).map (·.segment)

/-- Whether the position lies in any corridor. -/
def covers (g : Geofence) (p : Point) : Bool :=
  p.onGlobe && (g.tree.find? p).isSome

end Geofence

end VehiclePrivacy
