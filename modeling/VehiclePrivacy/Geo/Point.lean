import VehiclePrivacy.Decimal.Notation

/-!
# Positions

A position is a pair of degrees. Positions come from messages and map files, so any two doubles make
one; `onGlobe` tells which of them exist on Earth.
-/

namespace VehiclePrivacy

/-- A position in decimal degrees. -/
structure Point where
  lat : Float
  lon : Float
  deriving DecidableEq

namespace Point

/-- Whether the position lies on the globe; NaN and the infinities do not. -/
def onGlobe (p : Point) : Bool :=
  p.lat.isFinite && p.lon.isFinite && -90 ≤ p.lat && p.lat ≤ 90 && -180 ≤ p.lon && p.lon ≤ 180

/-- The position with its parts named, for messages. -/
def listing (p : Point) : String :=
  "Point \x7b lat: " ++ Decimal.Notation.listing.text p.lat ++
    ", lon: " ++ Decimal.Notation.listing.text p.lon ++ " \x7d"

end Point

end VehiclePrivacy
