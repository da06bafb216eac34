import VehiclePrivacy.Capability

/-!
# The keys of the settings

Every setting has its key. Properties under any other key are ignored.
-/

namespace VehiclePrivacy

/-- What a property can set. -/
inductive Key where
  | speedFilter
  | speedMin
  | speedMax
  | positionFilter
  | geofenceBuffer
  | southWestLat
  | southWestLon
  | northEastLat
  | northEastLon
  | mapFile
  | idRedaction
  | idValue
  | idInclusions
  | idIncluded
  | sizeRedaction
  | sizeValue
  | partIIRedaction
  | partIIFields
  | partIIFile
  deriving DecidableEq, Repr

namespace Key

/-- The key as it is written. -/
def text : Key → String
  | speedFilter => "privacy.filter.velocity"
  | speedMin => "privacy.filter.velocity.min"
  | speedMax => "privacy.filter.velocity.max"
  | positionFilter => "privacy.filter.geofence"
  | geofenceBuffer => "privacy.filter.geofence.extension"
  | southWestLat => "privacy.filter.geofence.sw.lat"
  | southWestLon => "privacy.filter.geofence.sw.lon"
  | northEastLat => "privacy.filter.geofence.ne.lat"
  | northEastLon => "privacy.filter.geofence.ne.lon"
  | mapFile => "privacy.filter.geofence.mapfile"
  | idRedaction => "privacy.redaction.id"
  | idValue => "privacy.redaction.id.value"
  | idInclusions => "privacy.redaction.id.inclusions"
  | idIncluded => "privacy.redaction.id.included"
  | sizeRedaction => "privacy.redaction.size"
  | sizeValue => "privacy.redaction.size.value"
  | partIIRedaction => "privacy.redaction.partII"
  | partIIFields => "privacy.redaction.partII.fields"
  | partIIFile => "privacy.redaction.properties"

/-- The key that turns a capability on and off. -/
def ofCapability : Capability → Key
  | .speedFilter => speedFilter
  | .positionFilter => positionFilter
  | .idRedaction => idRedaction
  | .sizeRedaction => sizeRedaction
  | .partIIRedaction => partIIRedaction

end Key

end VehiclePrivacy
