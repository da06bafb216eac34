import VehiclePrivacy.Sample.Grid
import VehiclePrivacy.Launch

/-!
# A sample installation

A directory with a config file, a map of the grid and a list of members, and a launch with them.
-/

namespace VehiclePrivacy.Sample

/-- The lines of the config file: all settings of the grid but the members, which have a file. -/
def configText : String :=
  let entries := properties.sorted.filter fun (k, _) => k != Key.partIIFields.text
  String.join (entries.map fun (k, v) => k ++ "=" ++ v ++ "\n")

/-- The files of the installation. -/
def directory : Directory where
  entries := [
    ("roads.json", .file (SegmentFile.render roads).toUTF8),
    ("redaction.properties", .file "# PartII members\nvendorId\nclassDetails\n".toUTF8),
    ("settings.properties", .file configText.toUTF8)]

/-- The launch of the installation. -/
def launch : Launch where
  configFile := "settings.properties"
  mapFile := "roads.json"
  memberListFile := "redaction.properties"
  logLevel := "warn"

end VehiclePrivacy.Sample
