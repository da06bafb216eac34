import VehiclePrivacy.Decimal.Literal
import VehiclePrivacy.Geofence.Index
import VehiclePrivacy.Geofence.SegmentFile
import VehiclePrivacy.Redaction.Rules
import VehiclePrivacy.Settings.Key
import VehiclePrivacy.Settings.Properties
import VehiclePrivacy.SpeedRange

/-!
# Settings

What the properties say, as values of the types that use it. A missing or blank property leaves the
default. `Settings.ofProperties` reads the keys in a fixed order and reports the first property that
makes no sense; `Settings.check` looks at what the values mean together.
-/

namespace VehiclePrivacy

/-- The settings of the geofence. -/
structure GeofenceSettings where
  bounds : Box := Box.globe
  /-- The buffer distance in meters. -/
  buffer : Float := 10
  mapFile : Option String := none
  deriving DecidableEq

/-- All settings. -/
structure Settings where
  active : Activation := Activation.full.erase .sizeRedaction
  speeds : SpeedRange := {}
  geofence : GeofenceSettings := {}
  rules : Rules := {}
  deriving DecidableEq

namespace Settings

/-- Why properties make no settings. -/
inductive Error where
  /-- A switch that is neither on nor off. -/
  | badSwitch (key : Key) (value : String)
  /-- A number that is none. -/
  | badNumber (key : Key) (value : String)
  /-- A list of member names that is not loaded. -/
  | badMemberList (cause : MemberList.LoadError)
  deriving DecidableEq, Repr

/-- The error in words, the outermost first. -/
def Error.messages : Error → List String
  | .badSwitch key value =>
    ["failed to parse " ++ key.text, "invalid switch value: " ++ value]
  | .badNumber key value =>
    ["failed to parse " ++ key.text ++ " as a number: '" ++ value ++ "'", "invalid float literal"]
  | .badMemberList cause => ("failed to load " ++ Key.partIIFile.text) :: cause.messages

/-- The trimmed value of a key, if it is not blank. -/
def nonBlank? (p : Properties) (k : Key) : Option String :=
  ((p.get? k.text).map Text.trim).filter (!·.isEmpty)

/-- The switch that a word stands for. -/
def switch? (word : String) : Option Bool :=
  if ["on", "true", "1", "yes"].contains word then some true
  else if ["off", "false", "0", "no"].contains word then some false
  else none

/-- The switch under a key. A switch that is there must not be blank. -/
def switch (p : Properties) (k : Key) (default : Bool) : Except Error Bool :=
  match p.get? k.text with
  | none => .ok default
  | some value =>
    let word := (Text.trim value).toLower
    match switch? word with
    | some on => .ok on
    | none => .error (.badSwitch k word)

/-- The number under a key. -/
def number (p : Properties) (k : Key) (default : Float) : Except Error Float :=
  match nonBlank? p k with
  | none => .ok default
  | some value =>
    match Decimal.read? value with
    | some x => .ok x
    | none => .error (.badNumber k value)

/-- The items of the list under a key. -/
def items (p : Properties) (k : Key) : List String :=
  ((p.get? k.text).map Text.listItems).getD []

/-- The capabilities that are switched on. -/
def activationOf (p : Properties) (default : Activation) : Except Error Activation :=
  Capability.all.foldlM (fun a c => (a.set c ·) <$> switch p (Key.ofCapability c) (a.has c)) default

/-- The rule for ids. -/
def idRuleOf (p : Properties) : Except Error IdRule := do
  let pseudonym := Pseudonym.ofSetting ((nonBlank? p .idValue).getD Pseudonym.defaultText)
  if ← switch p .idInclusions true then
    return IdRule.onlyIds (items p .idIncluded) pseudonym
  else
    return IdRule.everyId pseudonym

/-- The members to take out of part II: those listed in a file, then those listed here. -/
def memberListOf (files : FileSource) (p : Properties) : Except Error MemberList := do
  let listed ← match nonBlank? p .partIIFile with
    | none => pure {}
    | some path =>
      match MemberList.load files path with
      | .ok l => pure l
      | .error e => throw (Error.badMemberList e)
  return listed.addAll (items p .partIIFields)

/-- The settings that properties make. -/
def ofProperties (files : FileSource) (p : Properties) : Except Error Settings := do
  let default : Settings := {}
  let active ← activationOf p default.active
  let min ← number p .speedMin default.speeds.min
  let max ← number p .speedMax default.speeds.max
  let swLat ← number p .southWestLat default.geofence.bounds.sw.lat
  let swLon ← number p .southWestLon default.geofence.bounds.sw.lon
  let neLat ← number p .northEastLat default.geofence.bounds.ne.lat
  let neLon ← number p .northEastLon default.geofence.bounds.ne.lon
  let buffer ← number p .geofenceBuffer default.geofence.buffer
  let id ← idRuleOf p
  let partII ← memberListOf files p
  let size ← number p .sizeValue default.rules.size.number
  return {
    active
    speeds := ⟨min, max⟩
    geofence := ⟨⟨⟨swLat, swLon⟩, ⟨neLat, neLon⟩⟩, buffer, nonBlank? p .mapFile⟩
    rules := ⟨id, partII, ⟨size⟩⟩ }

/-! ## Validity -/

/-- Why settings make no sense. -/
inductive Invalid where
  | speedLimits (min max : Float)
  | speedOrder (min max : Float)
  | buffer (meters : Float)
  | bounds (b : Box)
  | sizeNumber
  deriving DecidableEq

/-- The reason in words. -/
def Invalid.message : Invalid → String
  | speedLimits min max =>
    "velocity bounds must be finite and non-negative (min=" ++ Decimal.Notation.plain.text min ++
      ", max=" ++ Decimal.Notation.plain.text max ++ ")"
  | speedOrder min max =>
    "velocity min " ++ Decimal.Notation.plain.text min ++ " exceeds max " ++
      Decimal.Notation.plain.text max
  | buffer meters =>
    "geofence extension must be a non-negative distance, got " ++
      Decimal.Notation.plain.text meters
  | bounds b => "geofence bounds are invalid: " ++ b.listing
  | sizeNumber => "size replacement must be a finite number"

/-- Checks the settings, and reports the first that makes no sense. -/
def check (s : Settings) : Except Invalid Unit :=
  let v := s.speeds
  if !v.min.isFinite || !v.max.isFinite || v.min < 0 then .error (.speedLimits v.min v.max)
  else if v.max < v.min then .error (.speedOrder v.min v.max)
  else if !Geofence.isBuffer s.geofence.buffer then .error (.buffer s.geofence.buffer)
  else if !s.geofence.bounds.isProper then .error (.bounds s.geofence.bounds)
  else if !s.rules.size.number.isFinite then .error .sizeNumber
  else .ok ()

/-! ## The geofence -/

/-- Why the settings make no geofence. -/
inductive GeofenceError where
  | badMapFile (path : String) (cause : SegmentFile.Error)
  | badGeofence (cause : Geofence.Error)
  deriving DecidableEq

/-- The error in words, the outermost first. -/
def GeofenceError.messages : GeofenceError → List String
  | badMapFile path cause => ("failed to load map file '" ++ path ++ "'") :: cause.messages
  | badGeofence cause => ["failed to build geofence index", cause.message]

/-- The geofence of the roads in the map file. Without a map file it is empty. -/
def toGeofence (files : FileSource) (s : Settings) : Except GeofenceError Geofence := do
  let segments ← match s.geofence.mapFile with
    | none => pure []
    | some path =>
      match SegmentFile.load files path with
      | .ok segments => pure segments
      | .error e => throw (GeofenceError.badMapFile path e)
  match Geofence.ofSegments s.geofence.bounds segments s.geofence.buffer {} with
  | .ok g => return g
  | .error e => throw (GeofenceError.badGeofence e)

end Settings

end VehiclePrivacy
