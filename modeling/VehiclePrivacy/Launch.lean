import VehiclePrivacy.Feed

/-!
# Launching the program

What the environment and the command line say: which files the settings come from.
A variable that is blank is as good as unset, and the path on the command line wins over the one in
the environment.
-/

namespace VehiclePrivacy

/-- Which files the program is launched with. -/
structure Launch where
  configFile : Option String := none
  mapFile : Option String := none
  memberListFile : Option String := none
  logLevel : String := "info"
  deriving DecidableEq, Repr

namespace Launch

/-- The variables of the environment, by name. -/
abbrev Environment := String → Option String

/-- What an environment and a path on the command line say. -/
def ofEnvironment (env : Environment) (argument : Option String) : Launch :=
  let nonBlank (name : String) : Option String := (env name).filter fun v => !(Text.trim v).isEmpty
  { configFile := argument.or (nonBlank "PPM_CONFIG_FILE")
    mapFile := nonBlank "PPM_MAP_FILE"
    memberListFile := nonBlank "REDACTION_PROPERTIES_PATH"
    logLevel := (nonBlank "LOG_LEVEL").getD "info" }

/-- Why there are no settings, or a run does not start or ends early. -/
inductive Error where
  | badConfigFile (path : String) (cause : FileError)
  | badSettings (cause : Settings.Error)
  | invalid (cause : Settings.Invalid)
  | noGeofence (cause : Settings.GeofenceError)
  | badFeed (cause : Feed.Error)
  deriving DecidableEq

/-- The error in words, the outermost first. -/
def Error.messages : Error → List String
  | badConfigFile path cause => ["failed to read config file '" ++ path ++ "'", cause.message]
  | badSettings cause => cause.messages
  | invalid cause => [cause.message]
  | noGeofence cause => cause.messages
  | badFeed cause => cause.messages

/-- The properties of a config file. -/
def loadProperties (files : FileSource) (path : String) : Except Error Properties :=
  match files.text path with
  | .ok text => .ok (.parse text)
  | .error e => .error (.badConfigFile path e)

/-- The properties to launch with: those of the config file, with the files that the environment
names put in their place. -/
def properties (files : FileSource) (l : Launch) : Except Error Properties := do
  let p ← match l.configFile with
    | none => pure {}
    | some path => loadProperties files path
  let override (k : Key) (path : Option String) (p : Properties) : Properties :=
    match path with
    | none => p
    | some path => p.set k.text path
  return override .partIIFile l.memberListFile (override .mapFile l.mapFile p)

/-- The files that properties name: the list of members, then the map. -/
def filesOf (p : Properties) : List String :=
  [Key.partIIFile, .mapFile].filterMap (Settings.nonBlank? p)

/-- The settings to launch with. -/
def settings (files : FileSource) (l : Launch) : Except Error Settings := do
  let p ← l.properties files
  (Settings.ofProperties files p).mapError .badSettings

/-- The sanitizer to launch with, its geofence in place. -/
def start (files : FileSource) (entropy : StdGen) (l : Launch) : Except Error Sanitizer := do
  let settings ← l.settings files
  settings.check.mapError .invalid
  let geofence ← (settings.toGeofence files).mapError .noGeofence
  return .ofSettings settings geofence.covers entropy

/-- Runs over all of the input: what it writes, and the error that ends it, if any. -/
def run (files : FileSource) (entropy : StdGen) (l : Launch) (input : List UInt8) :
    List UInt8 × Option Error :=
  match l.start files entropy with
  | .error e => ([], some e)
  | .ok sanitizer =>
    let r := Feed.run sanitizer ⟨input, none⟩ {}
    (r.output, r.error.map .badFeed)

end Launch

end VehiclePrivacy
