import VehiclePrivacy.Launch

/-!
# The program

Reads messages from standard input and writes the retained ones to standard output. The settings
come from the environment and from the path on the command line, if there is one.
-/

namespace VehiclePrivacy.Program

/-- Reads a file of the system. -/
def readFile (path : String) : IO (Except FileError ByteArray) := do
  try
    return .ok (← IO.FS.readBinFile path)
  catch
    | .noFileOrDirectory .. => return .error .notFound
    | .inappropriateType .. => return .error .isDirectory
    | e => return .error (.other (toString e))

/-- Reads some files of the system and answers for them. -/
def readFiles (paths : List String) : IO FileSource := do
  let contents ← paths.mapM fun path => return (path, ← readFile path)
  return fun path => (contents.lookup path).getD (.error .notFound)

/-- Reads the files that are asked for. -/
def filesFor (l : Launch) : IO FileSource := do
  let config := l.configFile.toList
  let files ← readFiles config
  match l.properties files with
  | .error _ => return files
  | .ok p => readFiles (config ++ Launch.filesOf p)

/-- The variables that are looked at. -/
def environment : IO Launch.Environment := do
  let names := ["PPM_CONFIG_FILE", "PPM_MAP_FILE", "REDACTION_PROPERTIES_PATH", "LOG_LEVEL"]
  let values ← names.mapM fun n => return (n, ← IO.getEnv n)
  return fun n => (values.lookup n).join

/-- Takes in the lines as they come, and writes what they give; `tail` is a line that has not come
to its end. -/
partial def pump (input output : IO.FS.Stream) (r : Feed.Run) (tail : List UInt8) :
    IO Feed.Run := do
  let chunk ← input.read 65536
  let ended := chunk.isEmpty
  let ready (l : List UInt8) : Bool := ended || l.getLast? == some Feed.lineFeed
  let (complete, rest) := (Feed.lines (tail ++ chunk.data.toList)).partition ready
  let r := complete.foldl (Feed.Run.line {}) r
  output.write r.output.toByteArray
  output.flush
  let r := { r with written := [] }
  if ended then return r else pump input output r rest.flatten

/-- Tells of an error and its causes. -/
def report (messages : List String) : IO Unit := do
  match messages with
  | [] => return
  | m :: causes =>
    IO.eprintln ("Error: " ++ m)
    if !causes.isEmpty then
      IO.eprintln "\nCaused by:"
      for c in causes do IO.eprintln ("    " ++ c)

end VehiclePrivacy.Program

open VehiclePrivacy in
/-- Runs until the input ends. -/
def main (args : List String) : IO UInt32 := do
  let launch := Launch.ofEnvironment (← Program.environment) args.head?
  let files ← Program.filesFor launch
  let entropy := mkStdGen (← IO.rand 0 (Nat.pow 2 31))
  match launch.start files entropy with
  | .error e =>
    Program.report e.messages
    return 1
  | .ok sanitizer =>
    let _ ← Program.pump (← IO.getStdin) (← IO.getStdout) { sanitizer } []
    return 0
