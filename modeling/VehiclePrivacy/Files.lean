/-!
# Files as the library sees them

Settings and maps are read through a `FileSource`, which answers a path with octets or with the
reason why there are none. `Directory` is a source that lives in memory and resolves paths the way
an operating system does.
-/

namespace VehiclePrivacy

/-- Why a file is not read. -/
inductive FileError where
  | notFound
  | isDirectory
  | notDirectory
  /-- The octets are no UTF-8. -/
  | notText
  /-- Any other reason, in the words of the system. -/
  | other (message : String)
  deriving DecidableEq, Repr

/-- The reason in words. -/
def FileError.message : FileError → String
  | notFound => "No such file or directory (os error 2)"
  | isDirectory => "Is a directory (os error 21)"
  | notDirectory => "Not a directory (os error 20)"
  | notText => "stream did not contain valid UTF-8"
  | other message => message

/-- Looks up the octets of a file by its path. -/
abbrev FileSource := String → Except FileError ByteArray

/-- The text of a file. -/
def FileSource.text (files : FileSource) (path : String) : Except FileError String :=
  match files path with
  | .error e => .error e
  | .ok octets =>
    match String.fromUTF8? octets with
    | some text => .ok text
    | none => .error .notText

/-- What a directory holds under a name. -/
inductive Directory.Entry where
  | file (octets : ByteArray)
  /-- A directory with nothing in it. -/
  | emptyDirectory

/-- A directory without deeper levels. -/
structure Directory where
  entries : List (String × Directory.Entry)

namespace Directory

/-- The names that a path goes through; an empty one stays where it is, as a dot does. -/
def pathNames (path : String) : List String :=
  (path.splitOn "/").map fun n => if n = "" then "." else n

/-- Whether names only stay or go up. -/
def climbs (names : List String) : Bool := names.all fun n => n = "." || n = ".."

/-- Follows names from the directory, or from an empty directory in it if `inside` is true. Nothing
is known of what is outside, except that directories are there. -/
def follow (d : Directory) (inside : Bool) : List String → Except FileError ByteArray
  | [] => .error .isDirectory
  | n :: more =>
    if n = "." then d.follow inside more
    else if n = ".." then
      if inside then d.follow false more
      else if climbs more then .error .isDirectory
      else .error .notFound
    else if inside then .error .notFound
    else match d.entries.lookup n with
      | none => .error .notFound
      | some (.file octets) => if more.isEmpty then .ok octets else .error .notDirectory
      | some .emptyDirectory => d.follow true more

/-- Reads a file by its path. The empty path leads nowhere. -/
def read (d : Directory) : FileSource := fun path =>
  if path = "" || path.startsWith "/" then .error .notFound else d.follow false (pathNames path)

end Directory

end VehiclePrivacy
