import VehiclePrivacy.Files
import VehiclePrivacy.Json.Members
import VehiclePrivacy.Text.Blank

/-!
# Members to take out of part II

Part II of a safety message holds optional elements. The members whose names are on a list are taken
out of it at any depth. The list keeps the order in which names were supplied, each name once.
-/

namespace VehiclePrivacy

/-- The names of the members to take out. -/
structure MemberList where
  names : List String := []
  deriving DecidableEq, Repr

namespace MemberList

/-- Adds a name behind the others, unless it is empty or there already. -/
def add (l : MemberList) (n : String) : MemberList :=
  if n.isEmpty || l.names.contains n then l else ⟨l.names ++ [n]⟩

/-- Adds names in order. -/
def addAll (l : MemberList) (ns : List String) : MemberList := ns.foldl add l

/-- The list of the given names. -/
def ofList (ns : List String) : MemberList := addAll {} ns

/-- The names that a text lists, one a line, without blank lines and comments. -/
def parse (text : String) : MemberList :=
  ofList ((Text.contentLines text).map String.ofList)

/-- Why a list is not loaded. -/
structure LoadError where
  path : String
  cause : FileError
  deriving DecidableEq, Repr

/-- The error in words, the outermost first. -/
def LoadError.messages (e : LoadError) : List String :=
  ["failed to read redaction properties '" ++ e.path ++ "'", e.cause.message]

/-- Loads a list. -/
def load (files : FileSource) (path : String) : Except LoadError MemberList :=
  match files.text path with
  | .ok text => .ok (parse text)
  | .error e => .error ⟨path, e⟩

/-- Takes the members of a name out of a block, and counts the name if there were any. -/
def strip (block : Json × Nat) (n : String) : Json × Nat :=
  let (v, count) := block
  if v.hasMember n then
    let (v, found) := v.eraseMember n
    (v, if found then count + 1 else count)
  else (v, count)

/-- Takes the listed members out of a block, and counts the names that were there. A block is an
array or an object; `null` is left alone, and another scalar is no block. -/
def redact? (l : MemberList) (block : Json) : Option (Json × Nat) :=
  match block with
  | .scalar .null => some (block, 0)
  | .scalar _ => none
  | block => some (l.names.foldl strip (block, 0))

end MemberList

end VehiclePrivacy
