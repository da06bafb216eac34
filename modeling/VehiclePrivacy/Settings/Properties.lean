import VehiclePrivacy.Text.Blank

/-!
# Key and value lines

A property list maps keys to values; a key that is set again takes the new value. Its text has one
`key=value` a line, with blanks allowed around both; blank lines, `#` comments and lines without an
equals sign say nothing.
-/

namespace VehiclePrivacy

/-- Values by key, each key once. -/
structure Properties where
  entries : List (String × String) := []
  deriving DecidableEq, Repr

namespace Properties

/-- The value of a key. -/
def get? (p : Properties) (key : String) : Option String := p.entries.lookup key

/-- The entries with a key given a value: in its place, or behind the others. -/
def setEntry (key value : String) : List (String × String) → List (String × String)
  | [] => [(key, value)]
  | (k, v) :: rest => if k = key then (k, value) :: rest else (k, v) :: setEntry key value rest

/-- Gives a key a value. -/
def set (p : Properties) (key value : String) : Properties := ⟨setEntry key value p.entries⟩

/-- The properties of the given pairs, the last one of a key counting. -/
def ofList (pairs : List (String × String)) : Properties :=
  pairs.foldl (fun p (k, v) => p.set k v) {}

/-- The key and the value of a line, if it has an equals sign. -/
def readLine? (line : List Char) : Option (String × String) :=
  match line.dropWhile (· ≠ '=') with
  | [] => none
  | _ :: value =>
    some (String.ofList (Text.trimChars (line.takeWhile (· ≠ '='))),
      String.ofList (Text.trimChars value))

/-- The properties that a text sets. -/
def parse (text : String) : Properties :=
  ofList ((Text.contentLines text).filterMap readLine?)

/-- The entries in the order of their keys. -/
def sorted (p : Properties) : List (String × String) :=
  p.entries.mergeSort fun a b => a.1 ≤ b.1

end Properties

end VehiclePrivacy
