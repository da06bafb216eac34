/-!
# Pseudonyms for ids

Which temporary ids are overwritten, and with what. With a list of ids only those on it are
overwritten, without one every id is. The member itself stays, only its value changes.
-/

namespace VehiclePrivacy

/-- What an id is overwritten with. -/
inductive Pseudonym where
  /-- Always the same text. -/
  | fixed (text : String)
  /-- Eight hexadecimal digits, drawn anew each time. -/
  | random
  deriving DecidableEq, Repr

namespace Pseudonym

/-- The text where no setting names one. -/
def defaultText : String := "FFFFFFFF"

/-- The pseudonym that a setting names: `random` in any letter case, else the text itself. -/
def ofSetting (text : String) : Pseudonym :=
  if text.toLower = "random" then random else fixed text

/-- A 32-bit number in eight hexadecimal digits. -/
def hexDigits (n : Nat) : String :=
  String.ofList <| (List.range 8).reverse.map fun i =>
    (Nat.digitChar (n / Nat.pow 16 i % 16)).toUpper

/-- A text to overwrite an id with; a random one uses up randomness. -/
def draw (p : Pseudonym) (g : StdGen) : String × StdGen :=
  match p with
  | fixed text => (text, g)
  | random =>
    let (n, g) := randNat g 0 (Nat.pow 2 32 - 1)
    (hexDigits n, g)

end Pseudonym

/-- Which ids are overwritten, and with what. -/
structure IdRule where
  /-- The ids on the list, each once; without a list all ids are meant. -/
  listed : Option (List String) := some []
  pseudonym : Pseudonym := .fixed Pseudonym.defaultText
  deriving DecidableEq, Repr

namespace IdRule

/-- Overwrites every id. -/
def everyId (p : Pseudonym) : IdRule := ⟨none, p⟩

/-- Overwrites the given ids. -/
def onlyIds (ids : List String) (p : Pseudonym) : IdRule := ⟨some ids.eraseDups, p⟩

/-- The number of ids on the list. -/
def count (r : IdRule) : Nat := (r.listed.getD []).length

/-- Whether an id is overwritten. -/
def applies (r : IdRule) (id : String) : Bool :=
  match r.listed with
  | some ids => ids.contains id
  | none => true

/-- The text to overwrite an id with, if the rule applies to it. -/
def redact? (r : IdRule) (id : String) (g : StdGen) : Option String × StdGen :=
  if r.applies id then
    let (text, g) := r.pseudonym.draw g
    (some text, g)
  else (none, g)

end IdRule

end VehiclePrivacy
