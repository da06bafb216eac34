import VehiclePrivacy.Json.Basic
import VehiclePrivacy.Text.Blank

/-!
# Places in a value

A path leads from a value to one of its parts. `get?` looks a path up and `set?` puts another value
there. `Path.pointer` writes a path as text, a slash before each step, and `resolve?` looks such a
text up again.
-/

namespace VehiclePrivacy.Json

/-- From a container to one of its parts. -/
inductive Step where
  /-- To the member of an object. -/
  | name (n : String)
  /-- To the item of an array, counted from 0. -/
  | index (i : Nat)
  deriving DecidableEq, Repr

/-- The steps from a value to one of its parts, outermost first. -/
abbrev Path := List Step

/-- The part one step away. -/
def child? (v : Json) (s : Step) : Option Json :=
  match v, s with
  | .object members, .name n => members.lookup n
  | .array items, .index i => items[i]?
  | _, _ => none

/-- The part at a path. -/
def get? (v : Json) : Path → Option Json
  | [] => some v
  | s :: p => (v.child? s).bind (·.get? p)

/-- The members with the first one of a name given another value. -/
def setMember (n : String) (v : Json) : List (String × Json) → List (String × Json)
  | [] => []
  | (m, w) :: rest => if m = n then (m, v) :: rest else (m, w) :: setMember n v rest

/-- The value with another one at a path, if the path leads anywhere. -/
def set? (v : Json) (p : Path) (new : Json) : Option Json :=
  match p with
  | [] => some new
  | s :: p =>
    match v, s with
    | .object members, .name n => do
      let part ← members.lookup n
      let part ← part.set? p new
      return .object (setMember n part members)
    | .array items, .index i => do
      let part ← items[i]?
      let part ← part.set? p new
      return .array (items.set i part)
    | _, _ => none

/-! ## Pointers -/

/-- A member name in a pointer: a tilde is `~0` and a slash `~1`. -/
def escapeName (n : List Char) : List Char :=
  n.flatMap fun c => if c = '~' then ['~', '0'] else if c = '/' then ['~', '1'] else [c]

/-- A step in a pointer. -/
def Step.pointerChars : Step → List Char
  | .name n => '/' :: escapeName n.toList
  | .index i => '/' :: Nat.toDigits 10 i

/-- A path as text. -/
def Path.pointer (p : Path) : String := String.ofList (p.flatMap Step.pointerChars)

/-- Replaces the marks of a tilde and a digit, all of one digit, by the character they stand for. -/
def replaceMark (digit meant : Char) : List Char → List Char
  | '~' :: c :: rest =>
    if c = digit then meant :: replaceMark digit meant rest
    else '~' :: replaceMark digit meant (c :: rest)
  | c :: rest => c :: replaceMark digit meant rest
  | [] => []

/-- The member name that a piece of a pointer stands for: `~1` is a slash, then `~0` a tilde. -/
def unescapeName (piece : List Char) : List Char :=
  replaceMark '0' '~' (replaceMark '1' '/' piece)

/-- The index that a piece of a pointer stands for: decimal, without leading zeros. -/
def readIndex? (piece : List Char) : Option Nat :=
  if piece.isEmpty || !piece.all Char.isDigit || (piece.head? == some '0' && piece.length != 1) then
    none
  else some (piece.foldl (fun n d => 10 * n + (d.toNat - '0'.toNat)) 0)

/-- The part that a piece of a pointer leads to. -/
def childAt? (v : Json) (piece : List Char) : Option Json :=
  match v with
  | .object members => members.lookup (String.ofList piece)
  | .array items => (readIndex? piece).bind (items[·]?)
  | .scalar _ => none

/-- The part that a pointer leads to. -/
def resolve? (v : Json) (pointer : String) : Option Json :=
  match Text.cut '/' pointer.toList with
  | [[]] => some v
  | [] :: pieces => pieces.foldlM (fun part piece => part.childAt? (unescapeName piece)) v
  | _ => none

end VehiclePrivacy.Json
