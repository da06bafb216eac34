import VehiclePrivacy.Decimal.Binary

/-!
# JSON values

A value is a scalar, an array or an object. Objects keep their members in the order in which they
were written; whether a name may be repeated is a matter of the reader. Numbers without point or
exponent that fit a machine word stay integers, all others are doubles.
-/

namespace VehiclePrivacy

/-- A number: an integer in `[-2 ^ 63, 2 ^ 64)` or a finite double. -/
inductive Number where
  | integer (value : Int)
  | real (value : Float)
  deriving DecidableEq

/-- The double nearest to a number. -/
def Number.toFloat : Number → Float
  | .integer i => Decimal.floatOfInt i
  | .real x => x

/-- A value without parts. -/
inductive Scalar where
  | null
  | bool (value : Bool)
  | number (value : Number)
  | string (value : String)
  deriving DecidableEq

/-- A JSON value. -/
inductive Json where
  | scalar (value : Scalar)
  | array (items : List Json)
  | object (members : List (String × Json))

namespace Json

instance : Inhabited Json := ⟨.scalar .null⟩

/-- The value `null`. -/
abbrev null : Json := .scalar .null

/-- A truth value. -/
abbrev bool (b : Bool) : Json := .scalar (.bool b)

/-- A string. -/
abbrev string (s : String) : Json := .scalar (.string s)

/-- An integer. -/
abbrev integer (i : Int) : Json := .scalar (.number (.integer i))

/-- A finite double. -/
abbrev real (x : Float) : Json := .scalar (.number (.real x))

/-- A double as a number, or `null` where JSON has no number for it. -/
def ofFloat (x : Float) : Json :=
  if x.isFinite then real x else null

end Json

/-- The two kinds of containers, as told by their brackets. -/
inductive Bracket where
  | array
  | object
  deriving DecidableEq, Repr

end VehiclePrivacy
