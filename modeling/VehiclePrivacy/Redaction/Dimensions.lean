import VehiclePrivacy.Json.Basic

/-!
# Overwriting vehicle dimensions

Width and length can tell unusual vehicles apart, so both are overwritten with one number.
-/

namespace VehiclePrivacy

/-- What widths and lengths are overwritten with. -/
structure SizeRule where
  number : Float := 0
  deriving DecidableEq

/-- The number as it stands in a message: a whole number of one machine word is written without a
point, and what is no number is `null`. -/
def SizeRule.value (r : SizeRule) : Json :=
  match Decimal.wholeNumber? r.number with
  | some i => if i.natAbs < Nat.pow 2 63 then .integer i else .ofFloat r.number
  | none => .ofFloat r.number

end VehiclePrivacy
