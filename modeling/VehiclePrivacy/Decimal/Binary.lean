/-!
# Floats as exact numbers

A finite double is a sign, a natural number and a power of two. Everything the library says about
digits starts from this reading of the bit pattern, so that printing and whole-number tests are
exact arithmetic and no float operation is left in them.
-/

namespace VehiclePrivacy.Decimal

/-- The number `± significand * 2 ^ exponent`. -/
structure Binary where
  negative : Bool
  significand : Nat
  exponent : Int
  deriving DecidableEq, Repr

namespace Binary

/-- The fraction field of a bit pattern. -/
def fractionField (bits : UInt64) : Nat := bits.toNat % Nat.pow 2 52

/-- The biased exponent field of a bit pattern; 2047 marks infinities and NaN. -/
def exponentField (bits : UInt64) : Nat := bits.toNat / Nat.pow 2 52 % Nat.pow 2 11

/-- The sign bit of a bit pattern. -/
def signField (bits : UInt64) : Bool := bits.toNat / Nat.pow 2 63 % 2 == 1

/-- Reads a finite double exactly; NaN and the infinities have no value. -/
def ofFloat? (x : Float) : Option Binary :=
  let bits := x.toBits
  let fraction := fractionField bits
  match exponentField bits with
  | 2047 => none
  | 0 => some ⟨signField bits, fraction, -1074⟩
  | e + 1 => some ⟨signField bits, Nat.pow 2 52 + fraction, (e : Int) - 1074⟩

/-- The magnitude as a whole number, if it is one. -/
def natAbs? (b : Binary) : Option Nat :=
  match b.exponent with
  | .ofNat e => some (b.significand * Nat.pow 2 e)
  | .negSucc e =>
    let unit := Nat.pow 2 (e + 1)
    if b.significand % unit = 0 then some (b.significand / unit) else none

/-- The number as an integer, if it is one; both zeros are 0. -/
def toInt? (b : Binary) : Option Int :=
  b.natAbs?.map fun n => if b.negative then -(n : Int) else n

end Binary

/-- The value of a float as an integer, if it is finite and whole. -/
def wholeNumber? (x : Float) : Option Int :=
  (Binary.ofFloat? x).bind Binary.toInt?

/-- The float nearest to a natural number below `2 ^ 64`. -/
def floatOfNat (n : Nat) : Float := n.toUInt64.toFloat

/-- The float nearest to an integer of magnitude below `2 ^ 64`. -/
def floatOfInt (i : Int) : Float :=
  if i < 0 then -floatOfNat i.natAbs else floatOfNat i.natAbs

end VehiclePrivacy.Decimal
