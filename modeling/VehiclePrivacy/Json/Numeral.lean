import VehiclePrivacy.Json.Basic
import VehiclePrivacy.Decimal.Literal

/-!
# The value of a number's characters

Integers that fit a machine word are exact. Every other number goes through a 64-bit significand
and a table of powers of ten, which is fast and not always correctly rounded: digits are taken into
the significand until the next one would overflow it, and the rest only count as places.
-/

namespace VehiclePrivacy.Json

/-- The parts of a number's characters. -/
structure Numeral where
  negative : Bool
  whole : List Char
  /-- The digits after the point, if there is a point. -/
  fraction : Option (List Char)
  /-- Whether the exponent is negative, and its digits, if there is an exponent. -/
  exponent : Option (Bool × List Char)
  deriving DecidableEq

namespace Numeral

/-- Splits the characters of a number into its parts. -/
def ofChars (s : List Char) : Numeral :=
  let (negative, s) := match s with
    | '-' :: r => (true, r)
    | r => (false, r)
  let whole := s.takeWhile Char.isDigit
  let s := s.dropWhile Char.isDigit
  let (fraction, s) := match s with
    | '.' :: r => (some (r.takeWhile Char.isDigit), r.dropWhile Char.isDigit)
    | r => (none, r)
  let exponent := match s with
    | [] => none
    | _ :: '-' :: ds => some (true, ds)
    | _ :: '+' :: ds => some (false, ds)
    | _ :: ds => some (false, ds)
  ⟨negative, whole, fraction, exponent⟩

/-- The first value that a significand cannot take. -/
def significandLimit : Nat := Nat.pow 2 64

/-- Takes digits into a significand as long as they fit; the others are left over. -/
def absorb (significand : Nat) : List Char → Nat × List Char
  | [] => (significand, [])
  | d :: ds =>
    let next := 10 * significand + Decimal.digitValue d
    if next < significandLimit then absorb next ds else (significand, d :: ds)

/-- `10 ^ n`, correctly rounded, for `n` up to 308. -/
def powerOfTen (n : Nat) : Float := Float.ofScientific 1 false n

/-- The largest power of ten in the table. -/
def tableSize : Nat := 308

/-- `f / 10 ^ n` by steps of the largest power in the table; zero needs no steps. -/
def scaleDown (f : Float) (n : Nat) : Float :=
  if n ≤ tableSize then f / powerOfTen n
  else if f == 0 then f
  else scaleDown (f / powerOfTen tableSize) (n - tableSize)
termination_by n
decreasing_by simp only [tableSize] at *; omega

/-- `f * 10 ^ n`, unless that is out of range. -/
def scaleUp? (f : Float) (n : Nat) : Option Float :=
  if n ≤ tableSize then
    let x := f * powerOfTen n
    if x.isInf then none else some x
  else if f == 0 then some f
  else none

/-- `significand * 10 ^ exponent` by the table of powers of ten. -/
def scale? (significand : Nat) (exponent : Int) : Option Float :=
  let f := Decimal.floatOfNat significand
  match exponent with
  | .ofNat n => scaleUp? f n
  | .negSucc n => some (scaleDown f (n + 1))

/-- The first value that a written exponent cannot take. -/
def exponentLimit : Nat := Nat.pow 2 31

/-- The magnitude of a number with a point or an exponent, or with more digits than fit. A written
exponent past its limit gives zero, or a number out of range where the exponent is positive and the
significand is not zero. -/
def magnitude? (n : Numeral) : Option Float :=
  let (head, unread) := absorb 0 n.whole
  let digits := n.fraction.getD []
  let (significand, dropped) := absorb head digits
  let places : Int := unread.length - (digits.length - dropped.length : Nat)
  match n.exponent with
  | none => scale? significand places
  | some (negative, ds) =>
    let e := Decimal.natOfDigits ds
    if e < exponentLimit then
      scale? significand (if negative then places - e else places + e)
    else if significand != 0 && !negative then none
    else some 0

/-- The number as a double, if it is in range. -/
def toFloat? (n : Numeral) : Option Float :=
  n.magnitude?.map fun x => if n.negative then -x else x

/-- The value of a number, if it is in range: an integer if it is written as one and fits a machine
word, else a double. Negative zero is a double, for an integer cannot show its sign. -/
def value? (n : Numeral) : Option Number :=
  let digits := Decimal.natOfDigits n.whole
  if n.fraction.isNone && n.exponent.isNone && digits < significandLimit then
    if !n.negative then some (.integer digits)
    else if 0 < digits && digits ≤ Nat.pow 2 63 then some (.integer (-digits))
    else some (.real (-Decimal.floatOfNat digits))
  else n.toFloat?.map .real

end Numeral

/-- The value of a number's characters, if it is in range. -/
def numberValue? (lexeme : List Char) : Option Number :=
  (Numeral.ofChars lexeme).value?

end VehiclePrivacy.Json
