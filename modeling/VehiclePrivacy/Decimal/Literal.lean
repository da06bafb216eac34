import VehiclePrivacy.Decimal.Binary

/-!
# Reading a float from text

The grammar of numbers in settings and in numeric strings: an optional sign, then `inf`,
`infinity` or `nan` in any letter case, or digits with an optional point and an optional exponent.
At least one digit stands before the exponent, on either side of the point. The value is the double
nearest to the number written, ties to even.
-/

namespace VehiclePrivacy.Decimal

/-- The value of one decimal digit. -/
def digitValue (c : Char) : Nat := c.toNat - '0'.toNat

/-- The natural number that decimal digits write. -/
def natOfDigits (ds : List Char) : Nat :=
  ds.foldl (fun n d => 10 * n + digitValue d) 0

/-- The double nearest to `digits * 10 ^ exponent`. A number that certainly rounds to infinity or
to zero is settled by its count of digits, so no huge power of ten is ever formed. -/
def nearestFloat (digits : Nat) (exponent : Int) : Float :=
  let first := exponent + (Nat.toDigits 10 digits).length
  if digits = 0 then 0
  else if first > 310 then Float.ofScientific 1 false 310
  else if first < -330 then 0
  else Float.ofScientific digits (exponent < 0) exponent.natAbs

/-- The exponent after its mark: an optional sign and at least one digit, up to the end. -/
def readExponent? (s : List Char) : Option Int :=
  let (negative, ds) := match s with
    | '-' :: r => (true, r)
    | '+' :: r => (false, r)
    | r => (false, r)
  if ds.isEmpty || !ds.all Char.isDigit then none
  else some (if negative then -(natOfDigits ds : Int) else natOfDigits ds)

/-- An unsigned decimal number, up to the end of the text. -/
def readDecimal? (s : List Char) : Option Float :=
  let whole := s.takeWhile Char.isDigit
  let afterWhole := s.dropWhile Char.isDigit
  let (fraction, rest) := match afterWhole with
    | '.' :: r => (r.takeWhile Char.isDigit, r.dropWhile Char.isDigit)
    | r => ([], r)
  let value (exponent : Int) : Float :=
    nearestFloat (natOfDigits (whole ++ fraction)) (exponent - fraction.length)
  if whole.isEmpty && fraction.isEmpty then none
  else match rest with
    | [] => some (value 0)
    | mark :: r => if mark = 'e' || mark = 'E' then (readExponent? r).map value else none

/-- The words for floats that no digits write. -/
def readWord? (s : List Char) : Option Float :=
  let word := s.map Char.toLower
  if word = "inf".toList || word = "infinity".toList then some (1.0 / 0.0)
  else if word = "nan".toList then some (0.0 / 0.0)
  else none

/-- Reads a float from the whole of a text; no blanks are allowed. -/
def readChars? (s : List Char) : Option Float :=
  let (negative, magnitude) := match s with
    | '-' :: r => (true, r)
    | '+' :: r => (false, r)
    | r => (false, r)
  ((readWord? magnitude).or (readDecimal? magnitude)).map fun x => if negative then -x else x

/-- Reads a float from a text. -/
def read? (s : String) : Option Float := readChars? s.toList

end VehiclePrivacy.Decimal
