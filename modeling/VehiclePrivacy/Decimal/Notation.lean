import VehiclePrivacy.Decimal.Shortest

/-!
# How a float is written

One printer with a record of choices, and the three records in use: the numbers of a JSON text,
plain numbers in messages, and numbers in a listing of a value's parts. All three write the fewest
digits that read back.
-/

namespace VehiclePrivacy.Decimal

/-- The choices that tell one way of writing floats from another. -/
structure Notation where
  /-- The decimal exponents of the first digit that are written without an exponent mark. -/
  positional : Int → Bool
  /-- Whether a whole number written without an exponent mark ends in `.0`. -/
  pointZero : Bool
  /-- Whether a positive exponent carries a plus sign. -/
  plusSign : Bool
  /-- Which of two equally near decimals is written. -/
  tie : Tie

namespace Notation

/-- Numbers of a JSON text: positional from `0.00001` up to sixteen digits before the point, else
`1e-6`, `1.5e+300`. -/
def json : Notation where
  positional e := -5 ≤ e && e ≤ 15
  pointZero := true
  plusSign := true
  tie := .toEven

/-- Plain numbers in messages: never an exponent, whole numbers without a point. -/
def plain : Notation where
  positional _ := true
  pointZero := false
  plusSign := false
  tie := .up

/-- Numbers in listings: positional from `0.0001` up to sixteen digits before the point, else
`1e-5`, `1e16`. -/
def listing : Notation where
  positional e := -4 ≤ e && e ≤ 15
  pointZero := true
  plusSign := false
  tie := .up

/-- Decimal digits with the point where the exponent puts it. -/
def positionalText (n : Notation) (ds : List Char) (exponent : Int) : List Char :=
  match exponent with
  | .ofNat zeros => ds ++ List.replicate zeros '0' ++ (if n.pointZero then ['.', '0'] else [])
  | .negSucc k =>
    let places := k + 1
    if places < ds.length then
      ds.take (ds.length - places) ++ '.' :: ds.drop (ds.length - places)
    else
      '0' :: '.' :: List.replicate (places - ds.length) '0' ++ ds

/-- One digit, the others after a point, and the exponent of the first. -/
def exponentText (n : Notation) (ds : List Char) (first : Int) : List Char :=
  let mantissa := match ds with
    | d :: e :: more => d :: '.' :: e :: more
    | short => short
  let sign := if first < 0 then ['-'] else if n.plusSign then ['+'] else []
  mantissa ++ 'e' :: sign ++ Nat.toDigits 10 first.natAbs

/-- A positive decimal in the notation. -/
def digitsText (n : Notation) (d : Digits) : List Char :=
  let ds := Nat.toDigits 10 d.digits
  let first := d.exponent + ((ds.length : Int) - 1)
  if n.positional first then n.positionalText ds d.exponent else n.exponentText ds first

/-- A finite number in the notation; the sign of zero is kept. -/
def binaryText (n : Notation) (b : Binary) : List Char :=
  (if b.negative then ['-'] else []) ++
    (if b.significand = 0 then n.positionalText ['0'] 0 else n.digitsText (b.shortest n.tie))

/-- A float in the notation; what is not a number is `NaN`, and infinities are `inf`, `-inf`. -/
def chars (n : Notation) (x : Float) : List Char :=
  match Binary.ofFloat? x with
  | some b => n.binaryText b
  | none =>
    if x.isNaN then ['N', 'a', 'N'] else if x < 0 then ['-', 'i', 'n', 'f'] else ['i', 'n', 'f']

/-- A float in the notation, as a string. -/
def text (n : Notation) (x : Float) : String := String.ofList (n.chars x)

end Notation

end VehiclePrivacy.Decimal
