import VehiclePrivacy.Decimal.Binary

/-!
# The fewest digits that read back

A decimal reads back to a double when it lies in the interval of numbers that round to that double.
The interval's ends are half a step away on either side, a quarter step below a power of two, and
belong to it exactly when the significand is even.

The decimal grids `10 ^ p` are nested, so the number with the fewest digits that reads back lies on
the coarsest grid that meets the interval, and if any point of a grid does then so does one of the
two neighbours of the value itself. `Interval.search` walks from a grid that is too coarse for any
point towards finer ones and stops at the first hit. Of two hits it takes the nearer; an exact tie
is a matter of the notation, and is left to a parameter.
-/

namespace VehiclePrivacy.Decimal

/-- The number `digits * 10 ^ exponent`. -/
structure Digits where
  digits : Nat
  exponent : Int
  deriving DecidableEq, Repr

/-- Which of two equally near decimals is written. -/
inductive Tie where
  /-- The one whose last digit is even. -/
  | toEven
  /-- The larger one. -/
  | up
  deriving DecidableEq, Repr

/-- A positive number with the numbers that round to it, all in units of `2 ^ scale`. -/
structure Interval where
  low : Nat
  value : Nat
  high : Nat
  /-- Whether the two ends round to the number too. -/
  closed : Bool
  scale : Int
  deriving Repr

namespace Interval

/-- What rounds to a positive double, in quarters of its last place. -/
def ofBinary (b : Binary) : Interval where
  low := if b.significand = Nat.pow 2 52 && b.exponent != -1074 then 4 * b.significand - 1
    else 4 * b.significand - 2
  value := 4 * b.significand
  high := 4 * b.significand + 2
  closed := b.significand % 2 == 0
  scale := b.exponent - 2

/-- How many times `10 ^ p` is contained in `2 ^ scale`, as a fraction of naturals. -/
def ratio (i : Interval) (p : Int) : Nat × Nat :=
  (Nat.pow 2 i.scale.toNat * Nat.pow 10 (-p).toNat,
    Nat.pow 2 (-i.scale).toNat * Nat.pow 10 p.toNat)

/-- Whether `d * 10 ^ p` rounds to the number. -/
def meets (i : Interval) (p : Int) (d : Nat) : Bool :=
  let (unit, grid) := i.ratio p
  if i.closed then i.low * unit ≤ d * grid && d * grid ≤ i.high * unit
  else i.low * unit < d * grid && d * grid < i.high * unit

/-- The neighbour of the value on the grid `10 ^ p` to be written, if one of them rounds to it. -/
def nearest? (i : Interval) (tie : Tie) (p : Int) : Option Nat :=
  let (unit, grid) := i.ratio p
  let d := i.value * unit / grid
  let below := i.meets p d
  let above := i.meets p (d + 1)
  if below && above then
    match compare (2 * (i.value * unit)) ((2 * d + 1) * grid) with
    | .lt => some d
    | .gt => some (d + 1)
    | .eq => match tie with
      | .toEven => some (if d % 2 = 0 then d else d + 1)
      | .up => some (d + 1)
  else if below then some d
  else if above then some (d + 1)
  else none

/-- A grid so coarse that all the numbers of the interval lie strictly between its first points:
`8 < 10` bounds the powers of two from above, and `1000 < 1024` those below one. -/
def coarsest (i : Interval) : Int :=
  match i.scale + (i.high.log2 + 1 : Nat) with
  | .ofNat e => (e / 3 : Nat) + 1
  | .negSucc e => 1 - ((e + 1) * 3 / 10 : Nat)

/-- The first hit on the grids `10 ^ p`, `10 ^ (p - 1)`, … -/
def search (i : Interval) (tie : Tie) : Nat → Int → Option Digits
  | 0, _ => none
  | steps + 1, p =>
    match i.nearest? tie p with
    | some d => some ⟨d, p⟩
    | none => search i tie steps (p - 1)

/-- The shortest decimal of the interval. Every double is itself a point of the grid `10 ^ scale`
(of the grid of ones where the scale is positive), so the search goes no further than that. -/
def shortest (i : Interval) (tie : Tie) : Digits :=
  let finest := min i.scale 0
  (i.search tie ((i.coarsest - finest).toNat + 1) i.coarsest).getD
    ⟨i.value * Nat.pow 2 i.scale.toNat, 0⟩

end Interval

/-- The fewest digits that read back to a double other than zero, sign apart. -/
def Binary.shortest (b : Binary) (tie : Tie) : Digits :=
  (Interval.ofBinary b).shortest tie

end VehiclePrivacy.Decimal
