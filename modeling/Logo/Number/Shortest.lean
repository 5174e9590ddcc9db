import Logo.Number.Binary64

/-!
# Shortest decimal text

A double is written with the fewest digits that read back to it, and with the digits nearest to it
where several do.  The numbers that read back as a double form an interval: half way to each
neighbour, with the ends included when the mantissa is even.  So the search asks, for coarser to
finer decimal grids, whether the grid has a point in that interval.

The text is positional at every size: no exponent is ever written.
-/

namespace Logo

/-- The decimal number `digits * 10 ^ exponent`. -/
structure Decimal where
  /-- The digits, read as one whole number. -/
  digits : Nat
  /-- The power of ten that the last digit counts. -/
  exponent : Int
  deriving DecidableEq

namespace Decimal

/-- Positional text: whole digits, then a point and the fraction if there is one. -/
def text (d : Decimal) : String :=
  let digits := toString d.digits
  if 0 ≤ d.exponent then
    digits ++ String.ofList (List.replicate d.exponent.toNat '0')
  else
    let places := (-d.exponent).toNat
    let padded := List.replicate (places + 1 - digits.length) '0' ++ digits.toList
    let whole := padded.length - places
    String.ofList (padded.take whole ++ '.' :: padded.drop whole)

end Decimal

/-- The numbers that round to one positive double, in quarters of the unit of its last bit. -/
structure RoundingInterval where
  /-- The lower end. -/
  low : Nat
  /-- The double itself. -/
  centre : Nat
  /-- The upper end. -/
  high : Nat
  /-- Whether the ends themselves round to the double. -/
  closed : Bool
  /-- A quarter of the last bit is two to this power. -/
  unit : Int

namespace RoundingInterval

/-- The interval of `mantissa * 2 ^ exponent`.  Below a power of two the doubles lie twice as close,
so the lower end is nearer there. -/
def ofValue (mantissa : Nat) (exponent : Int) : RoundingInterval where
  low :=
    if mantissa = Nat.pow 2 52 ∧ Binary64.minExponent < exponent then 4 * mantissa - 1
    else 4 * mantissa - 2
  centre := 4 * mantissa
  high := 4 * mantissa + 2
  closed := mantissa % 2 == 0
  unit := exponent - 2

/-- The factors `(a, b)` for which `d * 10 ^ place` lies at the point `x` exactly when
`d * a = x * b`. -/
def scale (i : RoundingInterval) (place : Int) : Nat × Nat :=
  let (tenUp, tenDown) := powRatio 10 place
  let (twoUp, twoDown) := powRatio 2 i.unit
  (tenUp * twoDown, tenDown * twoUp)

/-- Whether `d * 10 ^ place` rounds to the double. -/
def contains (i : RoundingInterval) (d : Nat) (place : Int) : Bool :=
  let (a, b) := i.scale place
  if i.closed then i.low * b ≤ d * a && d * a ≤ i.high * b
  else i.low * b < d * a && d * a < i.high * b

/-- The point nearest to the double of those on the grid `10 ^ place` that round to it, if any.
Only the two neighbours of the double on the grid can be nearest; of two equally near, the larger
wins. -/
def onGrid? (i : RoundingInterval) (place : Int) : Option Nat :=
  let (a, b) := i.scale place
  let below := i.centre * b / a
  let above := below + 1
  match i.contains below place, i.contains above place with
  | true, true => some (if 2 * (i.centre * b) < (below + above) * a then below else above)
  | true, false => some below
  | false, true => some above
  | false, false => none

/-- The first hit on the grids `place`, `place - 1`, …, trying at most `tries` of them. -/
def firstHit? (i : RoundingInterval) : Nat → Int → Option Decimal
  | 0, _ => none
  | tries + 1, place =>
    match i.onGrid? place with
    | some digits => some ⟨digits, place⟩
    | none => i.firstHit? tries (place - 1)

end RoundingInterval

/-- A power of ten above `mantissa * 2 ^ exponent`, by a rational bound just above `log₁₀ 2`. -/
def decimalBound (mantissa : Nat) (exponent : Int) : Int :=
  ((Nat.log2 mantissa : Int) + 1 + exponent) * 30103 / 100000 + 1

/-- The shortest decimal that reads back as `mantissa * 2 ^ exponent`.  Seventeen digits tell any
two doubles apart, so twenty grids below the bound are more than enough. -/
def shortestDecimal (mantissa : Nat) (exponent : Int) : Decimal :=
  if mantissa = 0 then ⟨0, 0⟩
  else
    let interval := RoundingInterval.ofValue mantissa exponent
    (interval.firstHit? 20 (decimalBound mantissa exponent)).getD ⟨0, 0⟩

/-- The sign of a written number. -/
def signText (negative : Bool) : String := if negative then "-" else ""

/-- The shortest text of a double.  Zero keeps its sign and no sign is written on `NaN`. -/
def shortestText (x : Float) : String :=
  match Binary64.ofFloat x with
  | .nan => "NaN"
  | .infinite negative => signText negative ++ "inf"
  | .finite negative mantissa exponent =>
    signText negative ++ (shortestDecimal mantissa exponent).text

end Logo
