import Logo.Number.Shortest

/-!
# Fixed-point decimal text

A double is written with a fixed number of places: its exact value, rounded to the nearest multiple
of the last place, with a tie going to the even digit.
-/

namespace Logo

/-- How many units of the last of `places` decimal places are nearest to `mantissa * 2 ^ exponent`.
-/
def fixedUnits (places mantissa : Nat) (exponent : Int) : Nat :=
  let (up, down) := powRatio 2 exponent
  roundDiv (mantissa * up * Nat.pow 10 places) down

/-- Whether the sign of a number that rounds to zero is written. -/
inductive ZeroSign where
  /-- `-0.00` is written as it is. -/
  | kept
  /-- Every zero is written without a sign. -/
  | dropped
  deriving DecidableEq

/-- The text of a double with the given number of places. -/
def fixedText (places : Nat) (zeroSign : ZeroSign) (x : Float) : String :=
  match Binary64.ofFloat x with
  | .nan => "NaN"
  | .infinite negative => signText negative ++ "inf"
  | .finite negative mantissa exponent =>
    let units := fixedUnits places mantissa exponent
    let signed := negative && (zeroSign = .kept || units ≠ 0)
    signText signed ++ (Decimal.mk units (-places)).text

end Logo
