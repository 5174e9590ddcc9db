import Logo.Number.Rounding

/-!
# Exact values of doubles

`Float` arithmetic rounds at every step, but its bit patterns are exact.  `Binary64` is the value that
a pattern stands for; printing, reading, counting and reducing angles all work on it, so that each of
them is a statement about whole numbers.
-/

namespace Logo

/-- The exact value of a double: no number, an infinity, or `± mantissa * 2 ^ exponent`. -/
inductive Binary64 where
  /-- No number at all. -/
  | nan
  /-- An infinity. -/
  | infinite (negative : Bool)
  /-- The number `mantissa * 2 ^ exponent`, negated when `negative` holds; zero keeps its sign. -/
  | finite (negative : Bool) (mantissa : Nat) (exponent : Int)
  deriving DecidableEq

namespace Binary64

/-- The exponent of the smallest positive double. -/
def minExponent : Int := -1074

/-- The value of a 64-bit pattern: a sign bit, eleven exponent bits and 52 fraction bits. -/
def ofBits (bits : Nat) : Binary64 :=
  let negative := bits / Nat.pow 2 63 % 2 == 1
  let biased : Nat := bits / Nat.pow 2 52 % Nat.pow 2 11
  let fraction : Nat := bits % Nat.pow 2 52
  if biased = 2047 then
    if fraction = 0 then .infinite negative else .nan
  else if biased = 0 then .finite negative fraction minExponent
  else .finite negative (fraction + Nat.pow 2 52) ((biased : Int) - 1075)

/-- The exact value of a double. -/
def ofFloat (x : Float) : Binary64 := ofBits x.toBits.toNat

/-- The pattern of positive infinity. -/
def infinityBits : Nat := 2047 * Nat.pow 2 52

/-- The exponent of the last mantissa bit of the double nearest to `num / den`, both positive. -/
def lastBit (num den : Nat) : Int :=
  let width : Int := (Nat.log2 num : Int) - Nat.log2 den
  let (up, down) := powRatio 2 width
  let leading := if num * down < den * up then width - 1 else width
  max (leading - 52) minExponent

/-- The pattern of the double nearest to `num / den`; what is too large goes to infinity.  A
mantissa that rounds up to the next power of two carries into the exponent field, which is the right
double. -/
def nearestBits (num den : Nat) : Nat :=
  if num = 0 then 0
  else
    let exponent := lastBit num den
    let (up, down) := powRatio 2 exponent
    let mantissa := roundDiv (num * down) (den * up)
    min (mantissa + (exponent - minExponent).toNat * Nat.pow 2 52) infinityBits

/-- The double nearest to `± num / den`, where `den` is positive; a tie goes to the even mantissa.
-/
def nearest (negative : Bool) (num den : Nat) : Float :=
  let sign := if negative then Nat.pow 2 63 else 0
  Float.ofBits (UInt64.ofNat (sign + nearestBits num den))

/-- The remainder of a value on division by a positive whole number, with the sign of the value.
Doubles are closed under this operation, so nothing is rounded; an infinity has no remainder. -/
def remainder (value : Binary64) (divisor : Nat) : Float :=
  match value with
  | .nan | .infinite _ => Float.ofBits 0x7ff8000000000000
  | .finite negative mantissa exponent =>
    let (up, down) := powRatio 2 exponent
    nearest negative (mantissa * up % (divisor * down)) down

/-- The fraction of a value, with the sign of the value. -/
def fraction (value : Binary64) : Float := value.remainder 1

/-! ## Whole numbers -/

/-- The double nearest to a whole number. -/
def ofInt (n : Int) : Float := nearest (decide (n < 0)) n.natAbs 1

/-- The whole number that a value is cast to.  A fraction is dropped, and a value beyond one of the
bounds becomes that bound.  What is no number becomes zero. -/
def toWhole (value : Binary64) (low high : Int) : Int :=
  match value with
  | .nan => 0
  | .infinite negative => if negative then low else high
  | .finite negative mantissa exponent =>
    let (up, down) := powRatio 2 exponent
    let whole : Int := (mantissa * up / down : Nat)
    let signed := if negative then -whole else whole
    if signed < low then low else if high < signed then high else signed

end Binary64

end Logo
