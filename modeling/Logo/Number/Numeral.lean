import Logo.Number.Binary64

/-!
# Reading numbers

The texts that denote a double: digits with an optional point and at least one digit beside it, an
optional exponent that has digits, or one of the words for an infinity and for no number, all with
an optional sign.  The value is the double nearest to the written number.
-/

namespace Logo

/-- A written decimal number `whole.fraction * 10 ^ exponent` without its sign. -/
structure Numeral where
  /-- The digits before the point. -/
  whole : List Char
  /-- The digits after the point. -/
  fraction : List Char
  /-- The exponent, zero when none is written. -/
  exponent : Int
  deriving DecidableEq

namespace Numeral

/-- The whole number that gains one decimal digit at its end. -/
def pushDigit (value : Nat) (c : Char) : Nat := 10 * value + (c.toNat - '0'.toNat)

/-- The value of a list of decimal digits whose halves, down to some depth, are read apart. -/
def halvesValue : Nat → List Char → Nat
  | 0, digits => digits.foldl pushDigit 0
  | depth + 1, digits =>
    let half := digits.length / 2
    halvesValue depth (digits.take half) * Nat.pow 10 (digits.length - half)
      + halvesValue depth (digits.drop half)

/-- The whole number that a list of decimal digits denotes.  The halves of a long list are read
apart, so that the numbers stay small for as long as they can. -/
def digitsValue (digits : List Char) : Nat := halvesValue (Nat.log2 (digits.length / 64)) digits

/-- A number in front of some digits counts as many powers of ten as there are digits. -/
theorem foldl_pushDigit (value : Nat) (digits : List Char) :
    digits.foldl pushDigit value = value * Nat.pow 10 digits.length + digits.foldl pushDigit 0 := by
  induction digits generalizing value with
  | nil => simp
  | cons c rest ih =>
    have hpower : Nat.pow 10 (rest.length + 1) = Nat.pow 10 rest.length * 10 := rfl
    rw [List.foldl_cons, List.foldl_cons, ih, ih (pushDigit 0 c), List.length_cons, hpower]
    simp only [pushDigit]
    grind

/-- At any depth, reading by halves gives what reading from left to right gives. -/
theorem halvesValue_eq_foldl (depth : Nat) (digits : List Char) :
    halvesValue depth digits = digits.foldl pushDigit 0 := by
  induction depth generalizing digits with
  | zero => rfl
  | succ depth ih =>
    simp only [halvesValue, ih]
    rw [← List.length_drop, ← foldl_pushDigit, ← List.foldl_append, List.take_append_drop]

/-- An exponent that has reached this size takes no further digits. -/
def exponentBound : Nat := Nat.pow 2 16

/-- The size of a written exponent.  The digits after those that reach the bound change nothing: by
then the number is zero or infinite, unless about as many digits stand around its point. -/
def exponentSize (digits : List Char) : Nat :=
  digits.foldl (fun size c => if size < exponentBound then pushDigit size c else size) 0

/-- Splits an optional sign off a text; the flag tells whether it is a minus. -/
def splitSign : List Char → Bool × List Char
  | '-' :: rest => (true, rest)
  | '+' :: rest => (false, rest)
  | rest => (false, rest)

/-- The exponent that ends a numeral: nothing, or a marker, an optional sign and digits. -/
def exponent? : List Char → Option Int
  | [] => some 0
  | marker :: rest =>
    let (negative, digits) := splitSign rest
    if (marker = 'e' ∨ marker = 'E') ∧ digits ≠ [] ∧ digits.all Char.isDigit then
      some (if negative then -(exponentSize digits) else exponentSize digits)
    else none

/-- The fraction of a numeral and what follows it; without a point the fraction is empty. -/
def splitFraction : List Char → List Char × List Char
  | '.' :: rest => (rest.takeWhile Char.isDigit, rest.dropWhile Char.isDigit)
  | rest => ([], rest)

/-- Reads an unsigned decimal number, refusing one without a digit beside its point. -/
def ofChars? (text : List Char) : Option Numeral :=
  let whole := text.takeWhile Char.isDigit
  let (fraction, rest) := splitFraction (text.dropWhile Char.isDigit)
  if whole = [] ∧ fraction = [] then none
  else (exponent? rest).map fun exponent => ⟨whole, fraction, exponent⟩

/-- The digits of the number as one whole number. -/
def digits (n : Numeral) : Nat := digitsValue (n.whole ++ n.fraction)

/-- The power of ten that the last digit counts. -/
def scale (n : Numeral) : Int := n.exponent - n.fraction.length

/-- The double nearest to the number.  Above `10 ^ 400` it is infinite and below `10 ^ (-400)` it is
zero, which is decided on the exponent alone so that no huge power is ever computed. -/
def toFloat (negative : Bool) (n : Numeral) : Float :=
  let width : Int := (n.whole.length + n.fraction.length : Nat)
  let digits := n.digits
  if digits = 0 ∨ n.scale + width < -400 then Binary64.nearest negative 0 1
  else if 400 < n.scale then Binary64.nearest negative (Nat.pow 2 1024) 1
  else
    let (up, down) := powRatio 10 n.scale
    Binary64.nearest negative (digits * up) down

end Numeral

/-- The double that one of the words for a non-finite value denotes, in any ASCII case. -/
def nonFinite? (negative : Bool) (text : List Char) : Option Float :=
  let word := String.ofList (text.map Char.toLower)
  if word = "nan" then some (Float.ofBits 0x7ff8000000000000)
  else if word = "inf" ∨ word = "infinity" then some (Binary64.nearest negative (Nat.pow 2 1024) 1)
  else none

/-- Reads a double: an optional sign before a numeral or a word for a non-finite value. -/
def readFloat? (text : String) : Option Float :=
  let (negative, unsigned) := Numeral.splitSign text.toList
  match Numeral.ofChars? unsigned with
  | some numeral => some (numeral.toFloat negative)
  | none => nonFinite? negative unsigned

end Logo
