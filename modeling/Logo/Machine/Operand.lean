import Logo.Machine.Error

/-!
# Whole operands

The count of a loop and the components of a color are whole numbers of bounded size, while
expressions have doubles as their values.  A cast would turn any double into such a number, the
nearer bound if need be; so each conversion first checks that the cast changes nothing that counts.
-/

namespace Logo

/-- The smallest count. -/
def minCount : Int := -(Nat.pow 2 63 : Nat)

/-- The largest count.  It is no double and rounds up, to the first number that is too large. -/
def maxCount : Int := (Nat.pow 2 63 : Nat) - 1

/-- The count that a double denotes: its value, if that is a whole number in range. -/
def loopCount (value : Float) : Fallible Int :=
  if value.isFinite then
    if value < Binary64.ofInt minCount ∨ Binary64.ofInt maxCount ≤ value then
      .error (.countOutOfRange value)
    else if (Binary64.ofFloat value).fraction != 0 then .error (.countNotWhole value)
    else .ok ((Binary64.ofFloat value).toWhole minCount maxCount)
  else .error (.countNotFinite value)

/-- The largest component of a color. -/
def maxComponent : Nat := 255

/-- The component that a double denotes: its value without the fraction, if it is in range. -/
def colorComponent (value : Float) : Fallible UInt8 :=
  if 0 ≤ value ∧ value ≤ Binary64.ofInt maxComponent then
    .ok (UInt8.ofNat ((Binary64.ofFloat value).toWhole 0 maxComponent).toNat)
  else .error (.colorRange value)

end Logo
