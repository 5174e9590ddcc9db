/-!
# Colors

Colors are triples of byte-sized components.  Fifteen of them have names that scripts may use as
commands.
-/

namespace Logo

/-- A color by its red, green and blue components. -/
structure Rgb where
  /-- How much red. -/
  red : UInt8
  /-- How much green. -/
  green : UInt8
  /-- How much blue. -/
  blue : UInt8
  deriving DecidableEq

namespace Rgb

/-- The components in the order red, green, blue. -/
def components (c : Rgb) : List UInt8 := [c.red, c.green, c.blue]

/-- The colors that have names, in the order in which scripts are matched against them. -/
def named : List (String × Rgb) :=
  [("red", ⟨255, 0, 0⟩),
   ("orange", ⟨255, 128, 0⟩),
   ("yellow", ⟨255, 255, 0⟩),
   ("green", ⟨0, 153, 0⟩),
   ("cyan", ⟨0, 255, 255⟩),
   ("blue", ⟨0, 64, 255⟩),
   ("purple", ⟨128, 0, 255⟩),
   ("magenta", ⟨255, 0, 255⟩),
   ("pink", ⟨250, 175, 190⟩),
   ("olive", ⟨128, 128, 0⟩),
   ("black", ⟨0, 0, 0⟩),
   ("gray", ⟨128, 128, 128⟩),
   ("white", ⟨255, 255, 255⟩),
   ("brown", ⟨128, 64, 0⟩),
   ("tan", ⟨210, 180, 140⟩)]

end Rgb

end Logo
