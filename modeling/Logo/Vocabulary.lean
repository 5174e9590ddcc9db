import Logo.Color

/-!
# The words of the language

Identifiers in this list are keywords; every other identifier is a name that scripts may choose.
-/

namespace Logo

namespace Vocabulary

/-- The words of statements and expressions. -/
def statementWords : List String :=
  ["penup", "pendown", "home", "jump", "set", "repeat", "while", "if", "else", "do", "forward",
   "right", "left", "face", "color", "def", "getX", "getY"]

/-- Every keyword: the statement words, then the names of the colors. -/
def keywords : List String := statementWords ++ Rgb.named.map Prod.fst

/-- No keyword is listed twice. -/
theorem keywords_nodup : keywords.Nodup := by decide

end Vocabulary

end Logo
