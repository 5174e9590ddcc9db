import Logo.Text.Faceless

/-!
# Quoted text

A text between double quotes in which every character can be seen: quotes and backslashes are
escaped, and so are the characters that would not show.
-/

namespace Logo

namespace Text

/-- The hexadecimal escape of a character, as in `\u{1b}`. -/
def codeEscape (c : Char) : String :=
  "\\u\x7b" ++ String.ofList (Nat.toDigits 16 c.toNat) ++ "\x7d"

/-- A character as it stands between quotes. -/
def quoteChar (c : Char) : String :=
  match c with
  | '\x00' => "\\0"
  | '\t' => "\\t"
  | '\n' => "\\n"
  | '\r' => "\\r"
  | '"' => "\\\""
  | '\\' => "\\\\"
  | _ =>
    if ' ' ≤ c ∧ c ≤ '~' then String.singleton c
    else if c < '\x80' ∨ isFaceless c then codeEscape c
    else String.singleton c

/-- A text in quotes. -/
def quoted (text : String) : String :=
  "\"" ++ String.join (text.toList.map quoteChar) ++ "\""

end Text

end Logo
