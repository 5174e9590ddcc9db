import Logo.Number.Numeral

/-!
# Tokens

The unit that source text is cut into: a kind and the exact text.  Parse trees carry a token at
every node.  Two tokens *agree* when their texts are equal, whatever their kinds; that is the
comparison under which a tree written by hand as plain text matches a parsed one.
-/

namespace Logo

/-- The lexical category of a token. -/
inductive TokenKind where
  /-- An identifier that is not a keyword. -/
  | name
  /-- A numeric literal. -/
  | number
  /-- An identifier with a meaning of its own. -/
  | keyword
  /-- A single character of any other sort. -/
  | symbol
  /-- The end of a line. -/
  | eol
  /-- A numeric literal that stops right after its exponent marker or the sign behind it. -/
  | malformed
  deriving DecidableEq

/-- A kind together with the text that was read. -/
structure Token where
  /-- The lexical category. -/
  kind : TokenKind
  /-- The text, exactly as it stands in the source. -/
  text : String
  deriving DecidableEq

namespace Token

/-- A keyword token, also used for the nodes that have no text of their own in the source. -/
def keyword (text : String) : Token := ⟨.keyword, text⟩

/-- A number token. -/
def number (text : String) : Token := ⟨.number, text⟩

/-- Whether two tokens have the same text. -/
def Agrees (s t : Token) : Prop := s.text = t.text

instance (s t : Token) : Decidable (s.Agrees t) := inferInstanceAs (Decidable (s.text = t.text))

/-- The hash looks at the text alone, so tokens that agree hash alike. -/
instance : Hashable Token := ⟨fun t => hash t.text⟩

/-- Tokens that agree cannot be told apart by their hashes. -/
theorem Agrees.hash_eq {s t : Token} (h : s.Agrees t) : hash s = hash t :=
  congrArg (fun text : String => hash text) h

/-- Whether a character may end a numeric literal as a type suffix. -/
def isSuffix (c : Char) : Bool := c ∈ ['d', 'D', 'f', 'F', 'l', 'L']

/-- A text without its type suffix, if it ends in one. -/
def withoutSuffix (text : String) : String :=
  match text.toList.getLast? with
  | some c => if isSuffix c then String.ofList text.toList.dropLast else text
  | none => text

/-- The number that a literal denotes.  A literal whose point has no digit beside it, such as `.e5`,
denotes none. -/
def value? (t : Token) : Option Float := readFloat? (withoutSuffix t.text)

end Token

end Logo
