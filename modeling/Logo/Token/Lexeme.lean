import Logo.Token

/-!
# Lexemes

How the next token is cut off a text.  Blanks and a comment in front of it are a *gap*; the first
character behind the gap decides the sort of token, and a token extends as far as its sort allows.
-/

namespace Logo

namespace Lexeme

/-! ## Gaps -/

/-- Whether a character separates tokens without being one. -/
def isBlank (c : Char) : Bool := c = ' ' || c = '\t'

/-- What is left behind the gap at the front of a text.  A comment runs up to the end of its line,
which is a token of its own, or up to the end of the text. -/
def skipGap (text : List Char) : List Char :=
  match text.dropWhile isBlank with
  | '/' :: '/' :: comment => comment.dropWhile (· ≠ '\n')
  | rest => rest

/-! ## Names -/

/-- Whether a character may begin a name. -/
def isNameStart (c : Char) : Bool := c.isAlpha || c = '_' || c = '$'

/-- Whether a character may stand in a name. -/
def isNameChar (c : Char) : Bool := c.isAlphanum || c = '_' || c = '$'

/-- The token of a name: a keyword if it is listed as one. -/
def nameToken (keywords : List String) (text : String) : Token :=
  ⟨if text ∈ keywords then .keyword else .name, text⟩

/-! ## Numeric literals -/

/-- Whether a character may begin a numeric literal. -/
def isNumberStart (c : Char) : Bool := c.isDigit || c = '.'

/-- Splits `digits*` off a text. -/
def splitDigits (text : List Char) : List Char × List Char :=
  (text.takeWhile Char.isDigit, text.dropWhile Char.isDigit)

/-- Splits `[. digits*]` off a text. -/
def splitFraction : List Char → List Char × List Char
  | '.' :: rest =>
    let (digits, rest) := splitDigits rest
    ('.' :: digits, rest)
  | rest => ([], rest)

/-- Splits `[+|-] digits*` off a text. -/
def splitPower : List Char → List Char × List Char
  | c :: rest =>
    if c = '+' ∨ c = '-' then
      let (digits, rest) := splitDigits rest
      (c :: digits, rest)
    else splitDigits (c :: rest)
  | [] => ([], [])

/-- Splits `[(e|E) [+|-] digits*]` off a text. -/
def splitExponent : List Char → List Char × List Char
  | c :: rest =>
    if c = 'e' ∨ c = 'E' then
      let (power, rest) := splitPower rest
      (c :: power, rest)
    else ([], c :: rest)
  | [] => ([], [])

/-- Splits `digits* [. digits*] [(e|E) [+|-] digits*]` off a text. -/
def splitLiteral (text : List Char) : List Char × List Char :=
  let (whole, rest) := splitDigits text
  let (fraction, rest) := splitFraction rest
  let (exponent, rest) := splitExponent rest
  (whole ++ fraction ++ exponent, rest)

/-- Whether a literal lacks the digits of its exponent, which shows in its last character. -/
def dangling (literal : List Char) : Bool :=
  match literal.getLast? with
  | some c => c ∈ ['e', 'E', '+', '-']
  | none => false

/-- The token at a text that begins like a number, and the rest of the text.  A lone point is a
symbol; only a number takes a type suffix. -/
def splitNumber (text : List Char) : Token × List Char :=
  let (literal, rest) := splitLiteral text
  if dangling literal then (⟨.malformed, String.ofList literal⟩, rest)
  else if literal = ['.'] then (⟨.symbol, "."⟩, rest)
  else
    match rest with
    | [] => (.number (String.ofList literal), [])
    | c :: behind =>
      if Token.isSuffix c then (.number (String.ofList (literal ++ [c])), behind)
      else (.number (String.ofList literal), c :: behind)

/-! ## Tokens -/

/-- The token whose first character is given, and the rest of the text. -/
def splitToken (keywords : List String) (first : Char) (rest : List Char) : Token × List Char :=
  if first = '\n' then (⟨.eol, "\n"⟩, rest)
  else if isNameStart first then
    (nameToken keywords (String.ofList (first :: rest.takeWhile isNameChar)),
      rest.dropWhile isNameChar)
  else if isNumberStart first then splitNumber (first :: rest)
  else (⟨.symbol, String.singleton first⟩, rest)

/-- The first token of a text and what follows it; `none` if the text is one gap. -/
def split? (keywords : List String) (text : List Char) : Option (Token × List Char) :=
  match skipGap text with
  | [] => none
  | first :: rest => some (splitToken keywords first rest)

/-- A token is split off at the first character behind the gap. -/
theorem split?_eq_some_iff {keywords : List String} {text rest : List Char} {t : Token} :
    split? keywords text = some (t, rest) ↔
      ∃ first behind, skipGap text = first :: behind ∧ splitToken keywords first behind = (t, rest) := by
  unfold split?
  cases skipGap text with
  | nil => simp
  | cons first behind =>
    constructor
    · intro h
      exact ⟨first, behind, rfl, Option.some.inj h⟩
    · rintro ⟨_, _, ⟨⟩, h⟩
      exact congrArg some h

/-- There is no token where nothing stands behind the gap. -/
theorem split?_eq_none_iff {keywords : List String} {text : List Char} :
    split? keywords text = none ↔ skipGap text = [] := by
  unfold split?
  cases skipGap text with
  | nil => simp
  | cons first behind => simp

/-! ## Every token takes at least one character -/

theorem length_dropWhile_le {α : Type} (p : α → Bool) (l : List α) :
    (l.dropWhile p).length ≤ l.length :=
  (List.dropWhile_suffix p).length_le

theorem length_skipGap_le (text : List Char) : (skipGap text).length ≤ text.length := by
  have blanks := length_dropWhile_le isBlank text
  unfold skipGap
  split
  · rename_i comment eq
    have tail := length_dropWhile_le (· ≠ '\n') comment
    rw [eq] at blanks
    simp only [List.length_cons] at blanks
    omega
  · exact blanks

theorem splitDigits_append (text : List Char) :
    (splitDigits text).1 ++ (splitDigits text).2 = text :=
  List.takeWhile_append_dropWhile

theorem splitFraction_append (text : List Char) :
    (splitFraction text).1 ++ (splitFraction text).2 = text := by
  unfold splitFraction
  split <;> simp [splitDigits_append]

theorem splitPower_append (text : List Char) :
    (splitPower text).1 ++ (splitPower text).2 = text := by
  unfold splitPower
  split
  · split <;> simp [splitDigits_append]
  · rfl

theorem splitExponent_append (text : List Char) :
    (splitExponent text).1 ++ (splitExponent text).2 = text := by
  unfold splitExponent
  split
  · split <;> simp [splitPower_append]
  · rfl

/-- Nothing is lost when a literal is split off. -/
theorem splitLiteral_append (text : List Char) :
    (splitLiteral text).1 ++ (splitLiteral text).2 = text := by
  simp [splitLiteral, splitExponent_append, splitFraction_append, splitDigits_append,
    List.append_assoc]

/-- A text that begins like a number begins with a literal that is not empty. -/
theorem splitLiteral_ne_nil {c : Char} (rest : List Char) (start : isNumberStart c = true) :
    (splitLiteral (c :: rest)).1 ≠ [] := by
  by_cases digit : c.isDigit = true
  · simp [splitLiteral, splitDigits, digit]
  · have point : c = '.' := by simpa [isNumberStart, digit] using start
    subst point
    simp [splitLiteral, splitDigits, splitFraction, digit]

theorem length_splitNumber_lt {c : Char} {rest : List Char} (start : isNumberStart c = true) :
    (splitNumber (c :: rest)).2.length < (c :: rest).length := by
  have whole := congrArg List.length (splitLiteral_append (c :: rest))
  have some := List.length_pos_iff.2 (splitLiteral_ne_nil rest start)
  rw [List.length_append] at whole
  unfold splitNumber
  simp only
  split
  · dsimp only
    omega
  · split
    · dsimp only
      omega
    · split
      · rename_i eq
        simp only [eq, List.length_nil] at whole ⊢
        omega
      · rename_i eq
        simp only [eq, List.length_cons] at whole ⊢
        split <;> simp only [List.length_cons] <;> omega

/-- The rest behind a token is shorter than the text the token begins. -/
theorem length_splitToken_le (keywords : List String) (first : Char) (rest : List Char) :
    (splitToken keywords first rest).2.length ≤ rest.length := by
  unfold splitToken
  split
  · exact Nat.le_refl _
  · split
    · exact length_dropWhile_le _ _
    · split
      · rename_i start
        exact Nat.le_of_lt_succ (length_splitNumber_lt start)
      · exact Nat.le_refl _

/-- Reading a token shortens the text. -/
theorem length_lt_of_split? {keywords : List String} {text rest : List Char} {t : Token}
    (h : split? keywords text = some (t, rest)) : rest.length < text.length := by
  obtain ⟨first, behind, gap, token⟩ := split?_eq_some_iff.1 h
  have shorter := length_splitToken_le keywords first behind
  have skipped := length_skipGap_le text
  rw [token] at shorter
  rw [gap] at skipped
  exact Nat.lt_of_le_of_lt shorter (Nat.lt_of_succ_le skipped)

end Lexeme

end Logo
