import Logo.Proofs.Token.Partition

/-!
# Numeric literals are the longest ones

A numeric literal is split off piece by piece: digits, then a fraction if a point follows, then an
exponent if a marker follows.  Each piece takes as much as it can, and what stands behind it decides
only whether there is a next one.  That is the longest match of a grammar, which is given here as data:
a `Literal` has its digits, its fraction and its exponent as fields, and `Literal.text` writes it.

* `Literal.isPrefix_splitLiteral`: no literal at the front of a text reaches further than the one that is
  split off.
* `exists_literal_of_splitNumber`: the token at a text that begins like a number, by its longest literal.
* `exists_longest_literal`: so it is wherever a token of a source begins with a digit or a point.
-/

namespace Logo

open Lexeme

/-! ## Literals -/

/-- A text of decimal digits. -/
def IsDigits (text : List Char) : Prop := ∀ c ∈ text, c.isDigit = true

/-- An exponent, which may lack its digits. -/
structure Exponent where
  /-- The letter that begins it. -/
  marker : Char
  /-- The sign behind the letter, if there is one. -/
  sign? : Option Char
  /-- The digits. -/
  digits : List Char
  isMarker : IsMarker marker
  isSign : ∀ c ∈ sign?, IsSign c
  isDigits : IsDigits digits

/-- How an exponent is written. -/
def Exponent.text (e : Exponent) : List Char := e.marker :: (e.sign?.toList ++ e.digits)

/-- A literal, which may lack any of its parts. -/
structure Literal where
  /-- The digits in front of the point. -/
  whole : List Char
  /-- The digits behind the point, if there is one. -/
  fraction? : Option (List Char)
  /-- The exponent, if there is one. -/
  exponent? : Option Exponent
  isDigits_whole : IsDigits whole
  isDigits_fraction : ∀ digits ∈ fraction?, IsDigits digits

namespace Literal

/-- How the fraction of a literal is written. -/
def fractionText (l : Literal) : List Char := l.fraction?.elim [] ('.' :: ·)

/-- How the exponent of a literal is written. -/
def exponentText (l : Literal) : List Char := l.exponent?.elim [] Exponent.text

/-- How a literal is written. -/
def text (l : Literal) : List Char := l.whole ++ (l.fractionText ++ l.exponentText)

/-- Whether a literal ends right behind the letter of its exponent or the sign there. -/
def Unfinished (l : Literal) : Prop := ∃ e ∈ l.exponent?, e.digits = []

end Literal

/-! ## No literal reaches further -/

section Pieces

variable {digits text tail : List Char}

lemma IsDigits.halts {p : Char → Prop} (h : IsDigits digits) (hp : ∀ c, p c → ¬ c.isDigit = true) :
    Halts p digits := fun c hc hpc => hp c hpc (h c (List.mem_of_mem_head? hc))

/-- Digits at the front are split off, together with those that go on with them. -/
lemma splitDigits_append_digits (h : IsDigits digits) (tail : List Char) :
    splitDigits (digits ++ tail) = (digits ++ (splitDigits tail).1, (splitDigits tail).2) := by
  rw [splitDigits, List.takeWhile_append_of_pos h, List.dropWhile_append_of_pos h, splitDigits]

/-- Digits and what follows them are split off, if what follows them is split off behind them. -/
lemma isPrefix_splitDigits (piece : List Char → List Char) (h : IsDigits digits)
    (htext : Halts (·.isDigit = true) text) (hpiece : text <+: piece (text ++ tail)) :
    digits ++ text <+:
      (splitDigits (digits ++ (text ++ tail))).1 ++ piece (splitDigits (digits ++ (text ++ tail))).2 := by
  cases text with
  | nil =>
    rw [List.append_nil, List.nil_append, splitDigits_append_digits h]
    exact (List.prefix_append _ _).trans (List.prefix_append _ _)
  | cons c text =>
    have hhalts : Halts (·.isDigit = true) (c :: text ++ tail) := halts_cons.2 (halts_cons.1 htext)
    rw [splitDigits_eq h hhalts]
    exact (List.prefix_append_right_inj _).2 hpiece

lemma isPrefix_splitPower {sign? : Option Char} (hsign : ∀ c ∈ sign?, IsSign c) (h : IsDigits digits)
    (tail : List Char) :
    sign?.toList ++ digits <+: (splitPower (sign?.toList ++ digits ++ tail)).1 := by
  cases sign? with
  | some c =>
    simp only [Option.toList_some, List.cons_append, List.nil_append]
    rw [splitPower_of_sign (hsign c rfl), splitDigits_append_digits h]
    exact List.cons_prefix_cons.2 ⟨rfl, List.prefix_append _ _⟩
  | none =>
    simp only [Option.toList_none, List.nil_append]
    cases digits with
    | nil => exact List.nil_prefix
    | cons d digits =>
      have hhalts : Halts IsSign (d :: digits ++ tail) :=
        halts_cons.2 (halts_cons.1 (halts_sign_of_digits h))
      rw [splitPower_of_halts hhalts, splitDigits_append_digits h]
      exact List.prefix_append _ _

lemma isPrefix_splitExponent (l : Literal) (tail : List Char) :
    l.exponentText <+: (splitExponent (l.exponentText ++ tail)).1 := by
  unfold Literal.exponentText
  cases l.exponent? with
  | none => exact List.nil_prefix
  | some e =>
    simp only [Option.elim_some, Exponent.text, List.cons_append]
    rw [splitExponent_of_marker e.isMarker]
    exact List.cons_prefix_cons.2 ⟨rfl, isPrefix_splitPower e.isSign e.isDigits tail⟩

lemma halts_exponentText {p : Char → Prop} (l : Literal) (hp : ∀ c, IsMarker c → ¬ p c) :
    Halts p l.exponentText := by
  unfold Literal.exponentText
  cases l.exponent? with
  | none => simp [Halts]
  | some e => exact halts_cons.2 (hp e.marker e.isMarker)

lemma halts_fractionText {p : Char → Prop} (l : Literal) (hp : ¬ p '.') : Halts p l.fractionText := by
  unfold Literal.fractionText
  cases l.fraction? with
  | none => simp [Halts]
  | some digits => exact halts_cons.2 hp

lemma isPrefix_splitFraction (l : Literal) (tail : List Char) :
    l.fractionText ++ l.exponentText <+:
      (splitFraction (l.fractionText ++ l.exponentText ++ tail)).1 ++
        (splitExponent (splitFraction (l.fractionText ++ l.exponentText ++ tail)).2).1 := by
  have hexponent := isPrefix_splitExponent l tail
  unfold Literal.fractionText
  cases hfraction : l.fraction? with
  | none =>
    simp only [Option.elim_none, List.nil_append]
    rcases halts_or (· = '.') (l.exponentText ++ tail) with hhalts | ⟨_, rest, rfl, hpoint⟩
    · rw [splitFraction_of_halts hhalts]
      exact hexponent
    · -- the point stands in the tail, so there is no exponent
      have hnil : l.exponentText = [] := by
        have hhalts := halts_exponentText (p := (· = '.')) l (by rintro c (rfl | rfl) <;> decide)
        cases htext : l.exponentText with
        | nil => rfl
        | cons c text =>
          rw [htext] at hhalts hpoint
          exact absurd (List.cons.inj hpoint).1 ((halts_cons (p := (· = '.'))).1 hhalts)
      rw [hnil]
      exact List.nil_prefix
  | some digits =>
    have hdigits := l.isDigits_fraction digits hfraction
    have hhalts := halts_exponentText (p := (·.isDigit = true)) l (by rintro c (rfl | rfl) <;> decide)
    have hprefix := isPrefix_splitDigits (fun rest => (splitExponent rest).1) hdigits hhalts hexponent
    simp only [Option.elim_some, List.cons_append, List.append_assoc, splitFraction]
    exact List.cons_prefix_cons.2 ⟨rfl, hprefix⟩

end Pieces

namespace Literal

/-- The whole digits end where a fraction or an exponent begins. -/
lemma halts_behind_whole (l : Literal) :
    Halts (·.isDigit = true) (l.fractionText ++ l.exponentText) := by
  have hexponent := halts_exponentText (p := (·.isDigit = true)) l (by rintro c (rfl | rfl) <;> decide)
  exact .append hexponent (halts_fractionText l (by decide))

/-- A literal at the front of a text is no longer than the one that is split off. -/
theorem isPrefix_splitLiteral (l : Literal) (tail : List Char) :
    l.text <+: (splitLiteral (l.text ++ tail)).1 := by
  have hprefix := isPrefix_splitDigits
    (fun rest => (splitFraction rest).1 ++ (splitExponent (splitFraction rest).2).1) l.isDigits_whole
    l.halts_behind_whole (isPrefix_splitFraction l tail)
  simpa only [splitLiteral, text, List.append_assoc] using hprefix

end Literal

/-! ## What is split off is a literal -/

section Splitting

lemma isDigits_splitDigits (text : List Char) : IsDigits (splitDigits text).1 :=
  fun _ hc => isDigit_of_mem_splitDigits hc

lemma exists_fraction (text : List Char) :
    ∃ fraction? : Option (List Char), (∀ digits ∈ fraction?, IsDigits digits) ∧
      (splitFraction text).1 = fraction?.elim [] ('.' :: ·) := by
  rcases halts_or (· = '.') text with htext | ⟨_, rest, rfl, rfl⟩
  · exact ⟨none, by simp, by rw [splitFraction_of_halts htext]; rfl⟩
  · exact ⟨some (splitDigits rest).1, by simpa using isDigits_splitDigits rest, rfl⟩

lemma exists_exponent (text : List Char) :
    ∃ exponent? : Option Exponent, (splitExponent text).1 = exponent?.elim [] Exponent.text := by
  rcases halts_or IsMarker text with htext | ⟨marker, rest, hmarker, rfl⟩
  · exact ⟨none, by rw [splitExponent_of_halts htext]; rfl⟩
  · rw [splitExponent_of_marker hmarker]
    rcases halts_or IsSign rest with hrest | ⟨sign, rest, hsign, rfl⟩
    · refine ⟨some ⟨marker, none, (splitDigits rest).1, hmarker, by simp, isDigits_splitDigits rest⟩, ?_⟩
      rw [splitPower_of_halts hrest]
      rfl
    · refine ⟨some ⟨marker, some sign, (splitDigits rest).1, hmarker, by simpa using hsign,
        isDigits_splitDigits rest⟩, ?_⟩
      rw [splitPower_of_sign hsign]
      rfl

/-- What is split off as a literal is one. -/
theorem exists_literal (text : List Char) : ∃ l : Literal, l.text = (splitLiteral text).1 := by
  obtain ⟨fraction?, hdigits, hfraction⟩ := exists_fraction (splitDigits text).2
  obtain ⟨exponent?, hexponent⟩ := exists_exponent (splitFraction (splitDigits text).2).2
  refine ⟨⟨_, fraction?, exponent?, isDigits_splitDigits text, hdigits⟩, ?_⟩
  simp only [splitLiteral, Literal.text, Literal.fractionText, Literal.exponentText, hfraction,
    hexponent, List.append_assoc]

end Splitting

/-! ## Ends of literals -/

namespace Literal

variable {l : Literal}

/-- A literal that is not unfinished ends with a digit or a point. -/
lemma getLast?_of_finished (h : ¬ l.Unfinished) :
    ∀ c ∈ l.text.getLast?, c.isDigit = true ∨ c = '.' := by
  intro c hc
  unfold text exponentText at hc
  cases hexponent : l.exponent? with
  | some e =>
    have hlast := List.getLast?_eq_some_getLast fun hnil => h ⟨e, hexponent, hnil⟩
    rw [hexponent, Option.elim_some, Exponent.text, ← List.cons_append, ← List.append_assoc,
      ← List.append_assoc, List.getLast?_append, hlast] at hc
    exact .inl (e.isDigits c (List.mem_of_getLast? (hlast.trans hc)))
  | none =>
    rw [hexponent, Option.elim_none, List.append_nil] at hc
    have hmem : c ∈ l.whole ++ l.fractionText := List.mem_of_getLast? hc
    rcases List.mem_append.1 hmem with hmem | hmem
    · exact .inl (l.isDigits_whole c hmem)
    · unfold fractionText at hmem
      cases hfraction : l.fraction? with
      | none => simp [hfraction] at hmem
      | some digits =>
        rw [hfraction, Option.elim_some] at hmem
        exact (List.mem_cons.1 hmem).symm.imp_left (l.isDigits_fraction digits hfraction c)

/-- The last character of a literal tells whether its exponent lacks its digits. -/
theorem dangling_text_iff : dangling l.text = true ↔ l.Unfinished := by
  constructor
  · intro hdangling
    by_contra hfinished
    unfold dangling at hdangling
    split at hdangling
    · rename_i c hlast
      rcases getLast?_of_finished hfinished c hlast with hdigit | rfl
      · have hmem : c = 'e' ∨ c = 'E' ∨ c = '+' ∨ c = '-' := by simpa using hdangling
        rcases hmem with rfl | rfl | rfl | rfl <;> exact absurd hdigit (by decide)
      · exact absurd hdangling (by decide)
    · cases hdangling
  · rintro ⟨e, hexponent, hnil⟩
    have hlast : l.text.getLast? = some (e.sign?.getD e.marker) := by
      rw [text, exponentText, Option.mem_def.1 hexponent, Option.elim_some, Exponent.text, hnil]
      cases e.sign? <;> simp
    have hend : IsMarker (e.sign?.getD e.marker) ∨ IsSign (e.sign?.getD e.marker) := by
      cases hsign : e.sign? with
      | none => exact .inl e.isMarker
      | some c => exact .inr (e.isSign c hsign)
    unfold dangling
    rw [hlast]
    rcases hend with (hc | hc) | (hc | hc) <;> rw [hc] <;> decide

end Literal

/-! ## Tokens -/

namespace Literal

/-- A literal in front of some text is the longest one at its place. -/
def Longest (l : Literal) (rest : List Char) : Prop :=
  ∀ l' : Literal, l'.text <+: l.text ++ rest → l'.text.length ≤ l.text.length

/-- The token that a literal makes in front of some text. -/
structure Makes (l : Literal) (rest : List Char) (t : Token) : Prop where
  point : l.text = ['.'] → t = .symbol "."
  unfinished : l.Unfinished → t = ⟨.malformed, String.ofList l.text⟩
  number : l.text ≠ ['.'] → ¬ l.Unfinished →
    t = .number (String.ofList (l.text ++ (rest.head?.filter Token.isSuffix).toList))

end Literal

/-- The token at a text that begins like a number is made by the longest literal there. -/
theorem exists_literal_of_splitNumber (text : List Char) :
    ∃ (l : Literal) (rest : List Char), text = l.text ++ rest ∧ l.Longest rest ∧
      l.Makes rest (splitNumber text).1 := by
  obtain ⟨l, hl⟩ := exists_literal text
  obtain ⟨rest, hsplit⟩ : ∃ rest, splitLiteral text = (l.text, rest) := ⟨_, by rw [hl]⟩
  have hwhole := splitLiteral_append text
  rw [hsplit] at hwhole
  refine ⟨l, rest, hwhole.symm, fun l' hl' => ?_, ?_⟩
  · rw [hwhole] at hl'
    obtain ⟨tail, rfl⟩ := hl'
    rw [hl]
    exact (l'.isPrefix_splitLiteral tail).length_le
  · by_cases hunfinished : l.Unfinished
    · have hdangling := Literal.dangling_text_iff.2 hunfinished
      have hpoint : l.text ≠ ['.'] := fun h => absurd hdangling (by rw [h]; decide)
      exact ⟨fun h => absurd h hpoint, fun _ => by rw [splitNumber_of_dangling hsplit hdangling],
        fun _ h => absurd hunfinished h⟩
    · have hdangling := Bool.eq_false_iff.2 (mt Literal.dangling_text_iff.1 hunfinished)
      refine ⟨fun hpoint => ?_, fun h => absurd h hunfinished, fun hpoint _ => ?_⟩
      · rw [hpoint] at hsplit
        rw [splitNumber_of_point hsplit]
        rfl
      · rcases halts_or (Token.isSuffix · = true) rest with hrest | ⟨c, after, hc, rfl⟩
        · have hnone : rest.head?.filter Token.isSuffix = none :=
            Option.filter_eq_none_iff.2 hrest
          rw [splitNumber_of_halts hsplit hdangling hpoint hrest, hnone, Option.toList_none,
            List.append_nil]
        · have hsome : (c :: after).head?.filter Token.isSuffix = some c := by simp [hc]
          rw [splitNumber_of_suffix hsplit hdangling hpoint hc, hsome, Option.toList_some]

/-! ## Sources -/

/-- No name begins with a digit. -/
lemma not_isNameStart_of_isDigit {c : Char} (h : c.isDigit = true) : ¬ isNameStart c = true := by
  have halpha : c.isAlpha = false := by
    unfold Char.isDigit at h
    unfold Char.isAlpha Char.isUpper Char.isLower
    grind
  have hmark : c ≠ '_' ∧ c ≠ '$' := by
    constructor <;> rintro rfl <;> exact absurd h (by decide)
  simp [isNameStart, halpha, hmark]

/-- A digit or a point begins a numeric literal. -/
lemma splitToken_of_isNumberStart (keywords : List String) {c : Char} (rest : List Char)
    (hc : c.isDigit = true ∨ c = '.') : splitToken keywords c rest = splitNumber (c :: rest) := by
  have hstart : isNumberStart c = true := by simpa [isNumberStart] using hc
  have hline : c ≠ '\n' := by
    rintro rfl
    exact absurd hc (by decide)
  have hname : ¬ isNameStart c = true := by
    rcases hc with hdigit | rfl
    · exact not_isNameStart_of_isDigit hdigit
    · decide
  rw [splitToken, if_neg hline, if_neg hname, if_pos hstart]

/-- A source is its tokens in order, with gaps of blanks between them that may end in a comment where a
line end or the end of the source follows.

Wherever one of the tokens begins with a digit or a point, there is a longest literal in the source from
there on.  If it is a point alone, the token is that symbol; if it ends right behind the letter of its
exponent or the sign there, the token is malformed and has the text of the literal; otherwise the token
is a number with the text of the literal and, if it stands there, one suffix. -/
theorem exists_longest_literal (keywords : List String) (source : String) :
    ∃ row last, row.map Placed.token = (TokenStream.ofString keywords source).remaining ∧
      Partition source.toList row last ∧
      ∀ front x behind, row = front ++ x :: behind →
        (∃ c ∈ (x.token.text.toList ++ (written behind ++ last)).head?, c.isDigit = true ∨ c = '.') →
          ∃ (l : Literal) (rest : List Char),
            x.token.text.toList ++ (written behind ++ last) = l.text ++ rest ∧ l.Longest rest ∧
              l.Makes rest x.token := by
  obtain ⟨row, last, htokens, hpartition, hplaces⟩ :=
    (scanned_remaining_ofString keywords source).exists_partition
  refine ⟨row, last, htokens, hpartition, fun front x behind hrow ⟨c, hc, hstart⟩ => ?_⟩
  obtain ⟨d, after, htoken, hwhole⟩ := exists_splitToken_of_split? (hplaces front x behind hrow)
  rw [hwhole] at hc ⊢
  obtain rfl : d = c := by simpa using hc
  have hliteral := exists_literal_of_splitNumber (d :: after)
  rwa [← splitToken_of_isNumberStart keywords after hstart, htoken] at hliteral

end Logo
