import Logo.Proofs.Number.Nearest
import Logo.Proofs.Token.Literal

/-!
# Scanned literals have values

The scanner and the reader of numbers have grammars of their own.  The scanner is content with a point
for a mantissa, the reader is not; the reader knows no suffixes, of which the scanner leaves at most one;
and the scanner calls malformed what lacks the digits of an exponent.  So they differ in one thing only.

* `Literal.readFloat?_text`: the reader reads a finished literal if there is a digit outside its exponent.
* `Literal.readFloat?_text_eq_value`: what it reads is the number that is written, although it counts the
  digits of an exponent only up to a bound.
* `value?_of_number`: the value of every number that is scanned.
-/

namespace Logo

open Lexeme

/-! ## The number that is written -/

/-- A size with the sign of an exponent. -/
def Exponent.signed (e : Exponent) (size : Nat) : Int := if e.sign? = some '-' then -size else size

namespace Literal

variable {l : Literal}

/-- The digits of a literal outside its exponent. -/
def mantissa (l : Literal) : List Char := l.whole ++ l.fraction?.getD []

/-- The numeral of a literal whose exponent has the size that a measure of digits gives it. -/
def numeralBy (l : Literal) (size : List Char → Nat) : Numeral :=
  ⟨l.whole, l.fraction?.getD [], l.exponent?.elim 0 fun e => e.signed (size e.digits)⟩

/-- The numeral that a literal denotes. -/
def numeral (l : Literal) : Numeral := l.numeralBy fun digits => digits.foldl Numeral.pushDigit 0

/-! ## Reading a literal -/

lemma splitFraction_text (l : Literal) :
    Numeral.splitFraction (l.fractionText ++ l.exponentText) =
      (l.fraction?.getD [], l.exponentText) := by
  unfold fractionText
  cases hfraction : l.fraction? with
  | none =>
    have hhalts := halts_exponentText (p := (· = '.')) l (by rintro c (rfl | rfl) <;> decide)
    simp only [Option.elim_none, List.nil_append, Option.getD_none]
    unfold Numeral.splitFraction
    split
    · rename_i heq
      exact absurd rfl (hhalts '.' (by simp [heq]))
    · rfl
  | some digits =>
    have hhalts := halts_exponentText (p := (·.isDigit = true)) l (by rintro c (rfl | rfl) <;> decide)
    exact splitDigits_eq (l.isDigits_fraction digits hfraction) hhalts

lemma splitSign_digits {digits : List Char} (h : IsDigits digits) :
    Numeral.splitSign digits = (false, digits) := by
  have hhalts := halts_sign_of_digits h
  unfold Numeral.splitSign
  split
  · exact absurd (.inr rfl) (hhalts '-' rfl)
  · exact absurd (.inl rfl) (hhalts '+' rfl)
  · rfl

/-- A finished exponent is read with the size that the reader gives it. -/
lemma exponent?_text (h : ¬ l.Unfinished) :
    Numeral.exponent? l.exponentText = some (l.numeralBy Numeral.exponentSize).exponent := by
  unfold exponentText numeralBy
  cases hexponent : l.exponent? with
  | none => rfl
  | some e =>
    have hne : e.digits ≠ [] := fun hnil => h ⟨e, hexponent, hnil⟩
    have hsign : Numeral.splitSign (e.sign?.toList ++ e.digits) =
        (decide (e.sign? = some '-'), e.digits) := by
      cases hsign : e.sign? with
      | none => simpa using splitSign_digits e.isDigits
      | some c => rcases e.isSign c hsign with rfl | rfl <;> rfl
    have hall : e.digits.all Char.isDigit = true := List.all_eq_true.2 e.isDigits
    have hcond : (e.marker = 'e' ∨ e.marker = 'E') ∧ e.digits ≠ [] ∧
        e.digits.all Char.isDigit = true := ⟨e.isMarker, hne, hall⟩
    simp only [Option.elim_some, Exponent.text, Numeral.exponent?, hsign, if_pos hcond,
      Exponent.signed, decide_eq_true_eq]

/-- A finished literal is read as a numeral if there is a digit outside its exponent. -/
lemma ofChars?_text (h : ¬ l.Unfinished) :
    Numeral.ofChars? l.text =
      if l.mantissa = [] then none else some (l.numeralBy Numeral.exponentSize) := by
  have hhalts : Halts (·.isDigit = true) (l.fractionText ++ l.exponentText) := l.halts_behind_whole
  have hwhole : splitDigits l.text = (l.whole, l.fractionText ++ l.exponentText) :=
    splitDigits_eq l.isDigits_whole hhalts
  obtain ⟨htake, hdrop⟩ := Prod.mk.inj hwhole
  unfold Numeral.ofChars?
  simp only [htake, hdrop, splitFraction_text, exponent?_text h, Option.map_some, mantissa,
    List.append_eq_nil_iff]
  rfl

/-- What no digit, no point and no letter of an exponent is does not begin a literal. -/
lemma halts_text {p : Char → Prop} (l : Literal) (hdigit : ∀ c, p c → ¬ c.isDigit = true)
    (hpoint : ¬ p '.') (hmarker : ∀ c, IsMarker c → ¬ p c) : Halts p l.text := by
  have hbehind : Halts p (l.fractionText ++ l.exponentText) :=
    .append (halts_exponentText l hmarker) (halts_fractionText l hpoint)
  exact hbehind.append (l.isDigits_whole.halts hdigit)

lemma splitSign_text (l : Literal) : Numeral.splitSign l.text = (false, l.text) := by
  have hhalts : Halts IsSign l.text :=
    l.halts_text (by rintro c (rfl | rfl) <;> decide) (by decide) (by rintro c (rfl | rfl) <;> decide)
  unfold Numeral.splitSign
  split
  · rename_i heq
    exact absurd (.inr rfl) (hhalts '-' (by simp [heq]))
  · rename_i heq
    exact absurd (.inl rfl) (hhalts '+' (by simp [heq]))
  · rfl

/-- A digit has no case. -/
lemma toLower_of_isDigit {c : Char} (h : c.isDigit = true) : c.toLower = c := by
  unfold Char.toLower
  refine dif_neg fun hupper => ?_
  simp only [Char.isDigit] at h
  grind

/-- A literal is none of the words that are read as numbers too. -/
lemma nonFinite?_text (l : Literal) : nonFinite? false l.text = none := by
  have hhalts : Halts (fun c => c.toLower = 'n' ∨ c.toLower = 'i') l.text := by
    refine l.halts_text ?_ (by decide) (by rintro c (rfl | rfl) <;> decide)
    intro c hc hdigit
    rw [toLower_of_isDigit hdigit] at hc
    rcases hc with rfl | rfl <;> exact absurd hdigit (by decide)
  have hword (c : Char) (word : List Char) (hc : c = 'n' ∨ c = 'i') :
      String.ofList (l.text.map Char.toLower) ≠ String.ofList (c :: word) := by
    intro heq
    obtain ⟨d, rest, htext, rfl, -⟩ := List.map_eq_cons_iff.1 (String.ofList_injective heq)
    exact hhalts d (by simp [htext]) hc
  unfold nonFinite?
  rw [if_neg (hword 'n' ['a', 'n'] (.inl rfl)), if_neg]
  rintro (heq | heq)
  · exact hword 'i' ['n', 'f'] (.inr rfl) heq
  · exact hword 'i' ['n', 'f', 'i', 'n', 'i', 't', 'y'] (.inr rfl) heq

/-- The reader reads a finished literal if there is a digit outside its exponent. -/
theorem readFloat?_text (h : ¬ l.Unfinished) :
    readFloat? (String.ofList l.text) =
      if l.mantissa = [] then none else some ((l.numeralBy Numeral.exponentSize).toFloat false) := by
  unfold readFloat?
  simp only [String.toList_ofList, splitSign_text, ofChars?_text h]
  split_ifs
  · exact nonFinite?_text l
  · rfl

/-! ## The value of a literal -/

/-- Whether the exponent is small enough to be counted to its last digit, or the digits outside it are
too few to bring a larger one back into the range of doubles. -/
def Countable (l : Literal) : Prop :=
  (∀ e ∈ l.exponent?, e.digits.foldl Numeral.pushDigit 0 < Numeral.exponentBound) ∨
    l.mantissa.length + 400 < Numeral.exponentBound

/-- The double nearest to the number that a literal denotes. -/
def value (l : Literal) : Float :=
  Binary64.nearest false (l.numeral.digits * (powRatio 10 l.numeral.scale).1)
    (powRatio 10 l.numeral.scale).2

lemma isDigits_mantissa (l : Literal) : IsDigits l.mantissa := by
  intro c hc
  rcases List.mem_append.1 hc with hwhole | hfraction
  · exact l.isDigits_whole c hwhole
  · cases hdigits : l.fraction? with
    | none => simp [hdigits] at hfraction
    | some digits =>
      rw [hdigits, Option.getD_some] at hfraction
      exact l.isDigits_fraction digits hdigits c hfraction

/-- An exponent that is not counted to the end makes no difference. -/
lemma toFloat_numeralBy_exponentSize (h : l.Countable) :
    (l.numeralBy Numeral.exponentSize).toFloat false = l.numeral.toFloat false := by
  unfold numeral numeralBy
  cases hexponent : l.exponent? with
  | none => rfl
  | some e =>
    simp only [Option.elim_some]
    rcases Numeral.exponentSize_eq_or e.digits with heq | ⟨hsize, hexact⟩
    · rw [heq]
    · have hshort : l.mantissa.length + 400 < Numeral.exponentBound :=
        h.resolve_left fun hcounted => Nat.not_le.2 (hcounted e hexponent) hexact
      rw [mantissa, List.length_append] at hshort
      refine Numeral.toFloat_eq_of_le false hshort ?_
      unfold Exponent.signed
      split_ifs <;> omega

/-- The value of a finished literal with a digit outside its exponent. -/
theorem readFloat?_text_eq_value (h : ¬ l.Unfinished) (hmantissa : l.mantissa ≠ [])
    (hcount : l.Countable) : readFloat? (String.ofList l.text) = some l.value := by
  have hvalue : l.numeral.toFloat false = l.value :=
    Numeral.toFloat_eq_nearest false l.isDigits_mantissa
  rw [readFloat?_text h, if_neg hmantissa, toFloat_numeralBy_exponentSize hcount, hvalue]

/-! ## Tokens -/

/-- Without its suffix the token of a literal has the text of the literal. -/
lemma withoutSuffix_text (h : ¬ l.Unfinished) {suffix? : Option Char}
    (hsuffix : ∀ c ∈ suffix?, Token.isSuffix c = true) {text : String}
    (htext : text.toList = l.text ++ suffix?.toList) :
    Token.withoutSuffix text = String.ofList l.text := by
  unfold Token.withoutSuffix
  cases suffix? with
  | some c =>
    rw [Option.toList_some] at htext
    simp [htext, hsuffix c rfl]
  | none =>
    have hlist : l.text = text.toList := by simpa using htext.symm
    rw [hlist, String.ofList_toList]
    split
    · rename_i c hlast
      refine if_neg fun hc => ?_
      rcases getLast?_of_finished h c (hlist ▸ hlast) with hdigit | rfl
      · exact not_inLiteral_of_isSuffix hc (.inl hdigit)
      · exact absurd hc (by decide)
    · rfl

/-- The longest literal at a text that begins with a digit or a point takes that character. -/
lemma Longest.head?_text {c : Char} {text rest : List Char} (h : l.Longest rest)
    (htext : c :: text = l.text ++ rest) (hc : isNumberStart c = true) : l.text.head? = some c := by
  have hstart : c.isDigit = true ∨ c = '.' := by simpa [isNumberStart] using hc
  have hshort : ∃ l' : Literal, l'.text = [c] := by
    rcases hstart with hdigit | rfl
    · exact ⟨⟨[c], none, none, by simpa [IsDigits] using hdigit, by simp⟩, rfl⟩
    · exact ⟨⟨[], some [], none, by simp [IsDigits], by simp [IsDigits]⟩, rfl⟩
  obtain ⟨l', hl'⟩ := hshort
  have hlength := h l' (by rw [hl', ← htext]; exact ⟨text, rfl⟩)
  rw [hl', List.length_singleton] at hlength
  cases hfront : l.text with
  | nil => simp [hfront] at hlength
  | cons d front =>
    rw [hfront, List.cons_append] at htext
    rw [(List.cons.inj htext).1, List.head?_cons]

/-- A literal without a digit outside its exponent is a point with an exponent, if it begins like a
number. -/
lemma text_of_mantissa {c : Char} (hmantissa : l.mantissa = []) (hhead : l.text.head? = some c)
    (hc : isNumberStart c = true) : l.text = '.' :: l.exponentText := by
  obtain ⟨hwhole, hfraction⟩ := List.append_eq_nil_iff.1 hmantissa
  have htext : l.text = l.fractionText ++ l.exponentText := by rw [text, hwhole, List.nil_append]
  cases hpoint : l.fraction? with
  | some digits =>
    rw [hpoint, Option.getD_some] at hfraction
    rw [htext, fractionText, hpoint, hfraction]
    rfl
  | none =>
    rw [htext, fractionText, hpoint, Option.elim_none, List.nil_append] at hhead
    have hhalts : Halts (isNumberStart · = true) l.exponentText :=
      halts_exponentText l (by rintro d (rfl | rfl) <;> decide)
    exact absurd hc (hhalts c hhead)

/-- A number is made of a finished literal, which is no lone point, and at most one suffix. -/
lemma Makes.of_number {rest : List Char} {t : Token} (h : l.Makes rest t) (hkind : t.kind = .number) :
    l.text ≠ ['.'] ∧ ¬ l.Unfinished ∧
      t.text.toList = l.text ++ (rest.head?.filter Token.isSuffix).toList := by
  have hpoint : l.text ≠ ['.'] := fun hpoint => by
    rw [h.point hpoint] at hkind
    cases hkind
  have hfinished : ¬ l.Unfinished := fun hunfinished => by
    rw [h.unfinished hunfinished] at hkind
    cases hkind
  exact ⟨hpoint, hfinished, by rw [h.number hpoint hfinished]; simp [Token.number]⟩

end Literal

/-- A number of a source is a literal with at most one suffix behind it, and its value is what is read
from the literal alone.  There is one if and only if there is a digit outside the exponent, and then it
is the double nearest to the written number; any other number is a point with an exponent. -/
theorem value?_of_number (keywords : List String) (source : String) {t : Token}
    (ht : t ∈ (TokenStream.ofString keywords source).remaining) (hkind : t.kind = .number) :
    ∃ (l : Literal) (suffix? : Option Char),
      t.text.toList = l.text ++ suffix?.toList ∧ (∀ c ∈ suffix?, Token.isSuffix c = true) ∧
      t.value? = readFloat? (String.ofList l.text) ∧
      (t.value?.isSome = true ↔ l.mantissa ≠ []) ∧
      (l.mantissa ≠ [] → l.Countable → t.value? = some l.value) ∧
      (l.mantissa = [] → ∃ e ∈ l.exponent?, e.digits ≠ [] ∧ l.text = '.' :: e.text) := by
  obtain ⟨row, last, htokens, -, hplaces⟩ :=
    (scanned_remaining_ofString keywords source).exists_partition
  rw [← htokens] at ht
  obtain ⟨x, hx, rfl⟩ := List.mem_map.1 ht
  obtain ⟨front, behind, hrow⟩ := List.append_of_mem hx
  obtain ⟨c, after, htoken, -⟩ := exists_splitToken_of_split? (hplaces front x behind hrow)
  obtain ⟨hstart, hnumber⟩ := splitNumber_of_kind hkind htoken
  obtain ⟨l, rest, htext, hlongest, hmakes⟩ := exists_literal_of_splitNumber (c :: after)
  rw [hnumber] at hmakes
  obtain ⟨hpoint, hfinished, hwritten⟩ := hmakes.of_number hkind
  have hsuffix : ∀ d ∈ rest.head?.filter Token.isSuffix, Token.isSuffix d = true :=
    fun d hd => (Option.filter_eq_some_iff.1 hd).2
  have hvalue : x.token.value? = readFloat? (String.ofList l.text) := by
    rw [Token.value?, Literal.withoutSuffix_text hfinished hsuffix hwritten]
  refine ⟨l, _, hwritten, hsuffix, hvalue, ?_, fun hmantissa hcount => ?_, fun hmantissa => ?_⟩
  · rw [hvalue, Literal.readFloat?_text hfinished]
    split_ifs with hmantissa <;> simp [hmantissa]
  · rw [hvalue, Literal.readFloat?_text_eq_value hfinished hmantissa hcount]
  · have hshape := Literal.text_of_mantissa hmantissa (hlongest.head?_text htext hstart) hstart
    unfold Literal.exponentText at hshape
    cases hexponent : l.exponent? with
    | none => exact absurd (by rw [hshape, hexponent]; rfl) hpoint
    | some e =>
      rw [hexponent, Option.elim_some] at hshape
      exact ⟨e, rfl, fun hnil => hfinished ⟨e, hexponent, hnil⟩, hshape⟩

/-- A literal with a suffix is read. -/
theorem value?_of_number_suffixed :
    ⟨.number, "7e-2f"⟩ ∈ (TokenStream.ofString [] "x 7e-2f\n").remaining ∧
      (Token.value? ⟨.number, "7e-2f"⟩).isSome = true := by
  have hmem : ⟨.number, "7e-2f"⟩ ∈ (TokenStream.ofString [] "x 7e-2f\n").remaining := by
    decide +kernel
  obtain ⟨l, _, htext, _, _, hiff, _, hnone⟩ := value?_of_number [] "x 7e-2f\n" hmem rfl
  refine ⟨hmem, hiff.2 fun hmantissa => ?_⟩
  obtain ⟨e, _, _, hpoint⟩ := hnone hmantissa
  rw [hpoint] at htext
  have hhead : '7' = '.' := (List.cons.inj htext).1
  exact absurd hhead (by decide)

end Logo
