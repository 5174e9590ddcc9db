import Logo.Proofs.Token.Standing
import Mathlib.Data.List.Count

/-!
# Where tokens stand

A text is a row of tokens with gaps around them: blanks and, in front of a line end or at the end of
the text, a comment.  `Laid front text xs` says so of the part of a text behind `front`, and that the
line of each token is one more than the number of line ends in front of it.

* `Lexeme.exists_gap_of_split?`: the token that is split off stands behind a gap.
* `Lexeme.count_newline_of_split?`: only a line end has a line end in its text, so the line that a
  stream counts is the line of the text.
* `laid_tokenize`: the tokens of a text are laid out in it.
-/

namespace Logo

namespace Lexeme

/-! ## Gaps -/

/-- A text of blanks. -/
def IsBlanks (text : List Char) : Prop := ∀ c ∈ text, isBlank c = true

instance (text : List Char) : Decidable (IsBlanks text) :=
  decidable_of_iff (text.all isBlank = true) List.all_eq_true

/-- A comment, without the line end behind it. -/
def IsComment (text : List Char) : Prop := ∃ words, text = '/' :: '/' :: words ∧ '\n' ∉ words

/-- Blanks with a comment behind them. -/
def IsRemark (text : List Char) : Prop :=
  ∃ blanks comment, text = blanks ++ comment ∧ IsBlanks blanks ∧ IsComment comment

lemma not_mem_of_isBlanks {text : List Char} (h : IsBlanks text) : '\n' ∉ text := fun hmem =>
  absurd (h _ hmem) (by decide)

lemma not_mem_of_isRemark {text : List Char} (h : IsRemark text) : '\n' ∉ text := by
  obtain ⟨blanks, _, rfl, hblanks, words, rfl, hwords⟩ := h
  simp [not_mem_of_isBlanks hblanks, hwords]

/-- What a text has in front of its first token.  A comment goes on up to a line end. -/
lemma exists_gap (text : List Char) :
    ∃ gap, text = gap ++ skipGap text ∧
      (IsBlanks gap ∨ IsRemark gap ∧ ∀ c ∈ (skipGap text).head?, c = '\n') := by
  have hwhole := List.takeWhile_append_dropWhile (p := isBlank) (l := text)
  have hblanks : IsBlanks (text.takeWhile isBlank) := fun c hc => List.mem_takeWhile_imp hc
  unfold skipGap
  split
  · rename_i comment heq
    have hcomment := List.takeWhile_append_dropWhile (p := (· ≠ '\n')) (l := comment)
    have hwords : '\n' ∉ comment.takeWhile (· ≠ '\n') := fun h => by
      simpa using List.mem_takeWhile_imp h
    refine ⟨text.takeWhile isBlank ++ '/' :: '/' :: comment.takeWhile (· ≠ '\n'), ?_,
      .inr ⟨⟨_, _, rfl, hblanks, _, rfl, hwords⟩, fun c hc => ?_⟩⟩
    · rw [heq] at hwhole
      refine hwhole.symm.trans ?_
      simp only [List.append_assoc, List.cons_append, hcomment]
    · have hhead := List.head?_dropWhile_not (· ≠ '\n') comment
      rw [Option.mem_def] at hc
      rw [hc] at hhead
      simpa using hhead
  · exact ⟨_, hwhole.symm, .inl hblanks⟩

/-! ## Tokens -/

section Tokens

variable {keywords : List String} {c : Char} {text rest : List Char} {t : Token}

/-- A literal, with its suffix if it has one, and the rest of the text make up the text. -/
lemma splitNumber_append (text : List Char) :
    (splitNumber text).1.text.toList ++ (splitNumber text).2 = text := by
  have hwhole := splitLiteral_append text
  obtain ⟨literal, rest, hsplit⟩ : ∃ literal rest, splitLiteral text = (literal, rest) := ⟨_, _, rfl⟩
  rw [hsplit] at hwhole
  cases hdangling : dangling literal with
  | true => simpa [splitNumber_of_dangling hsplit hdangling] using hwhole
  | false =>
    by_cases hpoint : literal = ['.']
    · subst hpoint
      simpa [splitNumber_of_point hsplit] using hwhole
    · rcases halts_or (Token.isSuffix · = true) rest with hrest | ⟨d, after, hd, rfl⟩
      · simpa [splitNumber_of_halts hsplit hdangling hpoint hrest, Token.number] using hwhole
      · simpa [splitNumber_of_suffix hsplit hdangling hpoint hd, Token.number] using hwhole

/-- A token and the rest of the text make up the text. -/
lemma splitToken_append (keywords : List String) (c : Char) (rest : List Char) :
    (splitToken keywords c rest).1.text.toList ++ (splitToken keywords c rest).2 = c :: rest := by
  unfold splitToken
  split
  · rename_i hline
    simp [hline]
  · split
    · simp [nameToken, List.takeWhile_append_dropWhile]
    · split
      · exact splitNumber_append _
      · simp

/-- The token that is split off stands behind a gap, which has a comment in it only if the token is a
line end. -/
theorem exists_gap_of_split? (h : split? keywords text = some (t, rest)) :
    ∃ gap, text = gap ++ (t.text.toList ++ rest) ∧ (IsBlanks gap ∨ IsRemark gap ∧ t.kind = .eol) := by
  obtain ⟨gap, hgap, hsort⟩ := exists_gap text
  obtain ⟨c, behind, heq, htoken⟩ := split?_eq_some_iff.1 h
  have happend := splitToken_append keywords c behind
  rw [htoken] at happend
  refine ⟨gap, by rw [happend, ← heq]; exact hgap, hsort.imp_right fun ⟨hremark, hline⟩ => ?_⟩
  have hc : c = '\n' := hline c (by simp [heq])
  rw [splitToken, if_pos hc] at htoken
  exact ⟨hremark, by rw [← (Prod.mk.inj htoken).1]⟩

/-- A text without a token is one gap. -/
lemma gap_of_split?_eq_none (h : split? keywords text = none) : IsBlanks text ∨ IsRemark text := by
  obtain ⟨gap, hgap, hsort⟩ := exists_gap text
  rw [split?_eq_none_iff.1 h, List.append_nil] at hgap
  rw [hgap]
  exact hsort.imp_right fun hremark => hremark.1

/-! ## Line ends -/

lemma mem_splitFraction (h : c ∈ (splitFraction text).1) : c.isDigit = true ∨ c = '.' := by
  rcases halts_or (· = '.') text with htext | ⟨_, rest, rfl, rfl⟩
  · simp [splitFraction_of_halts htext] at h
  · exact (List.mem_cons.1 h).symm.imp_left isDigit_of_mem_splitDigits

lemma mem_splitPower (h : c ∈ (splitPower text).1) : c.isDigit = true ∨ IsSign c := by
  rcases halts_or IsSign text with htext | ⟨d, rest, hd, rfl⟩
  · rw [splitPower_of_halts htext] at h
    exact .inl (isDigit_of_mem_splitDigits h)
  · rw [splitPower_of_sign hd] at h
    rcases List.mem_cons.1 h with rfl | h
    · exact .inr hd
    · exact .inl (isDigit_of_mem_splitDigits h)

lemma mem_splitExponent (h : c ∈ (splitExponent text).1) :
    c.isDigit = true ∨ IsSign c ∨ IsMarker c := by
  rcases halts_or IsMarker text with htext | ⟨d, rest, hd, rfl⟩
  · simp [splitExponent_of_halts htext] at h
  · rw [splitExponent_of_marker hd] at h
    rcases List.mem_cons.1 h with rfl | h
    · exact .inr (.inr hd)
    · exact (mem_splitPower h).imp_right .inl

/-- A literal is made of the characters that may go on with one. -/
lemma inLiteral_of_mem_splitLiteral (h : c ∈ (splitLiteral text).1) : InLiteral c := by
  have hcases : c ∈ (splitDigits text).1 ∨ c ∈ (splitFraction (splitDigits text).2).1 ∨
      c ∈ (splitExponent (splitFraction (splitDigits text).2).2).1 := by
    simpa [splitLiteral, or_assoc] using h
  rcases hcases with h | h | h
  · exact .inl (isDigit_of_mem_splitDigits h)
  · exact (mem_splitFraction h).imp_right (by rintro rfl; simp)
  · refine (mem_splitExponent h).imp_right ?_
    rintro ((rfl | rfl) | (rfl | rfl)) <;> simp

/-- A number is made of the characters of a literal and its suffix. -/
lemma mem_splitNumber (h : c ∈ (splitNumber text).1.text.toList) :
    InLiteral c ∨ Token.isSuffix c = true := by
  obtain ⟨literal, rest, hsplit⟩ : ∃ literal rest, splitLiteral text = (literal, rest) := ⟨_, _, rfl⟩
  have hin (hc : c ∈ literal) : InLiteral c := inLiteral_of_mem_splitLiteral (by rwa [hsplit])
  cases hdangling : dangling literal with
  | true =>
    rw [splitNumber_of_dangling hsplit hdangling] at h
    exact .inl (hin (by simpa using h))
  | false =>
    by_cases hpoint : literal = ['.']
    · subst hpoint
      rw [splitNumber_of_point hsplit] at h
      exact .inl (hin (by simpa using h))
    · rcases halts_or (Token.isSuffix · = true) rest with hrest | ⟨d, after, hd, rfl⟩
      · rw [splitNumber_of_halts hsplit hdangling hpoint hrest] at h
        exact .inl (hin (by simpa [Token.number] using h))
      · rw [splitNumber_of_suffix hsplit hdangling hpoint hd] at h
        have hcases : c ∈ literal ∨ c = d := by simpa [Token.number] using h
        rcases hcases with hc | rfl
        · exact .inl (hin hc)
        · exact .inr hd

lemma not_mem_splitToken (keywords : List String) (rest : List Char) (hc : c ≠ '\n') :
    '\n' ∉ (splitToken keywords c rest).1.text.toList ∧
      (splitToken keywords c rest).1.kind ≠ .eol := by
  have hstop : isNameChar '\n' = false := by decide
  have hname : '\n' ∉ rest.takeWhile isNameChar := fun h => by
    simp [List.mem_takeWhile_imp h] at hstop
  rw [splitToken, if_neg hc]
  split
  · refine ⟨by simp [nameToken, hname, hc.symm], ?_⟩
    simp only [nameToken]
    split <;> simp
  · split
    · have hline : '\n' ∉ (splitNumber (c :: rest)).1.text.toList := fun h =>
        absurd (mem_splitNumber h) (by decide)
      have hkind : (splitNumber (c :: rest)).1.kind ≠ .eol := fun h => by
        simpa [h] using kind_splitNumber (c :: rest)
      exact ⟨hline, hkind⟩
    · simp [hc.symm]

/-- A token has a line end in its text if it is one, and then one. -/
theorem count_newline_of_split? (h : split? keywords text = some (t, rest)) :
    t.text.toList.count '\n' = if t.kind = .eol then 1 else 0 := by
  obtain ⟨c, behind, -, htoken⟩ := split?_eq_some_iff.1 h
  by_cases hc : c = '\n'
  · rw [splitToken, if_pos hc] at htoken
    rw [← (Prod.mk.inj htoken).1]
    decide
  · have hnone := not_mem_splitToken keywords behind hc
    rw [htoken] at hnone
    rw [if_neg hnone.2, List.count_eq_zero.2 hnone.1]

end Tokens

end Lexeme

/-! ## Layout -/

open Lexeme

/-- Behind `front`, the text is a row of tokens with gaps around them, and the line of each token is
one more than the number of line ends in front of it. -/
inductive Laid : List Char → List Char → List (Token × Nat) → Prop
  /-- There is nothing left but a gap. -/
  | done {front text : List Char} : IsBlanks text ∨ IsRemark text → Laid front text []
  /-- A token stands behind a gap, and further tokens behind it. -/
  | token {front gap rest : List Char} {t : Token} {xs : List (Token × Nat)} :
    IsBlanks gap ∨ IsRemark gap ∧ t.kind = .eol →
    Laid (front ++ gap ++ t.text.toList) rest xs →
    Laid front (gap ++ (t.text.toList ++ rest)) ((t, 1 + (front ++ gap).count '\n') :: xs)

/-- The tokens that a stream will hand out are laid out in its text. -/
lemma TokenStream.laid_ahead {s : TokenStream} (h : s.Plain) {front : List Char}
    (hline : s.line = 1 + front.count '\n') : Laid front s.rest s.ahead := by
  generalize hahead : s.ahead = xs
  induction xs generalizing s front with
  | nil =>
    have hnone : split? s.keywords s.rest = none := by
      have hnext := next?_eq_none_iff.2 hahead
      rwa [next?_of_plain h, Option.map_eq_none_iff] at hnext
    exact .done (gap_of_split?_eq_none hnone)
  | cons x xs ih =>
    obtain ⟨t, l⟩ := x
    obtain ⟨s', hsplit, hahead', -, hplain, hl, hline'⟩ := split?_of_ahead h hahead
    obtain ⟨gap, hrest, hgap⟩ := exists_gap_of_split? hsplit
    have hnone : gap.count '\n' = 0 := List.count_eq_zero.2
      (hgap.elim not_mem_of_isBlanks fun hremark => not_mem_of_isRemark hremark.1)
    have hfront : l = 1 + (front ++ gap).count '\n' := by
      rw [List.count_append, hnone]
      exact hl.trans hline
    have hbehind : s'.line = 1 + (front ++ gap ++ t.text.toList).count '\n' := by
      rw [hline', List.count_append, ← Nat.add_assoc, ← hfront, count_newline_of_split? hsplit,
        ← show l = s.line from hl]
      split <;> rfl
    rw [hrest, hfront]
    exact .token hgap (ih hplain hbehind hahead')

/-- The tokens of a text are laid out in it. -/
theorem laid_tokenize (keywords : List String) (source : String) :
    Laid [] source.toList (tokenize keywords source) :=
  TokenStream.laid_ahead (TokenStream.plain_ofString keywords source) rfl

end Logo
