import Logo.Proofs.Token.Ahead
import Mathlib.Data.List.TakeWhile

/-!
# Tokens that stand by themselves

A token is cut off a text at a place where its sort ends, so its own text gives the same token again
in front of a blank and at the end of a text (`Lexeme.stands_of_split?`).  Tokens written one after
the other, with a blank behind each, are therefore scanned as they were (`scanned_spaced`).
-/

namespace Logo

namespace Lexeme

/-- No character at the front satisfies the condition. -/
def Halts (p : Char → Prop) (rest : List Char) : Prop := ∀ c ∈ rest.head?, ¬ p c

/-- In front of a blank and at the end of a text, the text of the token gives the token again. -/
def Stands (keywords : List String) (t : Token) : Prop :=
  ∀ tail, Halts (· ≠ ' ') tail → split? keywords (t.text.toList ++ tail) = some (t, tail)

variable {keywords : List String}

/-! ## Numeric literals -/

/-- A character that may go on with a literal somewhere. -/
def InLiteral (c : Char) : Prop := c.isDigit = true ∨ c ∈ ['.', 'e', 'E', '+', '-']

instance (c : Char) : Decidable (InLiteral c) := inferInstanceAs (Decidable (_ ∨ _))

section Literals

variable {p q : Char → Prop} {c : Char} {digits text rest tail : List Char}

lemma halts_cons : Halts p (c :: rest) ↔ ¬ p c := by simp [Halts]

lemma Halts.mono (h : Halts p rest) (hsub : ∀ c, q c → p c) : Halts q rest :=
  fun c hc hq => h c hc (hsub c hq)

/-- What stands in front of `tail` may be empty. -/
lemma Halts.append (hrest : Halts p tail) (hfront : Halts p rest) : Halts p (rest ++ tail) := by
  cases rest with
  | nil => exact hrest
  | cons c rest => exact halts_cons.2 (halts_cons.1 hfront)

lemma splitDigits_eq (hdigits : ∀ d ∈ digits, d.isDigit = true)
    (htail : Halts (·.isDigit = true) tail) : splitDigits (digits ++ tail) = (digits, tail) := by
  rw [splitDigits, List.takeWhile_append_of_pos hdigits, List.dropWhile_append_of_pos hdigits]
  cases tail with
  | nil => simp
  | cons c tail => simp [halts_cons.1 htail]

lemma isDigit_of_mem_splitDigits {d : Char} (h : d ∈ (splitDigits text).1) : d.isDigit = true :=
  List.mem_takeWhile_imp h

/-- Digits that were split off are split off again, in front of anything that is no digit. -/
lemma splitDigits_again (text : List Char) (htail : Halts (·.isDigit = true) tail) :
    splitDigits ((splitDigits text).1 ++ tail) = ((splitDigits text).1, tail) :=
  splitDigits_eq (fun _ hd => isDigit_of_mem_splitDigits hd) htail

/-- A text either begins with such a character or does not. -/
lemma halts_or (p : Char → Prop) [DecidablePred p] (text : List Char) :
    Halts p text ∨ ∃ c rest, p c ∧ text = c :: rest := by
  cases text with
  | nil => exact .inl (by simp [Halts])
  | cons c rest =>
    by_cases hc : p c
    · exact .inr ⟨c, rest, hc, rfl⟩
    · exact .inl (halts_cons.2 hc)

lemma splitFraction_of_halts (h : Halts (· = '.') text) : splitFraction text = ([], text) := by
  unfold splitFraction
  split
  · exact absurd rfl (h '.' rfl)
  · rfl

lemma splitFraction_again (text : List Char)
    (htail : Halts (fun c => c.isDigit = true ∨ c = '.') tail) :
    splitFraction ((splitFraction text).1 ++ tail) = ((splitFraction text).1, tail) := by
  rcases halts_or (· = '.') text with htext | ⟨_, rest, rfl, rfl⟩
  · rw [splitFraction_of_halts htext]
    exact splitFraction_of_halts (htail.mono fun c hc => .inr hc)
  · have hdigits := splitDigits_again rest (htail.mono fun c hc => .inl hc)
    simp only [splitFraction, List.cons_append, hdigits]

/-- Whether a character is a sign of an exponent. -/
def IsSign (c : Char) : Prop := c = '+' ∨ c = '-'

instance (c : Char) : Decidable (IsSign c) := inferInstanceAs (Decidable (_ ∨ _))

lemma splitPower_of_halts (h : Halts IsSign text) : splitPower text = splitDigits text := by
  cases text with
  | nil => rfl
  | cons c text => exact if_neg (halts_cons.1 h)

lemma splitPower_of_sign (h : IsSign c) (rest : List Char) :
    splitPower (c :: rest) = (c :: (splitDigits rest).1, (splitDigits rest).2) := if_pos h

lemma halts_sign_of_digits (hdigits : ∀ d ∈ digits, d.isDigit = true) : Halts IsSign digits := by
  rintro d hd (rfl | rfl)
  · exact absurd (hdigits _ (List.mem_of_mem_head? hd)) (by decide)
  · exact absurd (hdigits _ (List.mem_of_mem_head? hd)) (by decide)

lemma splitPower_again (text : List Char)
    (htail : Halts (fun c => c.isDigit = true ∨ IsSign c) tail) :
    splitPower ((splitPower text).1 ++ tail) = ((splitPower text).1, tail) := by
  have hdigits (rest : List Char) := splitDigits_again rest (htail.mono fun c hc => .inl hc)
  rcases halts_or IsSign text with htext | ⟨c, rest, hc, rfl⟩
  · have hfront : Halts IsSign (splitDigits text).1 :=
      halts_sign_of_digits fun _ hd => isDigit_of_mem_splitDigits hd
    rw [splitPower_of_halts htext,
      splitPower_of_halts (.append (htail.mono fun c hc => .inr hc) hfront), hdigits]
  · rw [splitPower_of_sign hc, List.cons_append, splitPower_of_sign hc, hdigits]

/-- Whether a character begins an exponent. -/
def IsMarker (c : Char) : Prop := c = 'e' ∨ c = 'E'

instance (c : Char) : Decidable (IsMarker c) := inferInstanceAs (Decidable (_ ∨ _))

lemma splitExponent_of_halts (h : Halts IsMarker text) : splitExponent text = ([], text) := by
  cases text with
  | nil => rfl
  | cons c text => exact if_neg (halts_cons.1 h)

lemma splitExponent_of_marker (h : IsMarker c) (rest : List Char) :
    splitExponent (c :: rest) = (c :: (splitPower rest).1, (splitPower rest).2) := if_pos h

lemma splitExponent_again (text : List Char)
    (htail : Halts (fun c => c.isDigit = true ∨ IsSign c ∨ IsMarker c) tail) :
    splitExponent ((splitExponent text).1 ++ tail) = ((splitExponent text).1, tail) := by
  rcases halts_or IsMarker text with htext | ⟨c, rest, hc, rfl⟩
  · rw [splitExponent_of_halts htext]
    exact splitExponent_of_halts (htail.mono fun c hc => .inr (.inr hc))
  · have hpower := splitPower_again rest (htail.mono fun c hc => hc.imp_right .inl)
    rw [splitExponent_of_marker hc, List.cons_append, splitExponent_of_marker hc, hpower]

lemma halts_splitFraction (h : ¬ p '.') (text : List Char) : Halts p (splitFraction text).1 := by
  rcases halts_or (· = '.') text with htext | ⟨_, rest, rfl, rfl⟩
  · rw [splitFraction_of_halts htext]
    simp [Halts]
  · exact halts_cons.2 h

lemma halts_splitExponent (h : ∀ c, IsMarker c → ¬ p c) (text : List Char) :
    Halts p (splitExponent text).1 := by
  rcases halts_or IsMarker text with htext | ⟨c, rest, hc, rfl⟩
  · rw [splitExponent_of_halts htext]
    simp [Halts]
  · rw [splitExponent_of_marker hc]
    exact halts_cons.2 (h c hc)

/-- A literal that was split off is split off again, in front of anything that does not go on with a
literal. -/
theorem splitLiteral_again (text : List Char) (htail : Halts InLiteral tail) :
    splitLiteral ((splitLiteral text).1 ++ tail) = ((splitLiteral text).1, tail) := by
  have hmarker : ∀ c, IsMarker c → ¬ (c.isDigit = true ∨ c = '.') := by
    rintro c (rfl | rfl) <;> decide
  let fraction := splitFraction (splitDigits text).2
  have hafter : Halts (fun c => c.isDigit = true ∨ c = '.') ((splitExponent fraction.2).1 ++ tail) :=
    .append (htail.mono fun c hc => hc.imp_right (by rintro rfl; simp)) (halts_splitExponent hmarker _)
  have hafter' : Halts (·.isDigit = true) (fraction.1 ++ ((splitExponent fraction.2).1 ++ tail)) :=
    .append (hafter.mono fun c hc => .inl hc) (halts_splitFraction (by decide) _)
  have hexponent : Halts (fun c => c.isDigit = true ∨ IsSign c ∨ IsMarker c) tail := by
    refine htail.mono fun c hc => hc.imp_right ?_
    rintro ((rfl | rfl) | (rfl | rfl)) <;> simp
  simp only [splitLiteral, List.append_assoc]
  rw [splitDigits_again text hafter']
  simp only
  rw [splitFraction_again _ hafter]
  simp only
  rw [splitExponent_again _ hexponent]

end Literals

section Numbers

variable {text literal rest behind : List Char} {c : Char}

lemma splitNumber_of_dangling (h : splitLiteral text = (literal, rest))
    (hdangling : dangling literal = true) :
    splitNumber text = (⟨.malformed, String.ofList literal⟩, rest) := by
  simp only [splitNumber, h, hdangling, if_true]

lemma splitNumber_of_point (h : splitLiteral text = (['.'], rest)) :
    splitNumber text = (⟨.symbol, "."⟩, rest) := by
  simp only [splitNumber, h]
  rfl

lemma splitNumber_of_suffix (h : splitLiteral text = (literal, c :: behind))
    (hdangling : dangling literal = false) (hpoint : literal ≠ ['.'])
    (hc : Token.isSuffix c = true) :
    splitNumber text = (.number (String.ofList (literal ++ [c])), behind) := by
  simp [splitNumber, h, hdangling, hpoint, hc]

lemma splitNumber_of_halts (h : splitLiteral text = (literal, rest))
    (hdangling : dangling literal = false) (hpoint : literal ≠ ['.'])
    (hrest : Halts (Token.isSuffix · = true) rest) :
    splitNumber text = (.number (String.ofList literal), rest) := by
  cases rest with
  | nil => simp [splitNumber, h, hdangling, hpoint]
  | cons c rest => simp [splitNumber, h, hdangling, hpoint, halts_cons.1 hrest]

/-- What begins like a number is no name, no keyword and no line end. -/
lemma kind_splitNumber (text : List Char) :
    (splitNumber text).1.kind ∈ [.malformed, .symbol, .number] := by
  unfold splitNumber
  dsimp only
  split_ifs
  · simp
  · simp
  · split
    · simp [Token.number]
    · split_ifs <;> simp [Token.number]

lemma not_inLiteral_of_isSuffix (h : Token.isSuffix c = true) : ¬ InLiteral c := by
  have hc : c = 'd' ∨ c = 'D' ∨ c = 'f' ∨ c = 'F' ∨ c = 'l' ∨ c = 'L' := by
    simpa [Token.isSuffix] using h
  rcases hc with rfl | rfl | rfl | rfl | rfl | rfl <;> decide

/-- A number, a lone point or a malformed literal is read again where no character but a blank
follows. -/
lemma splitNumber_again (text : List Char) {tail : List Char} (htail : Halts (· ≠ ' ') tail) :
    (splitLiteral text).1 <+: (splitNumber text).1.text.toList ∧
      splitNumber ((splitNumber text).1.text.toList ++ tail) = ((splitNumber text).1, tail) := by
  have hliteral : Halts InLiteral tail := htail.mono (by rintro _ hc rfl; exact absurd hc (by decide))
  have hagain := splitLiteral_again text hliteral
  obtain ⟨literal, rest, hsplit⟩ : ∃ literal rest, splitLiteral text = (literal, rest) := ⟨_, _, rfl⟩
  rw [hsplit] at hagain ⊢
  cases hdangling : dangling literal with
  | true =>
    rw [splitNumber_of_dangling hsplit hdangling, String.toList_ofList]
    exact ⟨List.prefix_refl _, splitNumber_of_dangling hagain hdangling⟩
  | false =>
    by_cases hpoint : literal = ['.']
    · subst hpoint
      have htext : (".").toList = ['.'] := rfl
      rw [splitNumber_of_point hsplit]
      simp only [htext]
      exact ⟨List.prefix_refl _, splitNumber_of_point hagain⟩
    · rcases halts_or (Token.isSuffix · = true) rest with hrest | ⟨c, after, hc, rfl⟩
      · rw [splitNumber_of_halts hsplit hdangling hpoint hrest, Token.number, String.toList_ofList]
        exact ⟨List.prefix_refl _, splitNumber_of_halts hagain hdangling hpoint
          (htail.mono (by rintro _ hc rfl; exact absurd hc (by decide)))⟩
      · have hsuffix : Halts InLiteral (c :: tail) :=
          halts_cons.2 (not_inLiteral_of_isSuffix hc)
        have hagain' := splitLiteral_again text hsuffix
        rw [hsplit] at hagain'
        rw [splitNumber_of_suffix hsplit hdangling hpoint hc, Token.number, String.toList_ofList,
          List.append_assoc]
        exact ⟨List.prefix_append _ _, splitNumber_of_suffix hagain' hdangling hpoint hc⟩

end Numbers

/-! ## Tokens -/

section Tokens

variable {c : Char} {text rest : List Char} {t : Token}

/-- A number is split off where a text begins like one. -/
lemma splitNumber_of_kind (hkind : t.kind = .number) (h : splitToken keywords c text = (t, rest)) :
    isNumberStart c = true ∧ splitNumber (c :: text) = (t, rest) := by
  unfold splitToken at h
  split_ifs at h
  · obtain ⟨rfl, -⟩ := Prod.mk.inj h
    cases hkind
  · obtain ⟨rfl, -⟩ := Prod.mk.inj h
    unfold nameToken at hkind
    split at hkind <;> cases hkind
  · rename_i hstart
    exact ⟨hstart, h⟩
  · obtain ⟨rfl, -⟩ := Prod.mk.inj h
    cases hkind

lemma skipGap_cons (hblank : isBlank c = false) (hslash : c = '/' → text.head? ≠ some '/') :
    skipGap (c :: text) = c :: text := by
  have hdrop : (c :: text).dropWhile isBlank = c :: text := by simp [hblank]
  unfold skipGap
  rw [hdrop]
  split
  · rename_i heq
    cases heq
    exact absurd rfl (hslash rfl)
  · rfl

lemma split?_cons (hblank : isBlank c = false) (hslash : c = '/' → text.head? ≠ some '/') :
    split? keywords (c :: text) = some (splitToken keywords c text) := by
  exact split?_eq_some_iff.2 ⟨c, text, skipGap_cons hblank hslash, rfl⟩

lemma split?_blank (text : List Char) : split? keywords (' ' :: text) = split? keywords text := by
  have hgap : skipGap (' ' :: text) = skipGap text := by
    have hdrop : (' ' :: text).dropWhile isBlank = text.dropWhile isBlank := rfl
    rw [skipGap, hdrop, skipGap]
  rw [split?, hgap, split?]

/-- The first character behind a gap is no blank. -/
lemma isBlank_of_skipGap (h : skipGap text = c :: rest) : isBlank c = false := by
  unfold skipGap at h
  split at h
  · rename_i comment _
    have hhead := List.head?_dropWhile_not (· ≠ '\n') comment
    rw [h] at hhead
    have hline : c = '\n' := by simpa using hhead
    rw [hline]
    decide
  · have hhead := List.head?_dropWhile_not isBlank text
    rw [h] at hhead
    simpa using hhead

/-- A name, cut off where no character of a name follows. -/
lemma stands_name (hc : isNameStart c = true) (hblank : isBlank c = false) (hline : c ≠ '\n') :
    Stands keywords (nameToken keywords (String.ofList (c :: rest.takeWhile isNameChar))) := by
  intro tail htail
  have hslash : c ≠ '/' := by
    rintro rfl
    exact absurd hc (by decide)
  have hall : ∀ d ∈ rest.takeWhile isNameChar, isNameChar d = true := fun d => List.mem_takeWhile_imp
  have hstop : Halts (isNameChar · = true) tail :=
    htail.mono (by rintro _ hd rfl; exact absurd hd (by decide))
  simp only [nameToken, String.toList_ofList, List.cons_append]
  rw [split?_cons hblank fun h => absurd h hslash, splitToken, if_neg hline, if_pos hc,
    List.takeWhile_append_of_pos hall, List.dropWhile_append_of_pos hall]
  cases tail with
  | nil => simp [nameToken]
  | cons d tail => simp [halts_cons.1 hstop, nameToken]

lemma stands_number (hc : isNumberStart c = true) (hname : ¬ isNameStart c = true)
    (hblank : isBlank c = false) (hline : c ≠ '\n') :
    Stands keywords (splitNumber (c :: rest)).1 := by
  intro tail htail
  have hslash : c ≠ '/' := by
    rintro rfl
    exact absurd hc (by decide)
  obtain ⟨hwritten, hagain⟩ := splitNumber_again (c :: rest) htail
  -- the text begins with the literal, and the literal begins with the first character
  obtain ⟨d, literal, hliteral⟩ := List.exists_cons_of_ne_nil (splitLiteral_ne_nil rest hc)
  have hwhole := splitLiteral_append (c :: rest)
  rw [hliteral, List.cons_append, List.cons.injEq] at hwhole
  rw [hliteral, hwhole.1] at hwritten
  obtain ⟨written, hwritten⟩ := hwritten
  rw [← hwritten, List.cons_append, List.cons_append] at hagain ⊢
  rw [split?_cons hblank fun h => absurd h hslash, splitToken, if_neg hline, if_neg hname,
    if_pos hc, hagain]

lemma stands_of_splitToken (hblank : isBlank c = false) :
    Stands keywords (splitToken keywords c rest).1 := by
  unfold splitToken
  split
  · exact fun tail _ => by rw [show ("\n").toList = ['\n'] from rfl]; rfl
  · rename_i hline
    split
    · rename_i hname
      exact stands_name hname hblank hline
    · rename_i hname
      split
      · rename_i hnumber
        exact stands_number hnumber hname hblank hline
      · rename_i hnumber
        intro tail htail
        have hslash : tail.head? ≠ some '/' := fun h => absurd (htail _ h) (by decide)
        simp only [String.toList_singleton, List.cons_append, List.nil_append]
        rw [split?_cons hblank fun _ => hslash, splitToken, if_neg hline, if_neg hname,
          if_neg hnumber]

/-- A token that was split off stands by itself. -/
theorem stands_of_split? (h : split? keywords text = some (t, rest)) : Stands keywords t := by
  obtain ⟨c, behind, hgap, htoken⟩ := split?_eq_some_iff.1 h
  have hstands : Stands keywords (splitToken keywords c behind).1 :=
    stands_of_splitToken (isBlank_of_skipGap hgap)
  rwa [htoken] at hstands

end Tokens

end Lexeme

/-! ## Spaced tokens -/

namespace TokenStream

open Lexeme

/-- The stream has not taken a token back. -/
def Plain (s : TokenStream) : Prop := ∀ t, s.recent ≠ .returned t

lemma plain_ofString (keywords : List String) (source : String) :
    (ofString keywords source).Plain := fun _ h => nomatch h

lemma next?_of_plain {s : TokenStream} (h : s.Plain) :
    s.next? = (split? s.keywords s.rest).map fun (t, rest) =>
      (t, { s with rest, line := if t.kind = .eol then s.line + 1 else s.line,
                   recent := .taken t, recentLine := s.line }) := by
  unfold next?
  split
  · rename_i t ht
    exact absurd ht (h t)
  · split <;> rename_i heq <;> rw [heq] <;> rfl

/-- A plain stream hands out what is split off its text, on its line. -/
lemma ahead_of_split? {s : TokenStream} (h : s.Plain) {t : Token} {rest : List Char}
    (hsplit : split? s.keywords s.rest = some (t, rest)) :
    ∃ s' : TokenStream, s.ahead = (t, s.line) :: s'.ahead ∧ s'.rest = rest ∧
      s'.keywords = s.keywords ∧ s'.Plain ∧
      s'.line = if t.kind = .eol then s.line + 1 else s.line := by
  have hnext := next?_of_plain h
  rw [hsplit, Option.map_some] at hnext
  exact ⟨_, ahead_of_next? hnext, rfl, rfl, (fun _ => nofun), rfl⟩

lemma ahead_of_split?_eq_none {s : TokenStream} (h : s.Plain)
    (hsplit : split? s.keywords s.rest = none) : s.ahead = [] := by
  refine next?_eq_none_iff.1 ?_
  rw [next?_of_plain h, hsplit, Option.map_none]

/-- Where a plain stream goes with a token. -/
lemma split?_of_ahead {s : TokenStream} (h : s.Plain) {x : Token × Nat} {xs : List (Token × Nat)}
    (hahead : s.ahead = x :: xs) :
    ∃ s' : TokenStream, split? s.keywords s.rest = some (x.1, s'.rest) ∧ s'.ahead = xs ∧
      s'.keywords = s.keywords ∧ s'.Plain ∧ x.2 = s.line ∧
      s'.line = if x.1.kind = .eol then s.line + 1 else s.line := by
  cases hsplit : split? s.keywords s.rest with
  | none =>
    rw [ahead_of_split?_eq_none h hsplit] at hahead
    cases hahead
  | some step =>
    obtain ⟨s', hcons, hrest, hkeywords, hplain, hline⟩ := ahead_of_split? (t := step.1) h hsplit
    rw [hahead] at hcons
    cases hcons
    exact ⟨s', by rw [hrest], rfl, hkeywords, hplain, rfl, hline⟩

/-- Every token that a stream hands out stands by itself. -/
theorem stands_of_mem_ahead {s : TokenStream} (h : s.Plain) :
    ∀ x ∈ s.ahead, Stands s.keywords x.1 := by
  generalize hahead : s.ahead = xs
  induction xs generalizing s with
  | nil => simp
  | cons x xs ih =>
    obtain ⟨s', hsplit, hahead', hkeywords, hplain, -⟩ := split?_of_ahead h hahead
    rw [← hkeywords]
    refine List.forall_mem_cons.2 ⟨?_, ih hplain hahead'⟩
    exact hkeywords ▸ stands_of_split? hsplit

/-- A token is on the line behind as many line ends as precede it. -/
theorem line_of_ahead {s : TokenStream} (h : s.Plain) {p xs : List (Token × Nat)} {t : Token}
    {l : Nat} (hahead : s.ahead = p ++ (t, l) :: xs) :
    l = s.line + p.countP fun x => x.1.kind = .eol := by
  induction p generalizing s with
  | nil =>
    obtain ⟨-, -, -, -, -, hline, -⟩ := split?_of_ahead h hahead
    simpa using hline
  | cons x p ih =>
    obtain ⟨s', -, hahead', -, hplain, -, hline⟩ := split?_of_ahead h hahead
    rw [ih hplain hahead', hline, List.countP_cons]
    by_cases heol : x.1.kind = .eol
    · simp [heol]
      omega
    · simp [heol]

end TokenStream

/-! ## Spaced tokens -/

/-- The tokens are split off the text one after the other, until there is none left. -/
inductive Scanned (keywords : List String) : List Char → List Token → Prop
  /-- There is no token left. -/
  | done {text : List Char} (h : Lexeme.split? keywords text = none) : Scanned keywords text []
  /-- A token is split off, and further tokens are split off the rest. -/
  | token {text rest : List Char} {t : Token} {ts : List Token}
    (h : Lexeme.split? keywords text = some (t, rest)) (hts : Scanned keywords rest ts) :
    Scanned keywords text (t :: ts)

namespace Scanned

variable {keywords : List String} {text : List Char} {ts : List Token}

/-- A blank makes no difference. -/
lemma blank (h : Scanned keywords text ts) : Scanned keywords (' ' :: text) ts := by
  cases h with
  | done h => exact .done ((Lexeme.split?_blank text).trans h)
  | token h hts => exact .token ((Lexeme.split?_blank text).trans h) hts

end Scanned

/-- A stream hands out the tokens that are split off its text. -/
theorem TokenStream.remaining_of_scanned {s : TokenStream} (h : s.Plain) {keywords : List String}
    {text : List Char} {ts : List Token} (hts : Scanned keywords text ts)
    (hkeywords : s.keywords = keywords) (hrest : s.rest = text) : s.remaining = ts := by
  rw [remaining_eq_map_ahead]
  induction hts generalizing s with
  | done hsplit =>
    subst hkeywords hrest
    rw [ahead_of_split?_eq_none h hsplit, List.map_nil]
  | token hsplit _ ih =>
    subst hkeywords hrest
    obtain ⟨s', hahead, hrest', hkeywords', hplain, -⟩ := ahead_of_split? h hsplit
    rw [hahead, List.map_cons, ih hplain hkeywords' hrest']

/-- The texts of the tokens, with a blank behind each. -/
def spaced (ts : List Token) : List Char := ts.flatMap fun t => t.text.toList ++ [' ']

/-- Tokens with a blank behind each are scanned as they were. -/
theorem scanned_spaced {keywords : List String} {ts : List Token}
    (hts : ∀ t ∈ ts, Lexeme.Stands keywords t) : Scanned keywords (spaced ts) ts := by
  induction ts with
  | nil => exact .done rfl
  | cons t ts ih =>
    obtain ⟨ht, hts⟩ := List.forall_mem_cons.1 hts
    have hsplit : Lexeme.split? keywords (spaced (t :: ts)) = some (t, ' ' :: spaced ts) := by
      simpa [spaced] using ht (' ' :: spaced ts) (Lexeme.halts_cons.2 (not_not.2 rfl))
    exact .token hsplit (ih hts).blank

end Logo
