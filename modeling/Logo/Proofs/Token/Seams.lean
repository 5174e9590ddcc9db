import Logo.Proofs.Grammar.Derivation
import Logo.Proofs.Token.Layout

/-!
# Texts that are put together

Where a text is put behind another one, the tokens of the first one stay as they are unless its last
token goes on in the second, and the second one is scanned from where the last token of the first one
ends: a comment that the first one ends with swallows what follows it up to a line end.

* `Parts front tail`: no token that ends `front` goes on in `tail`.
* `Lexeme.split?_append`: a token that is split off is split off again in front of more text.
* `sourceTokens_line`: a line end always separates two texts.
* `sourceTokens_comment` and `sourceTokens_blanks`: what may be added to a text without a change of
  its tokens.
-/

namespace Logo

namespace Lexeme

variable {keywords : List String} {c : Char} {text rest tail : List Char} {t : Token}

/-! ## Digits and literals -/

lemma Halts.append_tail {p : Char → Prop} (h : Halts p text) (htail : text = [] → Halts p tail) :
    Halts p (text ++ tail) := by
  cases text with
  | nil => exact htail rfl
  | cons c text => exact halts_cons.2 (halts_cons.1 h)

lemma span_append {p : Char → Bool} (htail : text.dropWhile p = [] → Halts (p · = true) tail) :
    (text ++ tail).takeWhile p = text.takeWhile p ∧
      (text ++ tail).dropWhile p = text.dropWhile p ++ tail := by
  induction text with
  | nil =>
    have hhalts := htail rfl
    cases tail with
    | nil => exact ⟨rfl, rfl⟩
    | cons d tail => simp [halts_cons.1 hhalts]
  | cons d text ih =>
    by_cases hd : p d = true
    · have hrest := ih (by simpa [hd] using htail)
      simp [hd, hrest]
    · simp [hd]

lemma splitDigits_tail (htail : (splitDigits text).2 = [] → Halts (·.isDigit = true) tail) :
    splitDigits (text ++ tail) = ((splitDigits text).1, (splitDigits text).2 ++ tail) := by
  obtain ⟨htake, hdrop⟩ := span_append (p := Char.isDigit) htail
  rw [splitDigits, htake, hdrop, splitDigits]

lemma splitFraction_tail
    (htail : (splitFraction text).2 = [] → Halts (fun c => c.isDigit = true ∨ c = '.') tail) :
    splitFraction (text ++ tail) = ((splitFraction text).1, (splitFraction text).2 ++ tail) := by
  rcases halts_or (· = '.') text with htext | ⟨_, digits, rfl, rfl⟩
  · rw [splitFraction_of_halts htext] at htail ⊢
    exact splitFraction_of_halts
      (htext.append_tail fun hnil => (htail hnil).mono fun c hc => .inr hc)
  · have hdigits : splitDigits (digits ++ tail) =
        ((splitDigits digits).1, (splitDigits digits).2 ++ tail) :=
      splitDigits_tail fun hnil => (htail hnil).mono fun c hc => .inl hc
    simp only [splitFraction, List.cons_append, hdigits]

lemma splitPower_tail
    (htail : (splitPower text).2 = [] → Halts (fun c => c.isDigit = true ∨ IsSign c) tail) :
    splitPower (text ++ tail) = ((splitPower text).1, (splitPower text).2 ++ tail) := by
  rcases halts_or IsSign text with htext | ⟨c, digits, hc, rfl⟩
  · have hsign : Halts IsSign (text ++ tail) := by
      cases text with
      | nil => exact (htail rfl).mono fun c hc => .inr hc
      | cons c text => exact halts_cons.2 (halts_cons.1 htext)
    rw [splitPower_of_halts htext] at htail ⊢
    rw [splitPower_of_halts hsign]
    exact splitDigits_tail fun hnil => (htail hnil).mono fun c hc => .inl hc
  · rw [splitPower_of_sign hc] at htail ⊢
    rw [List.cons_append, splitPower_of_sign hc,
      splitDigits_tail fun hnil => (htail hnil).mono fun c hc => .inl hc]

lemma splitExponent_tail
    (htail : (splitExponent text).2 = [] →
      Halts (fun c => c.isDigit = true ∨ IsSign c ∨ IsMarker c) tail) :
    splitExponent (text ++ tail) = ((splitExponent text).1, (splitExponent text).2 ++ tail) := by
  rcases halts_or IsMarker text with htext | ⟨c, power, hc, rfl⟩
  · rw [splitExponent_of_halts htext] at htail ⊢
    exact splitExponent_of_halts
      (htext.append_tail fun hnil => (htail hnil).mono fun c hc => .inr (.inr hc))
  · rw [splitExponent_of_marker hc] at htail ⊢
    rw [List.cons_append, splitExponent_of_marker hc,
      splitPower_tail fun hnil => (htail hnil).mono fun c hc => hc.imp_right .inl]

/-- A literal is split off again if it ended in front of something, or nothing that follows can go on
with it. -/
theorem splitLiteral_tail (htail : (splitLiteral text).2 = [] → Halts InLiteral tail) :
    splitLiteral (text ++ tail) = ((splitLiteral text).1, (splitLiteral text).2 ++ tail) := by
  have hexponent : (splitExponent (splitFraction (splitDigits text).2).2).2 = [] →
      Halts (fun c => c.isDigit = true ∨ IsSign c ∨ IsMarker c) tail := by
    refine fun hnil => (htail hnil).mono fun c hc => hc.imp_right ?_
    rintro ((rfl | rfl) | (rfl | rfl)) <;> simp
  -- where the digits or the fraction reach the end of the text, so does the literal
  have hfraction : (splitFraction (splitDigits text).2).2 = [] →
      Halts (fun c => c.isDigit = true ∨ c = '.') tail := by
    intro hnil
    refine (htail ?_).mono fun c hc => hc.imp_right (by rintro rfl; simp)
    simp only [splitLiteral, hnil, splitExponent]
  have hdigits : (splitDigits text).2 = [] → Halts (·.isDigit = true) tail := by
    intro hnil
    refine (hfraction ?_).mono fun c hc => .inl hc
    rw [hnil]
    rfl
  simp only [splitLiteral, splitDigits_tail hdigits, splitFraction_tail hfraction,
    splitExponent_tail hexponent]

/-- The text behind a number is that behind its literal, without the suffix. -/
lemma splitNumber_tail
    (htail : (splitNumber text).2 = [] → Halts (fun c => InLiteral c ∨ Token.isSuffix c = true) tail) :
    splitNumber (text ++ tail) = ((splitNumber text).1, (splitNumber text).2 ++ tail) := by
  obtain ⟨literal, rest, hsplit⟩ : ∃ literal rest, splitLiteral text = (literal, rest) := ⟨_, _, rfl⟩
  have happend (hnil : rest = [] → Halts InLiteral tail) :
      splitLiteral (text ++ tail) = (literal, rest ++ tail) := by
    rw [splitLiteral_tail (by rwa [hsplit]), hsplit]
  cases hdangling : dangling literal with
  | true =>
    rw [splitNumber_of_dangling hsplit hdangling] at htail ⊢
    exact splitNumber_of_dangling
      (happend fun hnil => (htail hnil).mono fun c hc => .inl hc) hdangling
  | false =>
    by_cases hpoint : literal = ['.']
    · subst hpoint
      rw [splitNumber_of_point hsplit] at htail ⊢
      exact splitNumber_of_point (happend fun hnil => (htail hnil).mono fun c hc => .inl hc)
    · rcases halts_or (Token.isSuffix · = true) rest with hrest | ⟨d, after, hd, rfl⟩
      · rw [splitNumber_of_halts hsplit hdangling hpoint hrest] at htail ⊢
        exact splitNumber_of_halts
          (happend fun hnil => (htail hnil).mono fun c hc => .inl hc) hdangling hpoint
          (hrest.append_tail fun hnil => (htail hnil).mono fun c hc => .inr hc)
      · rw [splitNumber_of_suffix hsplit hdangling hpoint hd]
        exact splitNumber_of_suffix (happend (by simp)) hdangling hpoint hd

/-! ## Tokens -/

/-- No token that ends `front` goes on in `tail`, and the two do not make the mark of a comment. -/
def Parts (front tail : List Char) : Prop :=
  Halts (fun c => isNameChar c = true ∨ c ∈ ['.', '+', '-']) tail ∧
    (front.getLast? = some '/' → Halts (· = '/') tail)

lemma parts_cons {front : List Char} (hname : isNameChar c = false) (hc : c ∉ ['.', '+', '-'])
    (hslash : c = '/' → front.getLast? ≠ some '/') : Parts front (c :: tail) := by
  constructor
  · refine halts_cons.2 ?_
    simp [hname, hc]
  · exact fun hlast => halts_cons.2 fun heq => hslash heq hlast

lemma Parts.of_suffix {front : List Char} (h : Parts front tail) (hsuffix : rest <:+ front) :
    Parts rest tail := by
  obtain ⟨before, rfl⟩ := hsuffix
  exact ⟨h.1, fun hlast => h.2 (by simp [List.getLast?_append, hlast])⟩

lemma isNameChar_of_inLiteral (h : InLiteral c) : isNameChar c = true ∨ c ∈ ['.', '+', '-'] := by
  rcases h with hdigit | hc
  · exact .inl (by simp [isNameChar, Char.isAlphanum, hdigit])
  · simp only [List.mem_cons, List.not_mem_nil, or_false] at hc
    rcases hc with rfl | rfl | rfl | rfl | rfl <;> decide

lemma isNameChar_of_isSuffix (h : Token.isSuffix c = true) : isNameChar c = true := by
  have hc : c = 'd' ∨ c = 'D' ∨ c = 'f' ∨ c = 'F' ∨ c = 'l' ∨ c = 'L' := by
    simpa [Token.isSuffix] using h
  rcases hc with rfl | rfl | rfl | rfl | rfl | rfl <;> decide

lemma splitToken_tail (keywords : List String)
    (htail : (splitToken keywords c rest).2 = [] →
      Halts (fun c => isNameChar c = true ∨ c ∈ ['.', '+', '-']) tail) :
    splitToken keywords c (rest ++ tail) =
      ((splitToken keywords c rest).1, (splitToken keywords c rest).2 ++ tail) := by
  unfold splitToken at htail ⊢
  by_cases hline : c = '\n'
  · simp only [if_pos hline]
  · simp only [if_neg hline] at htail ⊢
    by_cases hname : isNameStart c = true
    · simp only [if_pos hname] at htail ⊢
      obtain ⟨htake, hdrop⟩ := span_append (p := isNameChar)
        fun hnil => (htail hnil).mono fun d hd => .inl hd
      rw [htake, hdrop]
    · simp only [if_neg hname] at htail ⊢
      by_cases hnumber : isNumberStart c = true
      · simp only [if_pos hnumber] at htail ⊢
        rw [← List.cons_append]
        refine splitNumber_tail fun hnil => (htail hnil).mono ?_
        rintro d (hd | hd)
        · exact isNameChar_of_inLiteral hd
        · exact .inl (isNameChar_of_isSuffix hd)
      · simp only [if_neg hnumber]

/-! ## Gaps -/

/-- A gap ends at the same place in front of more text, unless that makes a comment of it. -/
lemma skipGap_append (h : skipGap text = c :: rest)
    (hslash : c = '/' → rest = [] → Halts (· = '/') tail) :
    skipGap (text ++ tail) = c :: (rest ++ tail) := by
  have hdrop (hne : text.dropWhile isBlank ≠ []) :
      (text ++ tail).dropWhile isBlank = text.dropWhile isBlank ++ tail :=
    (span_append fun hnil => absurd hnil hne).2
  unfold skipGap at h
  split at h
  · rename_i comment heq
    have hwords : (comment ++ tail).dropWhile (· ≠ '\n') = comment.dropWhile (· ≠ '\n') ++ tail :=
      (span_append fun hnil => by rw [hnil] at h; cases h).2
    rw [h] at hwords
    rw [skipGap, hdrop (by simp [heq]), heq]
    exact hwords
  · rename_i hcomment
    rw [skipGap, hdrop (by simp [h]), h, List.cons_append]
    split
    · rename_i heq
      rw [List.cons.injEq] at heq
      obtain ⟨rfl, heq⟩ := heq
      cases rest with
      | nil =>
        rw [List.nil_append] at heq
        exact absurd rfl (hslash rfl rfl '/' (by simp [heq]))
      | cons d rest =>
        rw [List.cons_append, List.cons.injEq] at heq
        exact absurd (by rw [h, heq.1]) (hcomment rest)
    · rfl

/-- A token is split off again in front of more text, if it ended in front of something or does not
go on. -/
theorem split?_append (h : split? keywords text = some (t, rest)) (htail : rest = [] → Parts text tail) :
    split? keywords (text ++ tail) = some (t, rest ++ tail) := by
  obtain ⟨c, behind, hgap, htoken⟩ := split?_eq_some_iff.1 h
  have hslash : c = '/' → behind = [] → Halts (· = '/') tail := by
    rintro rfl rfl
    have hrest : rest = [] := congrArg Prod.snd htoken.symm
    refine (htail hrest).2 ?_
    obtain ⟨gap, hwhole, -⟩ := exists_gap text
    rw [hwhole, hgap]
    simp
  have hagain : splitToken keywords c (behind ++ tail) = (t, rest ++ tail) := by
    rw [splitToken_tail keywords (by rw [htoken]; exact fun hrest => (htail hrest).1), htoken]
  exact split?_eq_some_iff.2 ⟨c, behind ++ tail, skipGap_append hgap hslash, hagain⟩

lemma skipGap_blanks_append {blanks : List Char} (h : IsBlanks blanks) (tail : List Char) :
    skipGap (blanks ++ tail) = skipGap tail := by
  rw [skipGap, List.dropWhile_append_of_pos h, skipGap]

lemma skipGap_remark_append {remark : List Char} (h : IsRemark remark) (tail : List Char) :
    skipGap (remark ++ tail) = tail.dropWhile (· ≠ '\n') := by
  obtain ⟨blanks, _, rfl, hblanks, words, rfl, hwords⟩ := h
  have hall : ∀ c ∈ words, decide (c ≠ '\n') = true := fun c hc => by
    simp only [decide_eq_true_eq]
    rintro rfl
    exact hwords hc
  rw [List.append_assoc, skipGap_blanks_append hblanks]
  exact List.dropWhile_append_of_pos hall

/-- A line end is the first token behind any gap. -/
lemma split?_gap_line {gap : List Char} (h : split? keywords gap = none) :
    split? keywords (gap ++ '\n' :: tail) = some (.lineEnd, tail) := by
  have hskip : skipGap (gap ++ '\n' :: tail) = '\n' :: tail := by
    rcases gap_of_split?_eq_none h with hblanks | hremark
    · rw [skipGap_blanks_append hblanks]
      rfl
    · rw [skipGap_remark_append hremark]
      rfl
  exact split?_eq_some_iff.2 ⟨'\n', tail, hskip, rfl⟩

/-- A comment behind a gap is part of the gap. -/
lemma split?_gap_comment {gap words : List Char} (h : split? keywords gap = none)
    (hwords : '\n' ∉ words) : split? keywords (gap ++ '/' :: '/' :: words) = none := by
  have hcomment : ('/' :: '/' :: words).dropWhile (· ≠ '\n') = [] := by
    simp only [List.dropWhile_eq_nil_iff, List.mem_cons, decide_eq_true_eq]
    rintro c (rfl | rfl | hc)
    · decide
    · decide
    · rintro rfl
      exact hwords hc
  have hskip : skipGap (gap ++ '/' :: '/' :: words) = [] := by
    rcases gap_of_split?_eq_none h with hblanks | hremark
    · rw [skipGap_blanks_append hblanks]
      exact hcomment
    · rw [skipGap_remark_append hremark]
      exact hcomment
  exact split?_eq_none_iff.2 hskip

/-- Blanks behind a gap make no difference. -/
lemma split?_gap_blanks {gap blanks : List Char} (h : split? keywords gap = none)
    (hblanks : IsBlanks blanks) (tail : List Char) :
    split? keywords (gap ++ (blanks ++ tail)) = split? keywords (gap ++ tail) := by
  have hskip : skipGap (gap ++ (blanks ++ tail)) = skipGap (gap ++ tail) := by
    rcases gap_of_split?_eq_none h with hgap | hgap
    · rw [skipGap_blanks_append hgap, skipGap_blanks_append hblanks, skipGap_blanks_append hgap]
    · have hline : ∀ c ∈ blanks, decide (c ≠ '\n') = true := fun c hc => by
        simp only [decide_eq_true_eq]
        rintro rfl
        exact absurd (hblanks _ hc) (by decide)
      rw [skipGap_remark_append hgap, List.dropWhile_append_of_pos hline, skipGap_remark_append hgap]
  rw [split?, hskip, split?]

/-- Blanks separate whatever stands around them. -/
lemma IsBlanks.parts (h : IsBlanks (c :: rest)) (front tail : List Char) :
    Parts front (c :: rest ++ tail) := by
  have hc : c = ' ' ∨ c = '\t' := by simpa [isBlank] using h c List.mem_cons_self
  rcases hc with rfl | rfl
  · exact parts_cons rfl (by simp) (by simp)
  · exact parts_cons rfl (by simp) (by simp)

end Lexeme

open Lexeme

/-! ## Rows of tokens -/

namespace Scanned

variable {keywords : List String} {text text' : List Char} {ts us : List Token}

lemma of_split?_eq (h : Scanned keywords text ts) (heq : split? keywords text' = split? keywords text) :
    Scanned keywords text' ts := by
  cases h with
  | done h => exact .done (heq.trans h)
  | token h hts => exact .token (heq.trans h) hts

/-- A text in front of another one keeps its tokens, and the other one is scanned behind what the
text has behind its last token. -/
theorem exists_gap (h : Scanned keywords text ts) :
    ∃ gap, gap <:+ text ∧ split? keywords gap = none ∧
      ∀ tail us, (gap = [] → Parts text tail) → Scanned keywords (gap ++ tail) us →
        Scanned keywords (text ++ tail) (ts ++ us) := by
  induction h with
  | done h => exact ⟨_, List.suffix_refl _, h, fun _ _ _ hus => hus⟩
  | @token text rest t ts hsplit _ ih =>
    obtain ⟨gap, hgap, hnone, hrest⟩ := ih
    have hsuffix : rest <:+ text := by
      obtain ⟨front, hfront, -⟩ := exists_gap_of_split? hsplit
      exact ⟨front ++ t.text.toList, by rw [hfront, List.append_assoc]⟩
    refine ⟨gap, hgap.trans hsuffix, hnone, fun tail us hparts hus => ?_⟩
    have htail : rest = [] → Parts text tail := by
      rintro rfl
      exact hparts (List.suffix_nil.1 hgap)
    refine .token (split?_append hsplit htail) (hrest tail us (fun hnil => ?_) hus)
    exact (hparts hnil).of_suffix hsuffix

end Scanned

lemma TokenStream.scanned_remaining {s : TokenStream} (h : s.Plain) :
    Scanned s.keywords s.rest s.remaining := by
  rw [remaining_eq_map_ahead]
  generalize hahead : s.ahead = xs
  induction xs generalizing s with
  | nil =>
    have hnext := next?_eq_none_iff.2 hahead
    rw [next?_of_plain h, Option.map_eq_none_iff] at hnext
    exact .done hnext
  | cons x xs ih =>
    obtain ⟨s', hsplit, hahead', hkeywords, hplain, -⟩ := split?_of_ahead h hahead
    exact .token hsplit (hkeywords ▸ ih hplain hahead')

/-! ## Texts -/

/-- The tokens of a source are those that are split off it one after the other. -/
theorem sourceTokens_eq_iff {source : String} {ts : List Token} :
    sourceTokens source = ts ↔ Scanned Vocabulary.keywords source.toList ts := by
  have hplain := TokenStream.plain_ofString Vocabulary.keywords source
  constructor
  · rintro rfl
    exact TokenStream.scanned_remaining hplain
  · exact fun h => TokenStream.remaining_of_scanned hplain h rfl rfl

lemma scanned_sourceTokens (source : String) :
    Scanned Vocabulary.keywords source.toList (sourceTokens source) := sourceTokens_eq_iff.1 rfl

/-- A line end separates two texts, whatever they are. -/
theorem sourceTokens_line (front back : String) :
    sourceTokens (front ++ "\n" ++ back) =
      sourceTokens front ++ .lineEnd :: sourceTokens back := by
  obtain ⟨gap, -, hgap, hscanned⟩ := (scanned_sourceTokens front).exists_gap
  have hparts : Parts front.toList ('\n' :: back.toList) := parts_cons rfl (by simp) (by simp)
  have hwhole := hscanned ('\n' :: back.toList) _ (fun _ => hparts)
    (.token (split?_gap_line hgap) (scanned_sourceTokens back))
  refine sourceTokens_eq_iff.2 ?_
  simpa using hwhole

/-- A comment at the end of a text adds no token. -/
theorem sourceTokens_comment {front words : String} (hfront : front.toList.getLast? ≠ some '/')
    (hwords : '\n' ∉ words.toList) :
    sourceTokens (front ++ "//" ++ words) = sourceTokens front := by
  obtain ⟨gap, -, hgap, hscanned⟩ := (scanned_sourceTokens front).exists_gap
  have hparts : Parts front.toList ('/' :: '/' :: words.toList) :=
    parts_cons rfl (by simp) fun _ => hfront
  have hwhole := hscanned ('/' :: '/' :: words.toList) [] (fun _ => hparts)
    (.done (split?_gap_comment hgap hwords))
  rw [List.append_nil] at hwhole
  refine sourceTokens_eq_iff.2 ?_
  simpa using hwhole

/-- Blanks between two tokens make no difference, and neither do blanks in a comment. -/
theorem sourceTokens_blanks {front blanks back : String} (hblanks : IsBlanks blanks.toList)
    (hbetween : sourceTokens (front ++ back) = sourceTokens front ++ sourceTokens back) :
    sourceTokens (front ++ blanks ++ back) = sourceTokens (front ++ back) := by
  obtain ⟨gap, -, hgap, hscanned⟩ := (scanned_sourceTokens front).exists_gap
  refine sourceTokens_eq_iff.2 ?_
  rw [String.toList_append, String.toList_append, List.append_assoc]
  by_cases hnil : gap = []
  · subst hnil
    rw [hbetween]
    cases htext : blanks.toList with
    | nil =>
      rw [List.nil_append, ← String.toList_append, ← hbetween]
      exact scanned_sourceTokens (front ++ back)
    | cons c rest =>
      rw [htext] at hblanks
      have hback := (scanned_sourceTokens back).of_split?_eq (split?_gap_blanks hgap hblanks _)
      exact hscanned _ _ (fun _ => hblanks.parts front.toList back.toList) hback
  · -- the gap stands in between, so that blanks need not separate the two
    obtain ⟨us, hus⟩ : ∃ us, Scanned Vocabulary.keywords (gap ++ back.toList) us :=
      ⟨_, by simpa using scanned_sourceTokens (String.ofList (gap ++ back.toList))⟩
    have hwithout := hscanned back.toList us (fun h => absurd h hnil) hus
    rw [← String.toList_append] at hwithout
    rw [sourceTokens_eq_iff.2 hwithout]
    refine hscanned _ us (fun h => absurd h hnil) (hus.of_split?_eq ?_)
    exact split?_gap_blanks hgap hblanks _

end Logo
