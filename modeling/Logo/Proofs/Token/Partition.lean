import Logo.Proofs.Token.Seams
import Logo.Proofs.Token.Single

/-!
# Tokens and gaps make up a text

Scanning cuts a text into tokens with gaps between them and drops nothing else.  A `Partition` says so
with the row of tokens as data, each of them with the gap in front of it, so that one can speak of
what stands behind a token in the text and of the characters that belong to it.

* `Scanned.exists_partition`: the row of a text, in which each token is the one that is split off at its
  place.  All that is said of one token comes from there.
* `Partition.existsUnique_covers`: a character that no gap holds belongs to exactly one token.
* `exists_partition_tokens`: the tokens of a source, with what is behind names, with the line ends and
  with the keywords.
-/

namespace Logo

open Lexeme

/-! ## Rows -/

/-- A token with the gap in front of it. -/
structure Placed where
  /-- What stands between the token before it, or the beginning of the text, and the token. -/
  gap : List Char
  /-- The token. -/
  token : Token

namespace Placed

/-- A gap and the text of the token behind it. -/
def text (x : Placed) : List Char := x.gap ++ x.token.text.toList

end Placed

/-- The text that a row takes up. -/
def written (row : List Placed) : List Char := row.flatMap Placed.text

@[simp] lemma written_nil : written [] = [] := rfl

@[simp] lemma written_cons (x : Placed) (row : List Placed) :
    written (x :: row) = x.text ++ written row := rfl

/-- A row of tokens and a gap at its end make up the text.  Gaps are blanks, but for a comment in front
of a line end or at the end of the text. -/
structure Partition (text : List Char) (row : List Placed) (last : List Char) : Prop where
  text_eq : text = written row ++ last
  gap : ∀ x ∈ row, IsBlanks x.gap ∨ IsRemark x.gap ∧ x.token.kind = .eol
  last : IsBlanks last ∨ IsRemark last

/-- The tokens that are split off a text make a row of it, and each of them is what is split off at its
place. -/
theorem Scanned.exists_partition {keywords : List String} {text : List Char} {ts : List Token}
    (h : Scanned keywords text ts) :
    ∃ row last, row.map Placed.token = ts ∧ Partition text row last ∧
      ∀ front x behind, row = front ++ x :: behind →
        split? keywords (x.text ++ (written behind ++ last)) =
          some (x.token, written behind ++ last) := by
  induction h with
  | @done text hnone => exact ⟨[], text, rfl, ⟨rfl, by simp, gap_of_split?_eq_none hnone⟩, by simp⟩
  | @token text rest t ts hsplit _ ih =>
    obtain ⟨row, last, htokens, hpartition, hplaces⟩ := ih
    obtain ⟨gap, htext, hgap⟩ := exists_gap_of_split? hsplit
    have hwhole : text = written (⟨gap, t⟩ :: row) ++ last := by
      rw [htext, hpartition.text_eq]
      simp [Placed.text]
    refine ⟨⟨gap, t⟩ :: row, last, by rw [List.map_cons, htokens],
      ⟨hwhole, List.forall_mem_cons.2 ⟨hgap, hpartition.gap⟩, hpartition.last⟩, ?_⟩
    intro front x behind hrow
    cases front with
    | nil =>
      obtain ⟨rfl, rfl⟩ := List.cons.inj hrow
      rw [written_cons, List.append_assoc] at hwhole
      rw [← hwhole, ← hpartition.text_eq]
      exact hsplit
    | cons y front => exact hplaces front x behind (List.cons.inj hrow).2

/-! ## Characters of tokens -/

/-- Whether the text of the token at a place of the row holds the character at a position of the
text. -/
def Covers (row : List Placed) (k p : Nat) : Prop :=
  ∃ x, row[k]? = some x ∧ (written (row.take k)).length + x.gap.length ≤ p ∧
    p < (written (row.take k)).length + x.text.length

section Covers

variable {x : Placed} {row : List Placed} {k k' p : Nat}

lemma covers_zero : Covers (x :: row) 0 p ↔ x.gap.length ≤ p ∧ p < x.text.length := by
  simp [Covers]

lemma covers_succ :
    Covers (x :: row) (k + 1) p ↔ x.text.length ≤ p ∧ Covers row k (p - x.text.length) := by
  simp only [Covers, List.getElem?_cons_succ, List.take_succ_cons, written_cons, List.length_append]
  constructor
  · rintro ⟨y, hy, hle, hlt⟩
    exact ⟨by omega, y, hy, by omega, by omega⟩
  · rintro ⟨hx, y, hy, hle, hlt⟩
    exact ⟨y, hy, by omega, by omega⟩

/-- No two tokens hold the same character. -/
lemma Covers.eq (h : Covers row k p) (h' : Covers row k' p) : k = k' := by
  induction row generalizing k k' p with
  | nil =>
    obtain ⟨_, hnone, -⟩ := h
    cases hnone
  | cons x row ih =>
    cases k with
    | zero =>
      cases k' with
      | zero => rfl
      | succ k' => exact absurd (covers_succ.1 h').1 (Nat.not_le.2 (covers_zero.1 h).2)
    | succ k =>
      cases k' with
      | zero => exact absurd (covers_succ.1 h).1 (Nat.not_le.2 (covers_zero.1 h').2)
      | succ k' => exact congrArg _ (ih (covers_succ.1 h).2 (covers_succ.1 h').2)

/-- A character of a row that no gap holds is held by a token. -/
lemma exists_covers {c : Char} (hgaps : ∀ x ∈ row, c ∉ x.gap) (hp : (written row)[p]? = some c) :
    ∃ k x, row[k]? = some x ∧ c ∈ x.token.text.toList ∧ Covers row k p := by
  induction row generalizing p with
  | nil => simp at hp
  | cons x row ih =>
    obtain ⟨hgap, hgaps⟩ := List.forall_mem_cons.1 hgaps
    by_cases hlt : p < x.text.length
    · rw [written_cons, List.getElem?_append_left hlt] at hp
      have hle : x.gap.length ≤ p := by
        by_contra hlt'
        rw [Placed.text, List.getElem?_append_left (Nat.not_le.1 hlt')] at hp
        exact hgap (List.mem_of_getElem? hp)
      rw [Placed.text, List.getElem?_append_right hle] at hp
      exact ⟨0, x, rfl, List.mem_of_getElem? hp, covers_zero.2 ⟨hle, hlt⟩⟩
    · rw [written_cons, List.getElem?_append_right (Nat.not_lt.1 hlt)] at hp
      obtain ⟨k, y, hy, hmem, hcovers⟩ := ih hgaps hp
      exact ⟨k + 1, y, hy, hmem, covers_succ.2 ⟨Nat.not_lt.1 hlt, hcovers⟩⟩

end Covers

namespace Partition

variable {text last : List Char} {row : List Placed}

/-- Gaps hold no line ends. -/
lemma not_mem_gap (h : Partition text row last) : (∀ x ∈ row, '\n' ∉ x.gap) ∧ '\n' ∉ last :=
  ⟨fun x hx => (h.gap x hx).elim not_mem_of_isBlanks fun hremark => not_mem_of_isRemark hremark.1,
    h.last.elim not_mem_of_isBlanks not_mem_of_isRemark⟩

/-- A line end is held by exactly one token. -/
theorem existsUnique_covers (h : Partition text row last) {p : Nat} (hp : text[p]? = some '\n') :
    ∃! k, ∃ x, row[k]? = some x ∧ '\n' ∈ x.token.text.toList ∧ Covers row k p := by
  obtain ⟨hgaps, hlast⟩ := h.not_mem_gap
  have hlt : p < (written row).length := by
    by_contra hle
    rw [h.text_eq, List.getElem?_append_right (Nat.not_lt.1 hle)] at hp
    exact hlast (List.mem_of_getElem? hp)
  rw [h.text_eq, List.getElem?_append_left hlt] at hp
  obtain ⟨k, x, hx, hmem, hcovers⟩ := exists_covers hgaps hp
  exact ⟨k, ⟨x, hx, hmem, hcovers⟩, fun k' ⟨_, _, _, hcovers'⟩ => hcovers'.eq hcovers⟩

end Partition

/-! ## Names -/

namespace Lexeme

variable {keywords : List String} {c : Char} {text rest : List Char} {t : Token}

/-- A token is split off at the first character behind the gap, which is its own first one. -/
lemma exists_splitToken_of_split? (h : split? keywords text = some (t, rest)) :
    ∃ c behind, splitToken keywords c behind = (t, rest) ∧ t.text.toList ++ rest = c :: behind := by
  obtain ⟨c, behind, -, htoken⟩ := split?_eq_some_iff.1 h
  have happend := splitToken_append keywords c behind
  rw [htoken] at happend
  exact ⟨c, behind, htoken, happend⟩

lemma kind_nameToken_mem (name : String) :
    (nameToken keywords name).kind ∈ [TokenKind.name, .keyword] := by
  unfold nameToken
  split <;> simp

lemma kind_nameToken_eq_keyword_iff {name : String} :
    (nameToken keywords name).kind = .keyword ↔ name ∈ keywords := by
  unfold nameToken
  split <;> simp [*]

lemma splitToken_of_isNameStart (hc : isNameStart c = true) :
    splitToken keywords c rest =
      (nameToken keywords (String.ofList (c :: rest.takeWhile isNameChar)),
        rest.dropWhile isNameChar) := by
  rw [splitToken, if_neg (ne_of_isNameStart hc).2, if_pos hc]

lemma kind_splitToken_of_not_isNameStart (keywords : List String) (rest : List Char)
    (hc : ¬ isNameStart c = true) :
    (splitToken keywords c rest).1.kind ∉ [TokenKind.name, .keyword] := by
  rw [splitToken, if_neg hc]
  split
  · simp
  · split
    · have hkind := kind_splitNumber (c :: rest)
      revert hkind
      cases (splitNumber (c :: rest)).1.kind <;> simp
    · simp

/-- The tokens that are identifiers are names and keywords, and the list tells which of the two.  No
character of a name follows them. -/
theorem identifier_of_split? (h : split? keywords text = some (t, rest)) :
    (t.kind ∈ [TokenKind.name, .keyword] ↔ IsIdentifier t.text.toList) ∧
      (IsIdentifier t.text.toList → (t.kind = .keyword ↔ t.text ∈ keywords) ∧
        Halts (isNameChar · = true) rest) := by
  obtain ⟨c, behind, htoken, hwhole⟩ := exists_splitToken_of_split? h
  by_cases hc : isNameStart c = true
  · rw [splitToken_of_isNameStart hc, Prod.mk.injEq] at htoken
    obtain ⟨rfl, rfl⟩ := htoken
    have hidentifier : IsIdentifier (c :: behind.takeWhile isNameChar) :=
      ⟨hc, fun d => List.mem_takeWhile_imp⟩
    have hstop : Halts (isNameChar · = true) (behind.dropWhile isNameChar) := by
      intro d hd
      have hhead := List.head?_dropWhile_not isNameChar behind
      rw [Option.mem_def] at hd
      rw [hd] at hhead
      simpa using hhead
    exact ⟨iff_of_true (kind_nameToken_mem _) (by simpa [nameToken] using hidentifier),
      fun _ => ⟨kind_nameToken_eq_keyword_iff, hstop⟩⟩
  · have hkind := kind_splitToken_of_not_isNameStart keywords behind hc
    rw [htoken] at hkind
    have hnot : ¬ IsIdentifier t.text.toList := fun hidentifier => by
      cases htext : t.text.toList with
      | nil => simp [htext, IsIdentifier] at hidentifier
      | cons d name =>
        rw [htext] at hwhole hidentifier
        rw [List.cons_append, List.cons.injEq] at hwhole
        exact hc (hwhole.1 ▸ hidentifier.1)
    exact ⟨iff_of_false hkind hnot, fun hidentifier => absurd hidentifier hnot⟩

/-- The tokens with a line end in their text are the line ends. -/
lemma mem_newline_iff_of_split? (h : split? keywords text = some (t, rest)) :
    '\n' ∈ t.text.toList ↔ t.kind = .eol := by
  have hcount := count_newline_of_split? h
  rw [← List.count_pos_iff, hcount]
  split <;> simp [*]

end Lexeme

/-! ## Sources -/

/-- The tokens of a source are split off it one after the other. -/
lemma scanned_remaining_ofString (keywords : List String) (source : String) :
    Scanned keywords source.toList (TokenStream.ofString keywords source).remaining :=
  TokenStream.scanned_remaining (TokenStream.plain_ofString keywords source)

/-- A source is its tokens in order, with gaps of blanks between them that may end in a comment where a
line end or the end of the source follows.

The identifiers among the tokens are those of the kinds of names, and no character that could go on
with one of them follows it in the source; such a token is a keyword if and only if it is listed as
one.  Every line end of the source belongs to exactly one token, which is of the kind of line ends, and
each token of that kind holds one. -/
theorem exists_partition_tokens (keywords : List String) (source : String) :
    ∃ row last, row.map Placed.token = (TokenStream.ofString keywords source).remaining ∧
      Partition source.toList row last ∧
      (∀ front x behind, row = front ++ x :: behind →
        (x.token.kind ∈ [TokenKind.name, .keyword] ↔ IsIdentifier x.token.text.toList) ∧
        (IsIdentifier x.token.text.toList →
          (x.token.kind = .keyword ↔ x.token.text ∈ keywords) ∧
          ∀ c ∈ (written behind ++ last).head?, ¬ isNameChar c = true)) ∧
      (∀ x ∈ row, '\n' ∈ x.token.text.toList ↔ x.token.kind = .eol) ∧
      ∀ p, source.toList[p]? = some '\n' →
        ∃! k, ∃ x, row[k]? = some x ∧ x.token.kind = .eol ∧ Covers row k p := by
  obtain ⟨row, last, htokens, hpartition, hplaces⟩ :=
    (scanned_remaining_ofString keywords source).exists_partition
  have hlines : ∀ x ∈ row, '\n' ∈ x.token.text.toList ↔ x.token.kind = .eol := by
    intro x hx
    obtain ⟨front, behind, hrow⟩ := List.append_of_mem hx
    exact mem_newline_iff_of_split? (hplaces front x behind hrow)
  refine ⟨row, last, htokens, hpartition, fun front x behind hrow => ?_, hlines, fun p hp => ?_⟩
  · exact identifier_of_split? (hplaces front x behind hrow)
  · obtain ⟨k, ⟨x, hx, hmem, hcovers⟩, hunique⟩ := hpartition.existsUnique_covers hp
    refine ⟨k, ⟨x, hx, (hlines x (List.mem_of_getElem? hx)).1 hmem, hcovers⟩, ?_⟩
    rintro k' ⟨y, hy, hkind, hcovers'⟩
    exact hunique k' ⟨y, hy, (hlines y (List.mem_of_getElem? hy)).2 hkind, hcovers'⟩

end Logo
