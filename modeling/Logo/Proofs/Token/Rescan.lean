import Logo.Proofs.Token.Standing

/-!
# Scanning tokens that were written in a row

The tokens of a text, written with one blank between two of them, are a text with the same tokens:
comments are gone and blanks are normalized, but line ends are tokens and stay.

* `TokenStream.ahead_eq_withLines`: the lines of tokens follow from the tokens.
* `scanned_joined`: tokens that stand by themselves are read back when joined.
* `tokenize_joined_tokens`: scanning the joined tokens of a text gives the tokens and the lines of the
  text.
-/

namespace Logo

/-- Tokens with their lines, the first token being on the given one. -/
def withLines (line : Nat) : List Token → List (Token × Nat)
  | [] => []
  | t :: ts => (t, line) :: withLines (if t.kind = .eol then line + 1 else line) ts

/-- The texts of tokens with one blank between two of them. -/
def joined (ts : List Token) : String := " ".intercalate (ts.map Token.text)

/-- Joined tokens behind a token, with the blank that separates them from it. -/
lemma exists_toList_joined_cons (t : Token) (ts : List Token) :
    ∃ tail, (joined (t :: ts)).toList = t.text.toList ++ tail ∧
      (ts = [] ∧ tail = [] ∨ tail = ' ' :: (joined ts).toList) := by
  cases ts with
  | nil => exact ⟨[], by simp [joined], .inl ⟨rfl, rfl⟩⟩
  | cons u us => exact ⟨' ' :: (joined (u :: us)).toList, by simp [joined], .inr rfl⟩

namespace TokenStream

/-- The lines of the tokens to come follow from the tokens. -/
lemma ahead_eq_withLines {s : TokenStream} (h : s.Plain) :
    s.ahead = withLines s.line s.remaining := by
  rw [remaining_eq_map_ahead]
  generalize hahead : s.ahead = xs
  induction xs generalizing s with
  | nil => rfl
  | cons x xs ih =>
    obtain ⟨s', -, hahead', -, hplain, hx, hline⟩ := split?_of_ahead h hahead
    rw [List.map_cons, withLines, ← hline, ← ih hplain hahead', ← hx]

end TokenStream

/-- Joined tokens are read back, each of them being cut off where it ended. -/
theorem scanned_joined {keywords : List String} {ts : List Token}
    (hts : ∀ t ∈ ts, Lexeme.Stands keywords t) : Scanned keywords (joined ts).toList ts := by
  induction ts with
  | nil => exact .done rfl
  | cons t ts ih =>
    obtain ⟨ht, hts⟩ := List.forall_mem_cons.1 hts
    obtain ⟨tail, htext, htail⟩ := exists_toList_joined_cons t ts
    rw [htext]
    rcases htail with ⟨rfl, rfl⟩ | rfl
    · exact .token (ht [] (by simp [Lexeme.Halts])) (ih hts)
    · exact .token (ht _ (Lexeme.halts_cons.2 (not_not.2 rfl))) (ih hts).blank

open TokenStream in
/-- The tokens of a text, joined with blanks and scanned again with the same keywords, are the tokens
of the text, on the same lines. -/
theorem tokenize_joined_tokens (keywords : List String) (source : String) :
    tokenize keywords (joined (ofString keywords source).remaining) = tokenize keywords source := by
  have hplain := plain_ofString keywords source
  have hplain' := plain_ofString keywords (joined (ofString keywords source).remaining)
  have hstands : ∀ t ∈ (ofString keywords source).remaining, Lexeme.Stands keywords t := by
    intro t ht
    obtain ⟨x, hx, rfl⟩ := List.mem_map.1 ht
    exact stands_of_mem_ahead hplain x hx
  have hremaining := remaining_of_scanned hplain' (scanned_joined hstands) rfl rfl
  have hlines := ahead_eq_withLines hplain'
  rw [hremaining] at hlines
  exact hlines.trans (ahead_eq_withLines hplain).symm

/-- A comment becomes the line end behind it, and a malformed literal stays one. -/
example : joined ((TokenStream.ofString [] "a//b\n1e+ .5f").remaining) = "a \n 1e+ .5f" := by
  decide +kernel

end Logo
