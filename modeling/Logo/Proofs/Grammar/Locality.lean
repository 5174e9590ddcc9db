import Logo.Proofs.Grammar.Pairing

/-!
# Rules look one token ahead

Two assemblies with the tokens `q ++ x :: z` and `q ++ x :: z'` in front of them cannot be told apart
by a rule that does not consume `x`: it does the same to both, or fails on both.  They are a pairing,
`lookahead x z z'`, in which the second side matters up to the point where `x` is consumed.

A repetition that has not consumed `x` took at most the tokens of `q`, so the limits do not matter.
-/

namespace Logo

namespace Step

open Assembly

/-- Both have fewer than `k` tokens in front of `x`, the same ones, and the same trees; behind `x` they
may differ. -/
def lookahead (x : Token) (z z' : List Token) : Pairing where
  related k a a' :=
    ∃ q, a.tokens = q ++ x :: z ∧ a'.tokens = q ++ x :: z' ∧ q.length < k ∧ a'.stack = a.stack
  passed a := x.kind ≠ .malformed ∧ a.tokens.length ≤ z.length
  errors _ _ := True
  slack := 0
  slack' := 0
  related_mono := by
    rintro k m a a' ⟨q, htokens, htokens', hq, hstack⟩ hle
    exact ⟨q, htokens, htokens', Nat.lt_of_lt_of_le hq hle, hstack⟩
  not_related_zero := by
    rintro a a' ⟨q, -, -, hq, -⟩
    exact absurd hq (Nat.not_lt_zero _)
  stack_eq := by
    rintro k a a' ⟨q, -, -, -, hstack⟩
    exact hstack
  tokens_eq_nil_iff := by
    rintro k a a' ⟨q, htokens, htokens', -, -⟩
    simp [htokens, htokens']
  restack := by
    rintro k a a' stack ⟨q, htokens, htokens', hq, -⟩
    exact ⟨q, htokens, htokens', hq, rfl⟩
  passed_of_le := by
    rintro a b ⟨hkind, hpassed⟩ hle
    exact ⟨hkind, Nat.le_trans hle hpassed⟩
  errors_grammar _ _ _ _ := trivial

variable {x : Token} {z z' : List Token}

theorem paired_accept_lookahead (kind : TokenKind) (text? : Option String) (k : Nat) :
    Paired (lookahead x z z') k (accept kind text?) (accept kind text?) (left k) where
  shrinks := shrinks_accept kind text?
  both a a' hrelated := by
    obtain ⟨q, htokens, htokens', hq, hstack⟩ := hrelated
    cases q with
    | nil =>
      rcases accept_cases kind text? x with ⟨-, h⟩ | ⟨hkind, -, h⟩ | ⟨-, -, h⟩
      · obtain ⟨l, b, hb, -⟩ := h a z htokens
        obtain ⟨l', b', hb', -⟩ := h a' z' htokens'
        exact meets_of_error hb (.inr (meets_of_error hb' trivial))
      · obtain ⟨b, hb, hts, -⟩ := h a z htokens
        exact meets_of_ok hb (.inl ⟨hkind, Nat.le_of_eq (by rw [hts])⟩)
      · obtain ⟨b, hb, hts, hst⟩ := h a z htokens
        obtain ⟨b', hb', hts', hst'⟩ := h a' z' htokens'
        refine meets_of_ok hb (.inr (meets_of_ok hb' ⟨rfl, [], hts, hts', hq, ?_⟩))
        rw [hst', hstack, hst]
    | cons y q =>
      rcases accept_cases kind text? y with ⟨-, h⟩ | ⟨-, -, h⟩ | ⟨-, -, h⟩
      · obtain ⟨l, b, hb, -⟩ := h a _ htokens
        obtain ⟨l', b', hb', -⟩ := h a' _ htokens'
        exact meets_of_error hb (.inr (meets_of_error hb' trivial))
      · obtain ⟨b, hb, hts, hst⟩ := h a _ htokens
        obtain ⟨b', hb', hts', hst'⟩ := h a' _ htokens'
        refine meets_of_ok hb (.inr (meets_of_ok hb' ⟨rfl, q, hts, hts', Nat.lt_sub_of_add_lt hq, ?_⟩))
        rw [hst', hstack, hst]
      · obtain ⟨b, hb, hts, hst⟩ := h a _ htokens
        obtain ⟨b', hb', hts', hst'⟩ := h a' _ htokens'
        refine meets_of_ok hb (.inr (meets_of_ok hb' ⟨rfl, y :: q, hts, hts', hq, ?_⟩))
        rw [hst', hstack, hst]

instance : (lookahead x z z').Reads where
  accept _ := paired_accept_lookahead _
  lineEnd hfits :=
    pairedRule_lineEnd_of_accept (fun m _ => paired_accept_lookahead .eol none m) hfits _
      (Nat.le_refl _)

end Step

end Logo
