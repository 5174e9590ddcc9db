import Logo.Proofs.Grammar.Completeness.Program
import Logo.Proofs.Grammar.Locality
import Logo.Proofs.Token.Standing

/-!
# Errors come at the earliest token

Where `parse` fails, the text splits at the earliest token with which no script goes on: what stands in
front of it begins some script that `parse` accepts, and with the token it begins none.  The error
carries the line of that token, or that of the last token if the text ends too early.

* `exists_accepted`: tokens that begin a script begin one that can be written down.  Its text is made
  of the tokens themselves and of the tokens that complete them, with blanks in between.
* `not_prefix_of_rule_eq_error`: the rules look only one token ahead, so a text with the same tokens
  up to the offending one would fail too.
* `parse_error_earliest` puts the two together.
-/

namespace Logo

open Grammar

/-! ## Texts that are accepted -/

lemma sourceTokens_spaced {ts : List Token}
    (hts : ∀ t ∈ ts, Lexeme.Stands Vocabulary.keywords t) :
    sourceTokens (String.ofList (spaced ts)) = ts :=
  TokenStream.remaining_of_scanned (TokenStream.plain_ofString _ _) (scanned_spaced hts) rfl
    String.toList_ofList

lemma stands_of_mem_sourceTokens {source : String} {t : Token} (ht : t ∈ sourceTokens source) :
    Lexeme.Stands Vocabulary.keywords t := by
  obtain ⟨x, hx, rfl⟩ := List.mem_map.1 ht
  exact TokenStream.stands_of_mem_ahead (TokenStream.plain_ofString _ source) x hx

lemma stands_fillers : ∀ t ∈ fillers, Lexeme.Stands Vocabulary.keywords t := by
  have hsplit : ∀ t ∈ fillers,
      Lexeme.split? Vocabulary.keywords t.text.toList = some (t, []) := by decide +kernel
  exact fun t ht => Lexeme.stands_of_split? (hsplit t ht)

/-- What begins a script begins one that is accepted. -/
theorem exists_accepted {p : List Token} (hp : Step.BeginsProgram p)
    (hstands : ∀ t ∈ p, Lexeme.Stands Vocabulary.keywords t) :
    ∃ accepted t, parse accepted = .ok t ∧ p <+: sourceTokens accepted := by
  obtain ⟨q, hq, t, ht⟩ := hp
  have hall : ∀ u ∈ p ++ q, Lexeme.Stands Vocabulary.keywords u := fun u hu =>
    (List.mem_append.1 hu).elim (hstands u) fun hu => stands_fillers u (hq hu)
  have htokens := sourceTokens_spaced hall
  refine ⟨String.ofList (spaced (p ++ q)), t, parse_complete ?_, ?_⟩
  · rwa [htokens]
  · rw [htokens]
    exact List.prefix_append p q

/-! ## Texts that are not accepted -/

/-- A text on which the rule of scripts fails without having consumed a token is not accepted with
another end behind that token either. -/
theorem not_prefix_of_rule_eq_error {source accepted : String} {e : ParseError} {b : Assembly}
    {p z : List Token} {x : Token} {t : Tree Token}
    (hrule : Nonterminal.program.rule (Assembly.ofString source) = .error e b)
    (hsource : sourceTokens source = p ++ x :: z) (hx : x.kind = .malformed ∨ b.tokens = x :: z)
    (haccepted : parse accepted = .ok t) : ¬ p ++ [x] <+: sourceTokens accepted := by
  rintro ⟨z', hz'⟩
  rw [List.append_assoc, List.singleton_append] at hz'
  have hlimit {text : String} {ts : List Token} (htext : p ++ x :: ts = sourceTokens text) :
      p.length + 1 ≤ (Assembly.ofString text).budget := by
    have hbudget := Assembly.length_ahead_lt_budget (Assembly.ofString text)
    rw [← Assembly.length_tokens] at hbudget
    have hlength := congrArg List.length htext
    simp only [List.length_append, List.length_cons] at hlength
    change _ = (Assembly.ofString text).tokens.length at hlength
    omega
  have hrelated : (Step.lookahead x z z').related (p.length + 1) (Assembly.ofString source)
      (Assembly.ofString accepted) :=
    ⟨p, hsource, hz'.symm, Nat.lt_succ_self _, rfl⟩
  have hpaired := Step.paired_programAt (P := Step.lookahead x z z') fun _ =>
    ⟨hlimit hsource.symm, hlimit hz'⟩
  rw [programRule_apply] at hrule
  rcases (hpaired.both _ _ hrelated).of_error hrule with ⟨hkind, hpassed⟩ | herror
  · rcases hx with hmalformed | htokens
    · exact hkind hmalformed
    · rw [htokens, List.length_cons] at hpassed
      omega
  · obtain ⟨e', d, hrun, -⟩ := herror.exists_error
    rw [← programRule_apply] at hrun
    simp [parse_of_rule_eq_error hrun] at haccepted

/-! ## The error of a text -/

/-- The line of the last token of a text, and 1 if it has none. -/
def lastLine (source : String) : Nat :=
  ((tokenize Vocabulary.keywords source).getLast?.map Prod.snd).getD 1

/-- The tokens of a text on which `parse` fails split as `p ++ rest`: `p` begins an accepted text, and
with the head of `rest` it begins none.  The error belongs to that head: it is the malformed literal
or a fault on its line, which is the line behind as many line ends as `p` contains.  If `rest` is
empty the error is a fault on the line of the last token. -/
theorem parse_error_earliest {source : String} {e : ParseError} (h : parse source = .error e) :
    ∃ p rest, tokenize Vocabulary.keywords source = p ++ rest ∧
      (∃ accepted t, parse accepted = .ok t ∧ p.map Prod.fst <+: sourceTokens accepted) ∧
      match rest with
      | [] => ∃ fault trees, e = .grammar fault (lastLine source) trees
      | (x, l) :: _ =>
        (∀ accepted t, parse accepted = .ok t →
          ¬ p.map Prod.fst ++ [x] <+: sourceTokens accepted) ∧
        l = 1 + (p.countP fun y => y.1.kind = .eol) ∧
        if x.kind = .malformed then e = .literal x.text l
        else ∃ fault trees, e = .grammar fault l trees := by
  obtain ⟨b, hrule, p, rest, hahead, hp, hplaced⟩ := rule_of_parse_eq_error h
  have htokens : tokenize Vocabulary.keywords source = p ++ rest := hahead
  have hstands : ∀ t ∈ p.map Prod.fst, Lexeme.Stands Vocabulary.keywords t := by
    intro t ht
    refine stands_of_mem_sourceTokens (?_ : t ∈ sourceTokens source)
    rw [sourceTokens, htokens, List.map_append]
    exact List.mem_append_left _ ht
  refine ⟨p, rest, htokens, exists_accepted hp hstands, ?_⟩
  cases rest with
  | nil => exact hplaced
  | cons y rest =>
    obtain ⟨x, l⟩ := y
    have hsource : sourceTokens source = p.map Prod.fst ++ x :: rest.map Prod.fst := by
      simp [sourceTokens, htokens]
    have hx : x.kind = .malformed ∨ b.tokens = x :: rest.map Prod.fst := by
      by_cases hkind : x.kind = .malformed
      · exact .inl hkind
      · simp only [Step.Placed, if_neg hkind] at hplaced
        exact .inr (congrArg (List.map Prod.fst) hplaced.1)
    refine ⟨fun accepted t haccepted => ?_, ?_, ?_⟩
    · exact not_prefix_of_rule_eq_error hrule hsource hx haccepted
    · exact TokenStream.line_of_ahead (TokenStream.plain_ofString _ source) hahead
    · by_cases hkind : x.kind = .malformed
      · simpa only [Step.Placed, if_pos hkind] using hplaced
      · simp only [Step.Placed, if_neg hkind] at hplaced ⊢
        exact hplaced.2

/-- A command that ends where its operand must begin. -/
theorem parse_error_earliest_forward :
    parse "forward\n" = .error (.grammar .noDistance 1 [.leaf (.keyword "forward")]) ∧
      ∃ p rest, tokenize Vocabulary.keywords "forward\n" = p ++ rest ∧
        ∃ accepted t, parse accepted = .ok t ∧ p.map Prod.fst <+: sourceTokens accepted := by
  have hfails : parse "forward\n" = .error (.grammar .noDistance 1 [.leaf (.keyword "forward")]) := by
    decide +kernel
  obtain ⟨p, rest, htokens, haccepted, -⟩ := parse_error_earliest hfails
  exact ⟨hfails, p, rest, htokens, haccepted⟩

end Logo
