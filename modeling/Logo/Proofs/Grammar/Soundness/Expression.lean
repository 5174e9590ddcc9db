import Logo.Proofs.Grammar.Completion
import Logo.Proofs.Grammar.Reading

/-!
# What the rules of expressions read

Each layer of expressions reads a phrase of that layer, and stops in front of a token that does not
go on with it (`PhraseRead`).  Where it fails, the tokens it consumed begin some phrase of the
layer (`Begins`).

The layers are chains `first (operator operand)*`, so one lemma on `Step.chain` does the work; its
invariant is that the tree on top of the stack is a phrase over all the tokens consumed so far.  The
rules take the rule inside parentheses as an argument, and `reads_expressionAt` ties the knot by
induction on the limit.
-/

namespace Logo

namespace Step

open Assembly Grammar

/-- What has to follow a phrase for the layer to stop there. -/
def Stops : Nonterminal → List Token → Prop
  | .expression, rest => Clear operators rest
  | .term, rest => Clear multiplicative rest
  | .unsignedTerm, rest => Clear multiplicative rest
  | _, _ => True

/-- One tree was built, which is a phrase over the tokens consumed, and the layer stops there. -/
def PhraseRead (n : Nonterminal) (c rest : List Token) (trees : List (Tree Token)) : Prop :=
  ∃ t, trees = [t] ∧ Phrase n c t ∧ Stops n rest

/-- A rule reads the phrases of a layer. -/
abbrev ReadsPhrase (R : Rule) (bound : Nat) (n : Nonterminal) : Prop :=
  Reads R bound (PhraseRead n) (Begins n)

/-! ## Operators -/

lemma wanted_symbol {text : String} {x : Token} :
    Wanted .symbol (some text) x ↔ IsSymbol [text] x := by
  simp [Wanted, IsSymbol, eq_comm]

lemma addOperator_eq : addOperator = firstOf (additive.map symbol) := rfl

lemma multiplyOperator_eq : multiplyOperator = firstOf (multiplicative.map symbol) := rfl

lemma clear_of_peeked {b : Assembly} {texts : List String} (h : b.Peeked)
    (hno : ∀ x ∈ b.tokens.head?, ¬ IsSymbol texts x) : Clear texts b.tokens := by
  intro x hx
  refine ⟨?_, hno x hx⟩
  rw [tokens, List.head?_map, Option.mem_def, Option.map_eq_some_iff] at hx
  obtain ⟨y, hy, rfl⟩ := hx
  exact (h y hy).1

/-- Looking for one of several symbols finds it, or else the symbols do not go on here. -/
theorem meets_symbols {V : List Token → Prop} (hV : V []) {texts : List String} (hne : texts ≠ [])
    (a : Assembly) :
    Meets (firstOf (texts.map symbol)) a
      (fun matched b =>
        if matched then ∃ x l, IsSymbol texts x ∧ Advanced a [(x, l)] [.leaf x] b
        else Advanced a [] [] b ∧ b.Peeked ∧ Clear texts b.tokens)
      (Strays a V) := by
  induction texts generalizing a with
  | nil => exact absurd rfl hne
  | cons text texts ih =>
    refine (meets_accept .symbol (some text) a hV).bind (fun _ _ he => he) ?_
    rintro (_ | _) b hb
    · obtain ⟨hadv, hpeeked, hno⟩ := hb
      simp only [wanted_symbol] at hno
      cases texts with
      | nil => exact ⟨hadv, hpeeked, clear_of_peeked hpeeked hno⟩
      | cons text' texts =>
        refine (ih (by simp) b).mono ?_ (fun e _ he => he.shift hadv fun p _ hp => hp)
        rintro (_ | _) d hd
        · obtain ⟨hadv', hpeeked', hclear⟩ := hd
          have htokens : d.tokens = b.tokens := by simpa using hadv'.tokens.symm
          refine ⟨hadv.trans hadv', hpeeked', clear_of_peeked hpeeked' fun x hx hsym => ?_⟩
          rcases List.mem_cons.1 hsym.2 with htext | hmem
          · exact hno x (htokens ▸ hx) ⟨hsym.1, by simp [htext]⟩
          · exact (hclear x hx).2 ⟨hsym.1, hmem⟩
        · obtain ⟨x, l, hx, hadv'⟩ := hd
          exact ⟨x, l, hx.mono (List.subset_cons_self _ _), by simpa using hadv.trans hadv'⟩
    · obtain ⟨x, l, hx, hadv⟩ := hb
      exact ⟨x, l, (wanted_symbol.1 hx).mono (by simp), hadv⟩

/-! ## Chains -/

section Chain

variable {first operand : Rule} {texts : List String} {n m k : Nonterminal} {fault : Fault}
variable {bound : Nat}

/-- What the spans of a chain are: a phrase, an operator and an operand are again a phrase. -/
structure Links (n k : Nonterminal) (texts : List String) : Prop where
  ne_nil : texts ≠ []
  zero : Begins k []
  phrase : ∀ {us o vs l r}, Phrase n us l → IsSymbol texts o → Phrase k vs r →
    Phrase n (us ++ o :: vs) (.node o [l, r])
  stops : ∀ {rest}, Stops k rest → Clear texts rest → Stops n rest

/-- One operator and its operand.  The tree on top of the stack is a phrase over all tokens consumed
since `a`, before and after. -/
lemma meets_link (hlinks : Links n k texts) (hoperand : ReadsPhrase operand bound k)
    {a b : Assembly} {c : List (Token × Nat)} {l : Tree Token} (h : Advanced a c [l] b)
    (hl : Phrase n (c.map Prod.fst) l) (hstop : Stops k b.tokens) (hb : b.ahead.length < bound) :
    Meets (link (firstOf (texts.map symbol)) operand fault) b
      (fun matched d =>
        if matched then ∃ c' t, Advanced a c' [t] d ∧ Phrase n (c'.map Prod.fst) t ∧
          Stops k d.tokens ∧ d.ahead.length < b.ahead.length
        else Advanced a c [l] d ∧ Stops n d.tokens)
      (Strays a (Begins n)) := by
  have hop := meets_symbols (V := (· = [])) rfl hlinks.ne_nil b
  refine hop.bind (fun e _ he => he.shift h fun p _ hp => ?_) ?_
  · rw [hp, List.append_nil]
    exact hl.begins
  · rintro (_ | _) d hd
    · obtain ⟨hadv, -, hclear⟩ := hd
      have htokens : d.tokens = b.tokens := by simpa using hadv.tokens.symm
      exact ⟨by simpa using h.trans hadv, hlinks.stops (htokens ▸ hstop) hclear⟩
    · obtain ⟨o, lo, ho, hadv⟩ := hd
      have hless := hadv.length_lt (by simp)
      refine hoperand.require_then hlinks.zero (h.trans hadv) (by omega) (fun p _ hp => ?_) ?_
      · have hbehind : Begins n (c.map Prod.fst ++ [o] ++ p) := hp.behind (by simp)
          fun vs r hr => ⟨_, by simpa using hlinks.phrase hl ho hr⟩
        simpa using hbehind
      · rintro c' _ d' h' ⟨r, rfl, hr, hstop'⟩ hless'
        have hstack : d'.stack = r :: .leaf o :: l :: a.stack := by simpa using h'.stack
        refine meets_bind.2 (meets_of_ok (combine_operation hstack) ?_)
        refine ⟨c ++ [(o, lo)] ++ c', .node o [l, r], h'.withStack rfl, ?_, hstop',
          Nat.lt_trans hless' hless⟩
        simpa using hlinks.phrase hl ho hr

/-- The part of a chain behind its first operand. -/
lemma meets_links (hlinks : Links n k texts) (hoperand : ReadsPhrase operand bound k)
    {a b : Assembly} {c : List (Token × Nat)} {l : Tree Token} (count limit : Nat)
    (h : Advanced a c [l] b) (hl : Phrase n (c.map Prod.fst) l) (hstop : Stops k b.tokens)
    (hb : b.ahead.length < bound) (hlimit : b.ahead.length < limit) :
    Meets (countMatches (link (firstOf (texts.map symbol)) operand fault) count limit) b
      (fun _ d => ∃ c' t, Advanced a c' [t] d ∧ Phrase n (c'.map Prod.fst) t ∧ Stops n d.tokens)
      (Strays a (Begins n)) := by
  induction limit generalizing count b c l with
  | zero => omega
  | succ limit ih =>
    refine (meets_link hlinks hoperand h hl hstop hb).bind (fun _ _ he => he) ?_
    rintro (_ | _) d hd
    · exact ⟨c, l, hd.1, hl, hd.2⟩
    · obtain ⟨c', t, h', ht, hstop', hless⟩ := hd
      exact ih (count + 1) h' ht hstop' (by omega) (by omega)

/-- A chain reads phrases of a layer whose operands are phrases of the layers below. -/
theorem reads_chain (hlinks : Links n k texts) (hfirst : ReadsPhrase first (bound + 1) m)
    (hoperand : ReadsPhrase operand bound k) (hsub : ∀ us t, Phrase m us t → Phrase n us t)
    (hstops : ∀ rest, Stops m rest → Stops k rest) :
    ReadsPhrase (chain bound first (firstOf (texts.map symbol)) operand fault) (bound + 1) n := by
  intro a ha
  refine (hfirst a ha).bind (fun e _ he => he.shift (.refl a) fun p _ hp => hp.mono hsub) ?_
  rintro (_ | _) b hb
  · exact hb
  · obtain ⟨c, _, h, hne, t, rfl, ht, hstop⟩ := hb
    have hless := h.length_lt hne
    refine meets_bind.2 (meets_discard.2 ?_)
    refine (meets_links hlinks hoperand 0 bound h (hsub _ _ ht) (hstops _ hstop) (by omega)
      (by omega)).mono ?_ (fun _ _ he => he)
    rintro _ d ⟨c', u, h', hu, hstop'⟩
    refine ⟨c', [u], h', ?_, u, rfl, hu, hstop'⟩
    rintro rfl
    exact hu.ne_nil rfl

end Chain

/-! ## The layers -/

section Layers

variable {inner : Rule} {limit : Nat}

/-- Tokens that are operands by themselves. -/
lemma reads_operand {V : List Token → Prop} (hV : V []) (bound : Nat) :
    Reads (firstOf [name, number, keyword "getX", keyword "getY"]) bound
      (PhraseRead .unsignedFactor) V := by
  have hleaf : ∀ kind text?, (∀ x, Wanted kind text? x → Phrase .unsignedFactor [x] (.leaf x)) →
      Reads (accept kind text?) bound (PhraseRead .unsignedFactor) V := by
    intro kind text? hphrase
    refine (reads_accept kind text? hV).mono ?_ (fun _ hp => hp)
    rintro c rest trees ⟨x, hx, rfl, rfl⟩
    exact ⟨_, rfl, hphrase x hx, trivial⟩
  have hcoordinate : ∀ word ∈ ["getX", "getY"], ∀ x, Wanted .keyword (some word) x →
      Phrase .unsignedFactor [x] (.leaf x) := by
    rintro word hword ⟨kind, text⟩ ⟨hkind, htext⟩
    obtain rfl : kind = .keyword := hkind
    obtain rfl : word = text := by simpa using htext
    exact .coordinate hword
  refine reads_firstOf (by simp) fun R hR => ?_
  simp only [List.mem_cons, List.not_mem_nil, or_false] at hR
  rcases hR with rfl | rfl | rfl | rfl
  · exact hleaf .name none fun x hx => .name hx.1
  · exact hleaf .number none fun x hx => .number hx.1
  · exact hleaf .keyword _ (hcoordinate "getX" (by simp))
  · exact hleaf .keyword _ (hcoordinate "getY" (by simp))

/-- A symbol that leaves no tree behind. -/
lemma reads_skip_symbol {V : List Token → Prop} (hV : V []) (text : String) (bound : Nat) :
    Reads (skip (symbol text)) bound (fun c _ trees => c = [.symbol text] ∧ trees = []) V := by
  refine ((reads_accept .symbol (some text) hV).skip ?_).mono ?_ fun _ hp => hp
  · rintro c rest trees ⟨x, -, -, rfl⟩
    exact ⟨_, rfl⟩
  · rintro c rest trees ⟨rfl, t, ⟨kind, text'⟩, ⟨hkind, htext⟩, rfl, -⟩
    obtain rfl : kind = .symbol := hkind
    obtain rfl : text = text' := by simpa using htext
    exact ⟨rfl, rfl⟩

theorem reads_unsignedFactor (hinner : ReadsPhrase inner limit .expression) :
    ReadsPhrase (unsignedFactor inner) (limit + 1) .unsignedFactor := by
  have hzero : Begins .unsignedFactor [] := begins_of_zero (.number rfl)
  intro a ha
  refine (reads_operand hzero _ a ha).bind (fun _ _ he => he) ?_
  rintro (_ | _) b hb
  · obtain ⟨hadv, -⟩ := hb
    refine ((reads_skip_symbol hzero "(" (limit + 1)).after hadv ha).bind (fun _ _ he => he) ?_
    rintro (_ | _) d hd
    · exact hd
    · obtain ⟨c, _, h, hne, hc, rfl⟩ := hd
      have hless := h.length_lt hne
      refine hinner.require_then (begins_of_zero phrase_zero) h (by omega)
        (fun p _ hp => by simpa [hc] using hp.parentheses) ?_
      rintro c' _ d' h' ⟨t, rfl, ht, -⟩ hless'
      refine (reads_skip_symbol (V := (· = [])) rfl ")" (limit + 1)).require_then rfl h' (by omega)
        (fun p _ hp => by simpa [hc, hp] using ht.begins.parentheses) ?_
      rintro c'' _ d'' h'' ⟨hc'', rfl⟩ -
      refine ⟨_, _, h'', by simp [hne], t, rfl, ?_, trivial⟩
      simpa [hc, hc''] using ht.parentheses
  · exact hb

theorem reads_factor (hinner : ReadsPhrase inner limit .expression) :
    ReadsPhrase (factor inner) (limit + 1) .factor := by
  have hoperand := reads_unsignedFactor hinner
  have hsub : ∀ us t, Phrase .unsignedFactor us t → Phrase .factor us t := fun _ _ => .unsigned
  have hzero : Begins .factor [] := begins_of_zero (.unsigned (.number rfl))
  intro a ha
  refine (meets_symbols hzero (by decide : additive ≠ []) a).bind (fun _ _ he => he) ?_
  rintro (_ | _) b hb
  · obtain ⟨hadv, -⟩ := hb
    refine (hoperand.after hadv ha).bind (fun e _ he => ?_) ?_
    · exact he.shift (.refl a) fun p _ hp => hp.mono hsub
    · rintro (_ | _) d hd
      · exact hd
      · obtain ⟨c, _, h, hne, t, rfl, ht, -⟩ := hd
        exact ⟨c, _, h, hne, t, rfl, .unsigned ht, trivial⟩
  · obtain ⟨o, l, ho, hadv⟩ := hb
    have hless := hadv.length_lt (by simp)
    refine (hoperand b (by omega)).bind (fun e _ he => he.shift hadv fun p _ hp => ?_) ?_
    · exact hp.behind (by simp) fun vs t ht => ⟨_, .signed ho ht⟩
    · rintro (_ | _) d hd
      · obtain ⟨h, hpeeked⟩ := hd
        refine meets_bind.2 (meets_fail.2 ?_)
        refine (strays_of_peeked hpeeked (V := Begins .unsignedFactor) ?_ _ _).shift
          (hadv.trans h) fun p _ hp => ?_
        · exact begins_of_zero (.number rfl)
        · exact hp.behind (by simp) fun vs t ht => ⟨_, .signed ho ht⟩
      · obtain ⟨c, _, h, -, t, rfl, ht, -⟩ := hd
        have h' := hadv.trans h
        have hstack : d.stack = t :: .leaf o :: a.stack := by simpa using h'.stack
        refine meets_bind.2 (meets_of_ok (combine_one hstack) ?_)
        exact ⟨_, [.node o [t]], h'.withStack rfl, by simp, _, rfl, .signed ho ht, trivial⟩

/-! ## Tying the knot -/

theorem reads_term (hinner : ReadsPhrase inner limit .expression) :
    ReadsPhrase (term inner limit) (limit + 1) .term := by
  have hlinks : Links .term .factor multiplicative :=
    ⟨by decide, begins_of_zero (.unsigned (.number rfl)), .product, fun _ h => h⟩
  rw [term, multiplyOperator_eq]
  exact reads_chain hlinks (reads_factor hinner) ((reads_factor hinner).of_le (Nat.le_succ _))
    (fun _ _ => .factor) fun _ h => h

theorem reads_unsignedTerm (hinner : ReadsPhrase inner limit .expression) :
    ReadsPhrase (unsignedTerm inner limit) (limit + 1) .unsignedTerm := by
  have hlinks : Links .unsignedTerm .unsignedFactor multiplicative :=
    ⟨by decide, begins_of_zero (.number rfl), .unsignedProduct, fun _ h => h⟩
  rw [unsignedTerm, multiplyOperator_eq]
  exact reads_chain hlinks (reads_unsignedFactor hinner)
    ((reads_unsignedFactor hinner).of_le (Nat.le_succ _)) (fun _ _ => .unsignedFactor) fun _ h => h

theorem reads_sum (hinner : ReadsPhrase inner limit .expression) :
    ReadsPhrase (sum inner limit) (limit + 1) .expression := by
  have hstops : ∀ rest, Clear multiplicative rest → Clear additive rest → Clear operators rest := by
    intro rest hmul hadd x hx
    refine ⟨(hmul x hx).1, fun hop => ?_⟩
    rcases List.mem_append.1 hop.2 with hmem | hmem
    · exact (hadd x hx).2 ⟨hop.1, hmem⟩
    · exact (hmul x hx).2 ⟨hop.1, hmem⟩
  have hlinks : Links .expression .unsignedTerm additive :=
    ⟨by decide, begins_of_zero (.unsignedFactor (.number rfl)), .sum, hstops _⟩
  rw [sum, addOperator_eq]
  exact reads_chain hlinks (reads_term hinner)
    ((reads_unsignedTerm hinner).of_le (Nat.le_succ _)) (fun _ _ => .term) fun _ h => h

end Layers

/-- The rule of expressions reads expressions. -/
theorem reads_expressionAt (limit : Nat) : ReadsPhrase (expressionAt limit) limit .expression := by
  induction limit with
  | zero =>
    intro a ha
    omega
  | succ limit ih => exact reads_sum ih

end Step

end Logo
