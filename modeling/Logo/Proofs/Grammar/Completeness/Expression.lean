import Logo.Proofs.Grammar.Derivation
import Logo.Proofs.Grammar.Yielding

/-!
# The rules of expressions find every phrase

A phrase in front of something that is no operator is read completely, and its tree is the one that
it derives with (`yields_expressionAt`).

The trees of chains lean to the left, so a phrase `l o r` of a chain is not what the loop sees
first: it begins with `first` and arrives at `l` after some turns.  `Arrives` says this of a phrase,
and an induction over the derivation proves it one turn at a time.
-/

namespace Logo

namespace Step

open Grammar

variable {ts us vs rest : List Token} {st : List (Tree Token)} {x o : Token}
variable {t l r : Tree Token}

/-! ## Single tokens -/

lemma yields_symbol (text : String) (ts : List Token) (st : List (Tree Token)) :
    Yields (symbol text) (.symbol text :: ts, st) true (ts, .leaf (.symbol text) :: st) :=
  yields_accept ⟨rfl, by simp [Token.symbol]⟩ (by decide)

lemma yields_keyword (word : String) (ts : List Token) (st : List (Tree Token)) :
    Yields (keyword word) (.keyword word :: ts, st) true (ts, .leaf (.keyword word) :: st) :=
  yields_accept ⟨rfl, by simp [Token.keyword]⟩ (by decide)

lemma yields_name (hx : x.kind = .name) (ts : List Token) (st : List (Tree Token)) :
    Yields name (x :: ts, st) true (ts, .leaf x :: st) :=
  yields_accept ⟨hx, rfl⟩ (by decide)

lemma misses_leaf {kind : TokenKind} {text? : Option String} (hkind : x.kind ≠ .malformed)
    (hx : ¬ Wanted kind text? x) : Misses (accept kind text?) (x :: ts) :=
  misses_accept fun y hy => by
    obtain rfl : x = y := by simpa using hy
    exact ⟨hkind, hx⟩

lemma misses_symbols {texts : List String} (h : Clear texts ts) :
    Misses (firstOf (texts.map symbol)) ts := by
  refine misses_firstOf fun R hR => ?_
  obtain ⟨text, htext, rfl⟩ := List.mem_map.1 hR
  refine misses_accept fun x hx => ⟨(h x hx).1, fun hw => (h x hx).2 ⟨hw.1, ?_⟩⟩
  have heq : text = x.text := by simpa using hw.2
  exact heq ▸ htext

/-- One of several tokens of a kind. -/
lemma yields_texts {kind : TokenKind} {texts : List String} (hx : x.kind = kind)
    (hkind : kind ≠ .malformed) (htext : x.text ∈ texts) (ts : List Token)
    (st : List (Tree Token)) :
    Yields (firstOf (texts.map fun text => accept kind (some text))) (x :: ts, st) true
      (ts, .leaf x :: st) := by
  induction texts with
  | nil => exact absurd htext List.not_mem_nil
  | cons text texts ih =>
    by_cases heq : text = x.text
    · exact (yields_accept ⟨hx, by simp [heq]⟩ hkind).bind (yields_pure true _)
    · have hmiss : Misses (accept kind (some text)) (x :: ts) :=
        misses_leaf (hx ▸ hkind) fun hw => heq (by simpa using hw.2)
      exact (hmiss st).bind (ih ((List.mem_cons.1 htext).resolve_left (Ne.symm heq)))

lemma yields_symbols {texts : List String} (hx : IsSymbol texts x) (ts : List Token)
    (st : List (Tree Token)) :
    Yields (firstOf (texts.map symbol)) (x :: ts, st) true (ts, .leaf x :: st) :=
  yields_texts hx.1 (by decide) hx.2 ts st

lemma yields_combine_operation (ts : List Token) (o : Token) (l r : Tree Token)
    (st : List (Tree Token)) :
    Yields (combine 2 [3, 1]) (ts, r :: .leaf o :: l :: st) () (ts, .node o [l, r] :: st) :=
  yields_of_stack fun _ h => combine_operation h

lemma yields_combine_one (ts : List Token) (o : Token) (t : Tree Token) (st : List (Tree Token)) :
    Yields (combine 2 [1]) (ts, t :: .leaf o :: st) () (ts, .node o [t] :: st) :=
  yields_of_stack fun _ h => combine_one h

/-! ## Chains -/

/-- The rule of a chain, in front of `us` and `rest`, comes to stand in front of `rest` with the
tree `t` on the stack, and goes on from there. -/
def Arrives (limit : Nat) (first operand : Rule) (texts : List String) (fault : Fault)
    (us rest : List Token) (t : Tree Token) : Prop :=
  ∀ st z,
    (∀ count limit', rest.length < limit' →
      ∃ m, Yields (countMatches (link (firstOf (texts.map symbol)) operand fault) count limit')
        (rest, t :: st) m z) →
    Yields (chain limit first (firstOf (texts.map symbol)) operand fault) (us ++ rest, st) true z

section Chain

variable {limit : Nat} {first operand : Rule} {texts : List String} {fault : Fault}

lemma arrives_first (hfirst : ∀ st, Yields first (us ++ rest, st) true (rest, t :: st))
    (hlimit : rest.length < limit) : Arrives limit first operand texts fault us rest t := by
  intro st z hloop
  obtain ⟨m, hm⟩ := hloop 0 limit hlimit
  exact (hfirst st).guard (hm.discard.bind (yields_pure true _))

/-- One more turn of the loop. -/
lemma Arrives.link (h : Arrives limit first operand texts fault us (o :: vs ++ rest) l)
    (ho : IsSymbol texts o)
    (hoperand : ∀ st, Yields operand (vs ++ rest, st) true (rest, r :: st)) :
    Arrives limit first operand texts fault (us ++ o :: vs) rest (.node o [l, r]) := by
  intro st z hloop
  rw [List.append_assoc]
  refine h st z fun count limit' hlimit' => ?_
  obtain ⟨limit', rfl⟩ : ∃ n, limit' = n + 1 :=
    Nat.exists_eq_succ_of_ne_zero (Nat.ne_of_gt (Nat.zero_lt_of_lt hlimit'))
  have hlength : rest.length < limit' := by
    simp only [List.length_append, List.length_cons] at hlimit'
    omega
  obtain ⟨m, hm⟩ := hloop (count + 1) limit' hlength
  refine ⟨m, yields_countMatches_next ?_ hm⟩
  exact (yields_symbols ho _ _).guard ((hoperand _).require.bind
    ((yields_combine_operation rest o l r st).bind (yields_pure true _)))

/-- The loop ends in front of a token that is no operator of the chain. -/
lemma Arrives.yields (h : Arrives limit first operand texts fault us rest t)
    (hclear : Clear texts rest) (st : List (Tree Token)) :
    Yields (chain limit first (firstOf (texts.map symbol)) operand fault) (us ++ rest, st) true
      (rest, t :: st) := by
  refine h st _ fun count limit' hlimit' => ⟨count, ?_⟩
  exact yields_countMatches_done (misses_symbols hclear).guard count (Nat.zero_lt_of_lt hlimit')

end Chain

/-! ## The layers -/

/-- What the rule of a layer does in front of a phrase.  A sum needs to be told that the phrase is
not followed by an operator of products, which would belong to its last term. -/
def Found (n : Nonterminal) (us : List Token) (t : Tree Token) : Prop :=
  ∀ limit rest, (us ++ rest).length < limit + 1 →
    match n with
    | .unsignedFactor =>
      ∀ st, Yields (unsignedFactor (expressionAt limit)) (us ++ rest, st) true (rest, t :: st)
    | .factor => ∀ st, Yields (factor (expressionAt limit)) (us ++ rest, st) true (rest, t :: st)
    | .term =>
      Arrives limit (factor (expressionAt limit)) (factor (expressionAt limit)) multiplicative
        .noMultiplier us rest t
    | .unsignedTerm =>
      Arrives limit (unsignedFactor (expressionAt limit)) (unsignedFactor (expressionAt limit))
        multiplicative .noMultiplier us rest t
    | .expression =>
      Clear multiplicative rest →
        Arrives limit (term (expressionAt limit) limit) (unsignedTerm (expressionAt limit) limit)
          additive .noSummand us rest t
    | _ => True

section Layers

/-- The rule of the tokens that are operands by themselves. -/
abbrev operandToken : Rule := firstOf [name, number, keyword "getX", keyword "getY"]

lemma yields_operand_number (hx : x.kind = .number) (ts : List Token) (st : List (Tree Token)) :
    Yields operandToken (x :: ts, st) true (ts, .leaf x :: st) := by
  refine yields_firstOf [name] (fun R hR => ?_)
    (yields_accept ⟨hx, rfl⟩ (by decide))
  obtain rfl := List.mem_singleton.1 hR
  exact misses_leaf (by simp [hx]) (by simp [Wanted, hx])

lemma yields_operand_coordinate {word : String} (hw : word ∈ ["getX", "getY"]) (ts : List Token)
    (st : List (Tree Token)) :
    Yields operandToken (.keyword word :: ts, st) true (ts, .leaf (.keyword word) :: st) := by
  have hbefore : ∀ R ∈ [name, number], Misses R (.keyword word :: ts) := by
    intro R hR
    simp only [List.mem_cons, List.not_mem_nil, or_false] at hR
    rcases hR with rfl | rfl <;>
      exact misses_leaf (by simp [Token.keyword]) (by simp [Wanted, Token.keyword])
  simp only [List.mem_cons, List.not_mem_nil, or_false] at hw
  rcases hw with rfl | rfl
  · exact yields_firstOf _ hbefore (yields_keyword _ ts st)
  · refine yields_firstOf [name, number, keyword "getX"] (fun R hR => ?_)
      (yields_keyword _ ts st)
    rcases List.mem_append.1 (show R ∈ [name, number] ++ [keyword "getX"] from hR) with hR | hR
    · exact hbefore R hR
    · obtain rfl := List.mem_singleton.1 hR
      exact misses_leaf (by decide) (by decide)

lemma misses_operand (hkind : x.kind = .symbol ∨ x.kind = .eol) : Misses operandToken (x :: ts) := by
  refine misses_firstOf fun R hR => ?_
  simp only [List.mem_cons, List.not_mem_nil, or_false] at hR
  rcases hkind with hkind | hkind <;> rcases hR with rfl | rfl | rfl | rfl <;>
    exact misses_leaf (by simp [hkind]) (by simp [Wanted, hkind])

lemma Found.expressionAt (h : Found .expression us t) {limit : Nat}
    (hlimit : (us ++ rest).length < limit) (hrest : Clear operators rest)
    (st : List (Tree Token)) :
    Yields (expressionAt limit) (us ++ rest, st) true (rest, t :: st) := by
  obtain ⟨limit, rfl⟩ := Nat.exists_eq_succ_of_ne_zero (Nat.ne_of_gt (Nat.zero_lt_of_lt hlimit))
  have harrives := h limit rest hlimit (hrest.mono (List.subset_append_right _ _))
  exact harrives.yields (hrest.mono (List.subset_append_left _ _)) st

lemma found_parentheses (h : Found .expression us t) :
    Found .unsignedFactor (.symbol "(" :: (us ++ [.symbol ")"])) t := by
  intro limit rest hlimit st
  simp only [List.cons_append, List.append_assoc, List.nil_append, List.length_cons] at hlimit ⊢
  have hclear : Clear operators (.symbol ")" :: rest) := clear_cons.2 (by decide)
  have hinner := h.expressionAt (Nat.lt_of_succ_lt_succ hlimit) hclear st
  have hmiss : Misses operandToken (.symbol "(" :: (us ++ .symbol ")" :: rest)) :=
    misses_operand (.inl rfl)
  refine (hmiss st).bind (Yields.guard (yields_symbol "(" _ st).skip ?_)
  exact hinner.require.bind ((yields_symbol ")" rest _).skip.require.bind (yields_pure true _))

/-- The layer of factors, in front of a phrase without a sign and of one with a sign. -/
lemma found_unsigned (hphrase : Phrase .unsignedFactor us t) (h : Found .unsignedFactor us t) :
    Found .factor us t := by
  intro limit rest hlimit st
  have hclear : Clear additive (us ++ rest) := by
    cases hphrase with
    | name hx => exact clear_of_kind (by simp [hx]) (by simp [hx])
    | number hx => exact clear_of_kind (by simp [hx]) (by simp [hx])
    | coordinate hw => exact clear_of_kind (by simp [Token.keyword]) (by simp [Token.keyword])
    | parentheses => exact clear_cons.2 (by decide)
  exact (misses_symbols hclear st).bind ((h limit rest hlimit st).bind (yields_pure true _))

lemma found_signed (ho : IsSymbol additive o) (h : Found .unsignedFactor us t) :
    Found .factor (o :: us) (.node o [t]) := by
  intro limit rest hlimit st
  have hlength : (us ++ rest).length < limit + 1 := Nat.lt_of_succ_lt hlimit
  exact (yields_symbols ho _ st).bind ((h limit rest hlength _).bind
    ((yields_combine_one rest o t st).bind (yields_pure true _)))

end Layers

lemma length_rest_lt {limit : Nat} (hne : us ≠ []) (h : (us ++ rest).length < limit + 1) :
    rest.length < limit := by
  have hpos := List.length_pos_iff.2 hne
  rw [List.length_append] at h
  omega

lemma length_operand_lt {limit : Nat} (h : (us ++ o :: vs ++ rest).length < limit + 1) :
    (us ++ (o :: vs ++ rest)).length < limit + 1 ∧ (vs ++ rest).length < limit + 1 := by
  simp only [List.length_append, List.length_cons] at h ⊢
  omega

lemma clear_multiplicative (ho : IsSymbol additive o) (ts : List Token) :
    Clear multiplicative (o :: ts) := by
  refine clear_cons.2 ⟨by simp [ho.1], fun hmul => ?_⟩
  have hdisjoint : ∀ text ∈ additive, text ∉ multiplicative := by decide
  exact hdisjoint _ ho.2 hmul.2

/-- The rule of each layer does its part in front of a phrase of the layer. -/
theorem found {n : Nonterminal} (h : Phrase n us t) : Found n us t := by
  induction h with
  | name hx =>
    intro limit rest _ st
    exact (yields_firstOf [] (by simp) (yields_name hx rest st)).bind
      (yields_pure true _)
  | number hx =>
    intro limit rest _ st
    exact (yields_operand_number hx rest st).bind (yields_pure true _)
  | coordinate hw =>
    intro limit rest _ st
    exact (yields_operand_coordinate hw rest st).bind (yields_pure true _)
  | parentheses _ ih => exact found_parentheses ih
  | unsigned ht ih => exact found_unsigned ht ih
  | signed ho _ ih => exact found_signed ho ih
  | factor ht ih | unsignedFactor ht ih =>
    intro limit rest hlimit
    exact arrives_first (ih limit rest hlimit) (length_rest_lt ht.ne_nil hlimit)
  | product _ ho _ ihl ihr | unsignedProduct _ ho _ ihl ihr =>
    intro limit rest hlimit
    obtain ⟨hwhole, hoperand⟩ := length_operand_lt hlimit
    exact (ihl limit _ hwhole).link ho (ihr limit rest hoperand)
  | term ht ih =>
    intro limit rest hlimit hrest
    exact arrives_first (fun st => (ih limit rest hlimit).yields hrest st)
      (length_rest_lt ht.ne_nil hlimit)
  | sum _ ho _ ihl ihr =>
    intro limit rest hlimit hrest
    obtain ⟨hwhole, hoperand⟩ := length_operand_lt hlimit
    exact (ihl limit _ hwhole (clear_multiplicative ho _)).link ho
      fun st => (ihr limit rest hoperand).yields hrest st

/-- An expression in front of something that is no operator is read completely. -/
theorem yields_expressionAt (h : Phrase .expression us t) {limit : Nat}
    (hlimit : (us ++ rest).length < limit) (hrest : Clear operators rest)
    (st : List (Tree Token)) :
    Yields (expressionAt limit) (us ++ rest, st) true (rest, t :: st) :=
  (found h).expressionAt hlimit hrest st

/-- No expression begins with a line end. -/
theorem misses_expressionAt (hx : x.kind = .eol) (limit : Nat) :
    Misses (expressionAt limit) (x :: ts) := by
  have hsymbols (texts : List String) : Misses (firstOf (texts.map symbol)) (x :: ts) :=
    misses_symbols (clear_of_kind (by simp [hx]) (by simp [hx]))
  have hparenthesis : Misses (symbol "(") (x :: ts) :=
    misses_leaf (by simp [hx]) (by simp [Wanted, hx])
  cases limit with
  | zero => exact fun st => yields_pure false _
  | succ limit =>
    have hoperand (inner : Rule) : Misses (unsignedFactor inner) (x :: ts) := fun st =>
      (misses_operand (.inr hx) st).bind (hparenthesis.skip.guard st)
    have hfactor (inner : Rule) : Misses (factor inner) (x :: ts) := fun st =>
      (hsymbols additive st).bind ((hoperand inner st).bind (yields_pure false _))
    exact Misses.guard (Misses.guard (hfactor _))

end Step

end Logo
