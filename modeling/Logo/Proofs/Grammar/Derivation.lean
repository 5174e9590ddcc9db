import Logo.Grammar.Program
import Mathlib.Tactic.Common

/-!
# The grammar as a relation

What a sequence of tokens has to look like to be a script, said without the rules that read it.

Expressions are an ordinary context-free grammar on whole spans of tokens: `Phrase n ts t` says that
`ts` derives from the layer `n` with the tree `t`.  Commands cannot be given that way, because
nothing separates the operands of `color`, `jump` and `do`: in `do f a - b` the span `a - b` is one
operand, although `a` and `- b` derive too.  So a command is derived in front of what follows it,
and each expression in it takes the longest span that it can (`LongestExpression`).

* `Derives c ts rest us`: `ts` begins with the category `c`, whose trees are `us`, and goes on
  with `rest`.
* `Program ts t`: the whole of `ts` is a script with the tree `t`.
-/

namespace Logo

/-- The tokens of a script, without their lines. -/
def sourceTokens (source : String) : List Token :=
  (tokenize Vocabulary.keywords source).map Prod.fst

/-- A symbol token. -/
def Token.symbol (text : String) : Token := ⟨.symbol, text⟩

/-- A line end. -/
def Token.lineEnd : Token := ⟨.eol, "\n"⟩

namespace Grammar

/-! ## Tokens -/

/-- Whether a token is a symbol with one of the given texts. -/
def IsSymbol (texts : List String) (t : Token) : Prop := t.kind = .symbol ∧ t.text ∈ texts

instance (texts : List String) (t : Token) : Decidable (IsSymbol texts t) :=
  inferInstanceAs (Decidable (_ ∧ _))

lemma IsSymbol.mono {texts more : List String} {x : Token} (h : IsSymbol texts x)
    (hsub : texts ⊆ more) : IsSymbol more x := ⟨h.1, hsub h.2⟩

/-- The operators of sums, which are also the signs. -/
def additive : List String := ["+", "-"]

/-- The operators of products. -/
def multiplicative : List String := ["*", "/"]

/-- The operators of conditions. -/
def comparators : List String := ["<", "=", ">"]

/-! ## Expressions -/

/-- The spans that derive from the layers of expressions, with their trees.  A repetition such as
`term ((+|-) unsigned_term)*` is read from its end, so that its tree leans to the left. -/
inductive Phrase : Nonterminal → List Token → Tree Token → Prop where
  | name {x : Token} (hx : x.kind = .name) : Phrase .unsignedFactor [x] (.leaf x)
  | number {x : Token} (hx : x.kind = .number) : Phrase .unsignedFactor [x] (.leaf x)
  | coordinate {word : String} (hw : word ∈ ["getX", "getY"]) :
      Phrase .unsignedFactor [.keyword word] (.leaf (.keyword word))
  | parentheses {ts : List Token} {t : Tree Token} (ht : Phrase .expression ts t) :
      Phrase .unsignedFactor (.symbol "(" :: (ts ++ [.symbol ")"])) t
  | unsigned {ts : List Token} {t : Tree Token} (ht : Phrase .unsignedFactor ts t) :
      Phrase .factor ts t
  | signed {o : Token} {ts : List Token} {t : Tree Token} (ho : IsSymbol additive o)
      (ht : Phrase .unsignedFactor ts t) : Phrase .factor (o :: ts) (.node o [t])
  | factor {ts : List Token} {t : Tree Token} (ht : Phrase .factor ts t) : Phrase .term ts t
  | product {us vs : List Token} {o : Token} {l r : Tree Token} (hl : Phrase .term us l)
      (ho : IsSymbol multiplicative o) (hr : Phrase .factor vs r) :
      Phrase .term (us ++ o :: vs) (.node o [l, r])
  | unsignedFactor {ts : List Token} {t : Tree Token} (ht : Phrase .unsignedFactor ts t) :
      Phrase .unsignedTerm ts t
  | unsignedProduct {us vs : List Token} {o : Token} {l r : Tree Token}
      (hl : Phrase .unsignedTerm us l) (ho : IsSymbol multiplicative o)
      (hr : Phrase .unsignedFactor vs r) :
      Phrase .unsignedTerm (us ++ o :: vs) (.node o [l, r])
  | term {ts : List Token} {t : Tree Token} (ht : Phrase .term ts t) : Phrase .expression ts t
  | sum {us vs : List Token} {o : Token} {l r : Tree Token} (hl : Phrase .expression us l)
      (ho : IsSymbol additive o) (hr : Phrase .unsignedTerm vs r) :
      Phrase .expression (us ++ o :: vs) (.node o [l, r])

/-- The tokens `ts` begin with an expression, and `rest` is what the longest such span leaves. -/
def LongestExpression (ts rest : List Token) (t : Tree Token) : Prop :=
  ∃ us, ts = us ++ rest ∧ Phrase .expression us t ∧
    ∀ vs ws u, ts = vs ++ ws → Phrase .expression vs u → vs.length ≤ us.length

/-- A comparison of two expressions. -/
inductive Condition : List Token → List Token → Tree Token → Prop where
  | comparison {ts mid rest : List Token} {o : Token} {l r : Tree Token}
      (hl : LongestExpression ts (o :: mid) l) (ho : IsSymbol comparators o)
      (hr : LongestExpression mid rest r) : Condition ts rest (.node o [l, r])

/-! ## Lines and repetitions -/

/-- One or more line ends. -/
def LineEnd (ts rest : List Token) : Prop :=
  ∃ es, es ≠ [] ∧ (∀ e ∈ es, e.kind = .eol) ∧ ts = es ++ rest

/-- Zero or more phrases in a row. -/
inductive Sequence (P : List Token → List Token → Tree Token → Prop) :
    List Token → List Token → List (Tree Token) → Prop where
  | nil {ts : List Token} : Sequence P ts ts []
  | cons {ts mid rest : List Token} {t : Tree Token} {us : List (Tree Token)} (ht : P ts mid t)
      (hus : Sequence P mid rest us) : Sequence P ts rest (t :: us)

/-! ## Commands and blocks -/

/-- The categories whose derivations contain each other. -/
inductive Category where
  /-- One command. -/
  | command
  /-- Zero or more commands. -/
  | commands
  /-- Commands in braces. -/
  | block
  deriving DecidableEq

/-- The words of moves. -/
def moveWords : List String := ["forward", "right", "left", "face"]

/-- The words that are commands by themselves. -/
def bareWords : List String := ["penup", "pendown", "home"]

/-- The node that the name of a color stands for. -/
def colorNode (rgb : Rgb) : Tree Token :=
  .node (.keyword "color") (rgb.components.map fun c => .leaf (.number (toString c.toNat)))

/-- The tokens `ts` begin with a category, whose trees are `us`, and go on with `rest`. -/
inductive Derives : Category → List Token → List Token → List (Tree Token) → Prop where
  | move {word : String} {ts mid rest : List Token} {t : Tree Token} (hw : word ∈ moveWords)
      (ht : LongestExpression ts mid t) (hend : LineEnd mid rest) :
      Derives .command (.keyword word :: ts) rest [.node (.keyword word) [t]]
  | namedColor {word : String} {rgb : Rgb} {ts rest : List Token} (hw : (word, rgb) ∈ Rgb.named)
      (hend : LineEnd ts rest) : Derives .command (.keyword word :: ts) rest [colorNode rgb]
  | color {ts mid₁ mid₂ mid₃ rest : List Token} {r g b : Tree Token}
      (hr : LongestExpression ts mid₁ r) (hg : LongestExpression mid₁ mid₂ g)
      (hb : LongestExpression mid₂ mid₃ b) (hend : LineEnd mid₃ rest) :
      Derives .command (.keyword "color" :: ts) rest [.node (.keyword "color") [r, g, b]]
  | bare {word : String} {ts rest : List Token} (hw : word ∈ bareWords) (hend : LineEnd ts rest) :
      Derives .command (.keyword word :: ts) rest [.leaf (.keyword word)]
  | jump {ts mid₁ mid₂ rest : List Token} {x y : Tree Token} (hx : LongestExpression ts mid₁ x)
      (hy : LongestExpression mid₁ mid₂ y) (hend : LineEnd mid₂ rest) :
      Derives .command (.keyword "jump" :: ts) rest [.node (.keyword "jump") [x, y]]
  | assignment {x : Token} {ts mid rest : List Token} {t : Tree Token} (hx : x.kind = .name)
      (ht : LongestExpression ts mid t) (hend : LineEnd mid rest) :
      Derives .command (.keyword "set" :: x :: ts) rest [.node (.keyword "set") [.leaf x, t]]
  | repetition {ts mid rest : List Token} {t b : Tree Token} (ht : LongestExpression ts mid t)
      (hb : Derives .block mid rest [b]) :
      Derives .command (.keyword "repeat" :: ts) rest [.node (.keyword "repeat") [t, b]]
  | whileLoop {ts mid rest : List Token} {t b : Tree Token} (ht : Condition ts mid t)
      (hb : Derives .block mid rest [b]) :
      Derives .command (.keyword "while" :: ts) rest [.node (.keyword "while") [t, b]]
  | choice {ts mid rest : List Token} {t b : Tree Token} (ht : Condition ts mid t)
      (hb : Derives .block mid rest [b]) :
      Derives .command (.keyword "if" :: ts) rest [.node (.keyword "if") [t, b]]
  | choiceElse {ts mid₁ mid₂ rest : List Token} {t b c : Tree Token} (ht : Condition ts mid₁ t)
      (hb : Derives .block mid₁ (.keyword "else" :: mid₂) [b]) (hc : Derives .block mid₂ rest [c]) :
      Derives .command (.keyword "if" :: ts) rest [.node (.keyword "if") [t, b, c]]
  | call {x : Token} {ts mid rest : List Token} {us : List (Tree Token)} (hx : x.kind = .name)
      (hus : Sequence LongestExpression ts mid us) (hend : LineEnd mid rest) :
      Derives .command (.keyword "do" :: x :: ts) rest
        [.node (.keyword "do") [.leaf x, .node (.keyword "list") us]]
  | none {ts : List Token} : Derives .commands ts ts []
  | more {ts mid rest : List Token} {c : Tree Token} {cs : List (Tree Token)}
      (hc : Derives .command ts mid [c]) (hcs : Derives .commands mid rest cs) :
      Derives .commands ts rest (c :: cs)
  | braces {ts mid after rest : List Token} {cs : List (Tree Token)} (hopen : LineEnd ts mid)
      (hcs : Derives .commands mid (.symbol "\x7d" :: after) cs) (hclose : LineEnd after rest) :
      Derives .block (.symbol "\x7b" :: ts) rest [.node (.keyword "block") cs]

/-! ## Procedures and programs -/

/-- A definition: `def`, the name, the parameters, and a block. -/
inductive Definition : List Token → List Token → Tree Token → Prop where
  | definition {x : Token} {xs mid rest : List Token} {b : Tree Token} (hx : x.kind = .name)
      (hxs : ∀ y ∈ xs, y.kind = .name) (hb : Derives .block mid rest [b]) :
      Definition (.keyword "def" :: x :: (xs ++ mid)) rest
        (.node (.keyword "def")
          [.node (.keyword "header") [.leaf x, .node (.keyword "list") (xs.map .leaf)], b])

/-- A script: line ends if there are any, one command or more, and definitions. -/
inductive Program : List Token → Tree Token → Prop where
  | script {ts start mid : List Token} {c : Tree Token} {cs ds : List (Tree Token)}
      (hstart : ts = start ∨ LineEnd ts start) (hcs : Derives .commands start mid (c :: cs))
      (hds : Sequence Definition mid [] ds) :
      Program ts
        (.node (.keyword "program")
          [.node (.keyword "block") (c :: cs), .node (.keyword "list") ds])

/-! ## How far an expression extends

A token decides whether an expression goes on behind it.  `Scan` follows the two things that count:
how many parentheses are open, and whether an operand has just been completed. -/

/-- The texts of all operators. -/
def operators : List String := additive ++ multiplicative

/-- Whether a token may stand for an operand, as far as its kind tells. -/
def IsOperand (x : Token) : Prop := x.kind = .name ∨ x.kind = .number ∨ x.kind = .keyword

instance (x : Token) : Decidable (IsOperand x) := inferInstanceAs (Decidable (_ ∨ _))

/-- The number of open parentheses, and whether an operand has just been completed. -/
abbrev Scan : Type := Nat × Bool

namespace Scan

/-- What a token does inside an expression, if it may stand there at all. -/
def next? : Scan → Token → Option Scan
  | (depth, false), x =>
    if x = .symbol "(" then some (depth + 1, false)
    else if IsSymbol additive x then some (depth, false)
    else if IsOperand x then some (depth, true)
    else none
  | (depth, true), x =>
    if IsSymbol operators x then some (depth, false)
    else if x = .symbol ")" ∧ 0 < depth then some (depth - 1, true)
    else none

/-- What a row of tokens does inside an expression. -/
def through? (s : Scan) (ts : List Token) : Option Scan := ts.foldlM next? s

lemma through?_append (s : Scan) (ts us : List Token) :
    s.through? (ts ++ us) = (s.through? ts).bind fun s' => s'.through? us := by
  simp [through?, List.foldlM_append, Option.bind_eq_bind]

lemma through?_cons (s : Scan) (x : Token) (ts : List Token) :
    s.through? (x :: ts) = (s.next? x).bind fun s' => s'.through? ts := by
  simp [through?, Option.bind_eq_bind]

@[simp] lemma through?_nil (s : Scan) : s.through? [] = some s := rfl

variable {x : Token} {depth : Nat}

lemma next?_operand (hx : IsOperand x) : next? (depth, false) x = some (depth, true) := by
  have hopen : x ≠ .symbol "(" := by
    rintro rfl
    revert hx
    decide
  have hsign : ¬ IsSymbol additive x := by
    rintro ⟨hk, -⟩
    simp [IsOperand, hk] at hx
  simp [next?, hopen, hsign, hx]

lemma next?_sign (hx : IsSymbol additive x) : next? (depth, false) x = some (depth, false) := by
  have hopen : x ≠ .symbol "(" := by
    rintro rfl
    revert hx
    decide
  simp [next?, hopen, hx]

lemma next?_operator (hx : IsSymbol operators x) :
    next? (depth, true) x = some (depth, false) := by
  simp [next?, hx]

/-- Outside all parentheses only an operator goes on behind an operand. -/
lemma isSymbol_of_next? {s : Scan} (h : next? (0, true) x = some s) : IsSymbol operators x := by
  by_contra hx
  simp [next?, hx] at h

end Scan

namespace Phrase

variable {n m : Nonterminal} {us ts : List Token} {t u : Tree Token}

/-- An operator with its operands on both sides, seen as a row of tokens. -/
private lemma through?_infix {us vs : List Token} {o : Token} (depth : Nat)
    (hl : Scan.through? (depth, false) us = some (depth, true)) (ho : IsSymbol operators o)
    (hr : Scan.through? (depth, false) vs = some (depth, true)) :
    Scan.through? (depth, false) (us ++ o :: vs) = some (depth, true) := by
  rw [Scan.through?_append, hl, Option.bind_some, Scan.through?_cons, Scan.next?_operator ho,
    Option.bind_some, hr]

/-- Behind a phrase an operand is complete, and the same parentheses are open as before it. -/
theorem through?_eq (h : Phrase n ts t) (depth : Nat) :
    Scan.through? (depth, false) ts = some (depth, true) := by
  induction h generalizing depth with
  | name hx => rw [Scan.through?_cons, Scan.next?_operand (.inl hx)]; rfl
  | number hx => rw [Scan.through?_cons, Scan.next?_operand (.inr (.inl hx))]; rfl
  | coordinate hw => rw [Scan.through?_cons, Scan.next?_operand (.inr (.inr rfl))]; rfl
  | parentheses _ ih =>
    have hopen : Scan.next? (depth, false) (.symbol "(") = some (depth + 1, false) := by
      simp [Scan.next?]
    have hclose : Scan.next? (depth + 1, true) (.symbol ")") = some (depth, true) := by
      simp [Scan.next?, IsSymbol, operators, additive, multiplicative, Token.symbol]
    rw [Scan.through?_cons, hopen, Option.bind_some, Scan.through?_append, ih (depth + 1),
      Option.bind_some, Scan.through?_cons, hclose]
    rfl
  | unsigned _ ih | factor _ ih | unsignedFactor _ ih | term _ ih => exact ih depth
  | signed ho _ ih => rw [Scan.through?_cons, Scan.next?_sign ho, Option.bind_some, ih depth]
  | product _ ho _ ihl ihr | unsignedProduct _ ho _ ihl ihr =>
    exact through?_infix depth (ihl depth) (ho.mono (List.subset_append_right _ _)) (ihr depth)
  | sum _ ho _ ihl ihr =>
    exact through?_infix depth (ihl depth) (ho.mono (List.subset_append_left _ _)) (ihr depth)

theorem ne_nil (h : Phrase n ts t) : ts ≠ [] := by
  rintro rfl
  have hscan := h.through?_eq 0
  simp at hscan

/-- A longer phrase goes on with an operator. -/
theorem isSymbol_of_append {x : Token} {ws : List Token} (h : Phrase n us t)
    (hlong : Phrase m (us ++ x :: ws) u) : IsSymbol operators x := by
  have hscan := hlong.through?_eq 0
  rw [Scan.through?_append, h.through?_eq 0, Option.bind_some, Scan.through?_cons] at hscan
  obtain ⟨s, hs, -⟩ := Option.bind_eq_some_iff.1 hscan
  exact Scan.isSymbol_of_next? hs

/-- A phrase begins with an opening parenthesis, a sign or an operand. -/
theorem head {x : Token} (h : Phrase n (x :: ts) t) :
    x = .symbol "(" ∨ IsSymbol additive x ∨ IsOperand x := by
  have hscan := h.through?_eq 0
  rw [Scan.through?_cons] at hscan
  obtain ⟨s, hs, -⟩ := Option.bind_eq_some_iff.1 hscan
  by_contra hnot
  simp only [not_or] at hnot
  simp [Scan.next?, hnot] at hs

/-- Behind a sign there is an operand without one. -/
theorem exists_of_sign {o : Token} (h : Phrase n (o :: ts) t) (ho : IsSymbol additive o) :
    ∃ vs ws v, ts = vs ++ ws ∧ Phrase .unsignedFactor vs v := by
  generalize hts : o :: ts = os at h
  induction h generalizing ts with
  | name hx | number hx =>
    cases hts
    simp [IsSymbol, hx] at ho
  | coordinate hw =>
    cases hts
    simp [IsSymbol, Token.keyword] at ho
  | parentheses _ _ =>
    cases hts
    simp [IsSymbol, Token.symbol, additive] at ho
  | unsigned _ ih | factor _ ih | unsignedFactor _ ih | term _ ih => exact ih hts
  | signed _ ht _ =>
    cases hts
    exact ⟨_, [], _, (List.append_nil _).symm, ht⟩
  | product hl _ _ ihl _ | unsignedProduct hl _ _ ihl _ | sum hl _ _ ihl _ =>
    rcases List.cons_eq_append_iff.1 hts with ⟨hnil, -⟩ | ⟨us, hus, hws⟩
    · exact absurd hnil hl.ne_nil
    · obtain ⟨vs, ws, v, rfl, hv⟩ := ihl hus.symm
      exact ⟨vs, _, v, by rw [hws, List.append_assoc], hv⟩

end Phrase

/-! ## What follows an expression -/

/-- Whether what follows neither goes on with one of the given operators nor is malformed. -/
def Clear (texts : List String) (rest : List Token) : Prop :=
  ∀ x ∈ rest.head?, x.kind ≠ .malformed ∧ ¬ IsSymbol texts x

lemma clear_cons {texts : List String} {x : Token} {rest : List Token} :
    Clear texts (x :: rest) ↔ x.kind ≠ .malformed ∧ ¬ IsSymbol texts x := by simp [Clear]

lemma Clear.mono {texts fewer : List String} {rest : List Token} (h : Clear texts rest)
    (hsub : fewer ⊆ texts) : Clear fewer rest :=
  fun x hx => ⟨(h x hx).1, fun hs => (h x hx).2 (hs.mono hsub)⟩

lemma clear_of_kind {texts : List String} {x : Token} {rest : List Token}
    (hm : x.kind ≠ .malformed) (hs : x.kind ≠ .symbol) : Clear texts (x :: rest) :=
  clear_cons.2 ⟨hm, fun h => hs h.1⟩

/-- An expression in front of something that is no operator is the longest one. -/
theorem Phrase.longest {us rest : List Token} {t : Tree Token} (h : Phrase .expression us t)
    (hclear : Clear operators rest) : LongestExpression (us ++ rest) rest t := by
  refine ⟨us, rfl, h, fun vs ws u heq hu => ?_⟩
  by_contra hlong
  rcases List.append_eq_append_iff.1 heq with ⟨as, hvs, hrest⟩ | ⟨bs, hus, -⟩
  · cases as with
    | nil => simp [hvs] at hlong
    | cons x as =>
      subst hvs
      have hx := h.isSymbol_of_append hu
      rw [hrest, List.cons_append, clear_cons] at hclear
      exact hclear.2 hx
  · simp [hus] at hlong

/-- A longest expression is not followed by an operator if it is followed by another expression:
that would have to begin with a sign, and the sign with its operand would have been taken. -/
theorem LongestExpression.clear {ts mid rest : List Token} {t u : Tree Token}
    (h : LongestExpression ts mid t) (hnext : LongestExpression mid rest u) :
    Clear operators mid := by
  obtain ⟨us, rfl, hus, hlongest⟩ := h
  obtain ⟨vs, rfl, hvs, -⟩ := hnext
  obtain ⟨x, vs, rfl⟩ := List.exists_cons_of_ne_nil hvs.ne_nil
  rw [List.cons_append, clear_cons]
  by_cases hsign : IsSymbol additive x
  · obtain ⟨ws, ws', w, rfl, hw⟩ := hvs.exists_of_sign hsign
    have hlong := hlongest (us ++ x :: ws) (ws' ++ rest) _ (by simp)
      (hus.sum hsign (.unsignedFactor hw))
    simp only [List.length_append, List.length_cons] at hlong
    omega
  · rcases hvs.head with rfl | hx | hx
    · decide
    · exact absurd hx hsign
    · rcases hx with hx | hx | hx <;> simp [IsSymbol, hx]

lemma LineEnd.clear {texts : List String} {ts rest : List Token} (h : LineEnd ts rest) :
    Clear texts ts := by
  obtain ⟨es, hne, hes, rfl⟩ := h
  obtain ⟨e, es, rfl⟩ := List.exists_cons_of_ne_nil hne
  have he := hes e (by simp)
  exact clear_of_kind (by simp [he]) (by simp [he])

lemma comparator_clear {o : Token} (ho : IsSymbol comparators o) (rest : List Token) :
    Clear operators (o :: rest) := by
  refine clear_cons.2 ⟨by simp [ho.1], fun hop => ?_⟩
  have hdisjoint : ∀ text ∈ comparators, text ∉ operators := by decide
  exact hdisjoint _ ho.2 hop.2

end Grammar

end Logo
