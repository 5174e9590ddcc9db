import Logo.Proofs.Grammar.Derivation

/-!
# The shape of scripts

What can be said of the tree of a derivation without the tokens it was built from.  `Shaped p t` says
that `t` has the shape of a part `p` of a script: which words stand at its nodes, how many children
they have, and of which parts those are.  Whoever takes a script apart needs no more of the grammar.

* `Phrase.shaped`, `Derives.shaped`, `Definition.shaped`: one induction for each level of the grammar.
* `Program.shaped`: the tree of a script has the shape of one.
-/

namespace Logo

namespace Grammar

/-! ## Shapes -/

/-- The parts of scripts. -/
inductive Part where
  /-- Something that has a value. -/
  | expression
  /-- Something that holds or does not. -/
  | condition
  /-- Something that can be executed. -/
  | command
  /-- Commands in a row. -/
  | block
  /-- The definition of a procedure. -/
  | definition
  /-- The whole. -/
  | script
  deriving DecidableEq

/-- The trees that have the shape of a part. -/
inductive Shaped : Part → Tree Token → Prop where
  | name {x : Token} (hx : x.kind = .name) : Shaped .expression (.leaf x)
  | number {x : Token} (hx : x.kind = .number) : Shaped .expression (.leaf x)
  | coordinate {word : String} (hw : word ∈ ["getX", "getY"]) :
      Shaped .expression (.leaf (.keyword word))
  | sign {o : Token} {t : Tree Token} (ho : IsSymbol additive o) (ht : Shaped .expression t) :
      Shaped .expression (.node o [t])
  | operation {o : Token} {l r : Tree Token} (ho : IsSymbol operators o)
      (hl : Shaped .expression l) (hr : Shaped .expression r) : Shaped .expression (.node o [l, r])
  | comparison {o : Token} {l r : Tree Token} (ho : IsSymbol comparators o)
      (hl : Shaped .expression l) (hr : Shaped .expression r) : Shaped .condition (.node o [l, r])
  | move {word : String} {t : Tree Token} (hw : word ∈ moveWords) (ht : Shaped .expression t) :
      Shaped .command (.node (.keyword word) [t])
  | color {r g b : Tree Token} (hr : Shaped .expression r) (hg : Shaped .expression g)
      (hb : Shaped .expression b) : Shaped .command (.node (.keyword "color") [r, g, b])
  | bare {word : String} (hw : word ∈ bareWords) : Shaped .command (.leaf (.keyword word))
  | jump {x y : Tree Token} (hx : Shaped .expression x) (hy : Shaped .expression y) :
      Shaped .command (.node (.keyword "jump") [x, y])
  | assignment {x : Token} {t : Tree Token} (hx : x.kind = .name) (ht : Shaped .expression t) :
      Shaped .command (.node (.keyword "set") [.leaf x, t])
  | repetition {t b : Tree Token} (ht : Shaped .expression t) (hb : Shaped .block b) :
      Shaped .command (.node (.keyword "repeat") [t, b])
  | whileLoop {t b : Tree Token} (ht : Shaped .condition t) (hb : Shaped .block b) :
      Shaped .command (.node (.keyword "while") [t, b])
  | choice {t b : Tree Token} (ht : Shaped .condition t) (hb : Shaped .block b) :
      Shaped .command (.node (.keyword "if") [t, b])
  | choiceElse {t b c : Tree Token} (ht : Shaped .condition t) (hb : Shaped .block b)
      (hc : Shaped .block c) : Shaped .command (.node (.keyword "if") [t, b, c])
  | call {x : Token} {ts : List (Tree Token)} (hx : x.kind = .name)
      (hts : ∀ t ∈ ts, Shaped .expression t) :
      Shaped .command (.node (.keyword "do") [.leaf x, .node (.keyword "list") ts])
  | block {cs : List (Tree Token)} (hcs : ∀ c ∈ cs, Shaped .command c) :
      Shaped .block (.node (.keyword "block") cs)
  | definition {x : Token} {xs : List Token} {b : Tree Token} (hx : x.kind = .name)
      (hxs : ∀ y ∈ xs, y.kind = .name) (hb : Shaped .block b) :
      Shaped .definition (.node (.keyword "def")
        [.node (.keyword "header") [.leaf x, .node (.keyword "list") (xs.map .leaf)], b])
  | script {b : Tree Token} {ds : List (Tree Token)} (hb : Shaped .block b)
      (hds : ∀ d ∈ ds, Shaped .definition d) :
      Shaped .script (.node (.keyword "program") [b, .node (.keyword "list") ds])

/-! ## Derivations -/

variable {ts rest : List Token} {t : Tree Token}

theorem Phrase.shaped {n : Nonterminal} (h : Phrase n ts t) : Shaped .expression t := by
  have hmultiplicative : multiplicative ⊆ operators := by decide
  have hadditive : additive ⊆ operators := by decide
  induction h with
  | name hx => exact .name hx
  | number hx => exact .number hx
  | coordinate hw => exact .coordinate hw
  | parentheses _ ih | unsigned _ ih | factor _ ih | unsignedFactor _ ih | term _ ih => exact ih
  | signed ho _ ih => exact .sign ho ih
  | product _ ho _ ihl ihr => exact .operation (ho.mono hmultiplicative) ihl ihr
  | unsignedProduct _ ho _ ihl ihr => exact .operation (ho.mono hmultiplicative) ihl ihr
  | sum _ ho _ ihl ihr => exact .operation (ho.mono hadditive) ihl ihr

lemma LongestExpression.shaped (h : LongestExpression ts rest t) : Shaped .expression t := by
  obtain ⟨_, -, ht, -⟩ := h
  exact ht.shaped

lemma Condition.shaped (h : Condition ts rest t) : Shaped .condition t := by
  obtain ⟨hl, ho, hr⟩ := h
  exact .comparison ho hl.shaped hr.shaped

lemma Sequence.forall {P : List Token → List Token → Tree Token → Prop} {Q : Tree Token → Prop}
    {us : List (Tree Token)} (h : Sequence P ts rest us) (hQ : ∀ {ts rest t}, P ts rest t → Q t) :
    ∀ u ∈ us, Q u := by
  induction h with
  | nil => simp
  | cons ht _ ih => exact List.forall_mem_cons.2 ⟨hQ ht, ih⟩

/-- The components of a color are numbers. -/
lemma shaped_colorNode (rgb : Rgb) : Shaped .command (colorNode rgb) :=
  .color (.number rfl) (.number rfl) (.number rfl)

/-- The part that the trees of a category are. -/
def Category.part : Category → Part
  | .command => .command
  | .commands => .command
  | .block => .block

theorem Derives.shaped {c : Category} {us : List (Tree Token)} (h : Derives c ts rest us) :
    ∀ u ∈ us, Shaped c.part u := by
  have hone {p : Part} {u : Tree Token} (hu : Shaped p u) : ∀ v ∈ [u], Shaped p v := by simpa
  induction h with
  | move hw ht _ => exact hone (.move hw ht.shaped)
  | namedColor _ _ => exact hone (shaped_colorNode _)
  | color hr hg hb _ => exact hone (.color hr.shaped hg.shaped hb.shaped)
  | bare hw _ => exact hone (.bare hw)
  | jump hx hy _ => exact hone (.jump hx.shaped hy.shaped)
  | assignment hx ht _ => exact hone (.assignment hx ht.shaped)
  | repetition ht _ ih => exact hone (.repetition ht.shaped (ih _ (by simp)))
  | whileLoop ht _ ih => exact hone (.whileLoop ht.shaped (ih _ (by simp)))
  | choice ht _ ih => exact hone (.choice ht.shaped (ih _ (by simp)))
  | choiceElse ht _ _ ihb ihc =>
    exact hone (.choiceElse ht.shaped (ihb _ (by simp)) (ihc _ (by simp)))
  | call hx hus _ => exact hone (.call hx (hus.forall LongestExpression.shaped))
  | none => simp
  | more _ _ ihc ihcs => exact List.forall_mem_cons.2 ⟨ihc _ (by simp), ihcs⟩
  | braces _ _ _ ih => exact hone (.block ih)

lemma Definition.shaped (h : Definition ts rest t) : Shaped .definition t := by
  obtain ⟨hx, hxs, hb⟩ := h
  exact .definition hx hxs (hb.shaped _ (by simp))

/-- The tree of a script has the shape of one. -/
theorem Program.shaped (h : Program ts t) : Shaped .script t := by
  obtain ⟨-, hcs, hds⟩ := h
  exact .script (.block hcs.shaped) (hds.forall Definition.shaped)

end Grammar

end Logo
