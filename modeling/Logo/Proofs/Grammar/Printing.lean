import Logo.Proofs.Grammar.Completion
import Logo.Proofs.Grammar.Completeness.Program
import Logo.Proofs.Grammar.Shape
import Logo.Proofs.Grammar.Soundness.Program
import Logo.Proofs.Token.Single
import Mathlib.Data.List.Induction

/-!
# Printing scripts

A script can be written down again from its tree.  Parentheses leave no node, and a sign is legal in
few places, so an operand is always written in parentheses; then it does not matter what it is an
operand of, and an operand behind another one cannot be taken for a part of it.

* `WellFormed`: the trees that have the shape of a script, whose names and numbers can be scanned.
* `wellFormed_of_program`: the trees of scripts are among them, since every token of a tree comes from
  the source, unless a word of the grammar or the name of a color stands for it.
* `reads_of_shaped`: what is written for a tree derives from its part of the grammar, with this tree.
* `exists_parse_iff_wellFormed`: so the trees of scripts are the well-formed ones, and printing inverts
  parsing.
-/

namespace Logo

namespace Grammar

/-! ## Well-formed trees -/

/-- Whether a token can be scanned, if it is a name or a number.  The other tokens of trees are words
and operators of the grammar. -/
def Readable (x : Token) : Prop :=
  match x.kind with
  | .name => IsName x.text
  | .number => sourceTokens x.text = [x]
  | _ => True

/-- The trees of scripts: commands of which there is one at least, and definitions, with readable names
and numbers. -/
inductive WellFormed : Tree Token → Prop where
  | script {c : Tree Token} {cs ds : List (Tree Token)} (hcs : ∀ b ∈ c :: cs, Shaped .command b)
      (hds : ∀ d ∈ ds, Shaped .definition d)
      (hreadable : ∀ x ∈ (programNode (c :: cs) ds).values, Readable x) :
      WellFormed (programNode (c :: cs) ds)

/-- Whether all values of a tree are readable. -/
def TreeReadable (t : Tree Token) : Prop := ∀ x ∈ t.values, Readable x

@[simp] lemma treeReadable_node {x : Token} {children : List (Tree Token)} :
    TreeReadable (.node x children) ↔ Readable x ∧ ∀ c ∈ children, TreeReadable c :=
  Tree.forall_mem_values_node x children

@[simp] lemma treeReadable_leaf {x : Token} : TreeReadable (.leaf x) ↔ Readable x := by
  simp [Tree.leaf]

@[simp] lemma readable_keyword (word : String) : Readable (.keyword word) := trivial

lemma readable_of_isSymbol {texts : List String} {o : Token} (h : IsSymbol texts o) : Readable o := by
  simp [Readable, h.1]

/-- Every token of a source is readable. -/
lemma readable_of_mem {source : String} {x : Token} (h : x ∈ sourceTokens source) : Readable x := by
  have hsingle := sourceTokens_of_mem h
  unfold Readable
  split
  · rename_i hname
    obtain ⟨kind, text⟩ := x
    subst hname
    exact sourceTokens_eq_name_iff.1 hsingle
  · exact hsingle
  · trivial

/-! ## The trees of derivations -/

section Derivations

variable {ts rest : List Token} {t : Tree Token}

lemma Phrase.readable {n : Nonterminal} (h : Phrase n ts t) (hts : ∀ x ∈ ts, Readable x) :
    TreeReadable t := by
  induction h with
  | name _ | number _ => simpa using hts
  | coordinate _ => simp
  | parentheses _ ih => exact ih fun x hx => hts x (by simp [hx])
  | unsigned _ ih | factor _ ih | unsignedFactor _ ih | term _ ih => exact ih hts
  | signed ho _ ih =>
    have ht := ih fun x hx => hts x (by simp [hx])
    simpa using ⟨readable_of_isSymbol ho, ht⟩
  | product _ ho _ ihl ihr | unsignedProduct _ ho _ ihl ihr | sum _ ho _ ihl ihr =>
    have hl := ihl fun x hx => hts x (by simp [hx])
    have hr := ihr fun x hx => hts x (by simp [hx])
    simpa using ⟨readable_of_isSymbol ho, hl, hr⟩

/-- What stands behind something readable is readable, and so is the tree of what stands in front. -/
lemma LongestExpression.readable (h : LongestExpression ts rest t) (hts : ∀ x ∈ ts, Readable x) :
    TreeReadable t ∧ ∀ x ∈ rest, Readable x := by
  obtain ⟨us, rfl, hus, -⟩ := h
  obtain ⟨hfront, hrest⟩ := List.forall_mem_append.1 hts
  exact ⟨hus.readable hfront, hrest⟩

lemma Condition.readable (h : Condition ts rest t) (hts : ∀ x ∈ ts, Readable x) :
    TreeReadable t ∧ ∀ x ∈ rest, Readable x := by
  obtain ⟨hl, ho, hr⟩ := h
  obtain ⟨hleft, hmid⟩ := hl.readable hts
  obtain ⟨hright, hrest⟩ := hr.readable fun x hx => hmid x (List.mem_cons_of_mem _ hx)
  exact ⟨by simpa using ⟨readable_of_isSymbol ho, hleft, hright⟩, hrest⟩

lemma LineEnd.readable (h : LineEnd ts rest) (hts : ∀ x ∈ ts, Readable x) :
    ∀ x ∈ rest, Readable x := by
  obtain ⟨es, -, -, rfl⟩ := h
  exact (List.forall_mem_append.1 hts).2

lemma Sequence.readable {P : List Token → List Token → Tree Token → Prop} {us : List (Tree Token)}
    (h : Sequence P ts rest us)
    (hP : ∀ {ts rest t}, P ts rest t → (∀ x ∈ ts, Readable x) →
      TreeReadable t ∧ ∀ x ∈ rest, Readable x)
    (hts : ∀ x ∈ ts, Readable x) : (∀ u ∈ us, TreeReadable u) ∧ ∀ x ∈ rest, Readable x := by
  induction h with
  | nil => exact ⟨by simp, hts⟩
  | cons ht _ ih =>
    obtain ⟨hhead, hmid⟩ := hP ht hts
    obtain ⟨htail, hrest⟩ := ih hmid
    exact ⟨List.forall_mem_cons.2 ⟨hhead, htail⟩, hrest⟩

/-- The components of the colors with names can be written down. -/
lemma readable_colorNode {word : String} {rgb : Rgb} (h : (word, rgb) ∈ Rgb.named) :
    TreeReadable (colorNode rgb) := by
  have hcomponents : ∀ color ∈ Rgb.named, ∀ c ∈ color.2.components,
      sourceTokens (toString c.toNat) = [.number (toString c.toNat)] := by decide +kernel
  have hall := hcomponents _ h
  simp only [colorNode, treeReadable_node, readable_keyword, List.forall_mem_map, treeReadable_leaf,
    true_and]
  exact hall

theorem Derives.readable {c : Category} {us : List (Tree Token)} (h : Derives c ts rest us)
    (hts : ∀ x ∈ ts, Readable x) : (∀ u ∈ us, TreeReadable u) ∧ ∀ x ∈ rest, Readable x := by
  induction h with
  | move _ ht hend =>
    obtain ⟨htree, hmid⟩ := ht.readable (List.forall_mem_cons.1 hts).2
    exact ⟨by simpa using htree, hend.readable hmid⟩
  | namedColor hw hend =>
    exact ⟨by simpa using readable_colorNode hw, hend.readable (List.forall_mem_cons.1 hts).2⟩
  | color hr hg hb hend =>
    obtain ⟨hred, hmid₁⟩ := hr.readable (List.forall_mem_cons.1 hts).2
    obtain ⟨hgreen, hmid₂⟩ := hg.readable hmid₁
    obtain ⟨hblue, hmid₃⟩ := hb.readable hmid₂
    exact ⟨by simpa using ⟨hred, hgreen, hblue⟩, hend.readable hmid₃⟩
  | bare _ hend => exact ⟨by simp, hend.readable (List.forall_mem_cons.1 hts).2⟩
  | jump hx hy hend =>
    obtain ⟨hfirst, hmid₁⟩ := hx.readable (List.forall_mem_cons.1 hts).2
    obtain ⟨hsecond, hmid₂⟩ := hy.readable hmid₁
    exact ⟨by simpa using ⟨hfirst, hsecond⟩, hend.readable hmid₂⟩
  | assignment _ ht hend =>
    simp only [List.forall_mem_cons] at hts
    obtain ⟨htree, hmid⟩ := ht.readable hts.2.2
    exact ⟨by simpa using ⟨hts.2.1, htree⟩, hend.readable hmid⟩
  | repetition ht _ ih =>
    obtain ⟨hcount, hmid⟩ := ht.readable (List.forall_mem_cons.1 hts).2
    obtain ⟨hbody, hrest⟩ := ih hmid
    exact ⟨by simpa using ⟨hcount, hbody _ (by simp)⟩, hrest⟩
  | whileLoop ht _ ih | choice ht _ ih =>
    obtain ⟨hcondition, hmid⟩ := ht.readable (List.forall_mem_cons.1 hts).2
    obtain ⟨hbody, hrest⟩ := ih hmid
    exact ⟨by simpa using ⟨hcondition, hbody _ (by simp)⟩, hrest⟩
  | choiceElse ht _ _ ihb ihc =>
    obtain ⟨hcondition, hmid₁⟩ := ht.readable (List.forall_mem_cons.1 hts).2
    obtain ⟨hbody, hmid₂⟩ := ihb hmid₁
    obtain ⟨hother, hrest⟩ := ihc (List.forall_mem_cons.1 hmid₂).2
    exact ⟨by simpa using ⟨hcondition, hbody _ (by simp), hother _ (by simp)⟩, hrest⟩
  | call _ hus hend =>
    simp only [List.forall_mem_cons] at hts
    obtain ⟨hoperands, hmid⟩ := hus.readable LongestExpression.readable hts.2.2
    exact ⟨by simpa using ⟨hts.2.1, hoperands⟩, hend.readable hmid⟩
  | none => exact ⟨by simp, hts⟩
  | more _ _ ihc ihcs =>
    obtain ⟨hcommand, hmid⟩ := ihc hts
    obtain ⟨hcommands, hrest⟩ := ihcs hmid
    exact ⟨List.forall_mem_cons.2 ⟨hcommand _ (by simp), hcommands⟩, hrest⟩
  | braces hopen _ hclose ih =>
    obtain ⟨hcommands, hafter⟩ := ih (hopen.readable (List.forall_mem_cons.1 hts).2)
    exact ⟨by simpa using hcommands, hclose.readable (List.forall_mem_cons.1 hafter).2⟩

lemma Definition.readable (h : Definition ts rest t) (hts : ∀ x ∈ ts, Readable x) :
    TreeReadable t ∧ ∀ x ∈ rest, Readable x := by
  obtain ⟨-, -, hb⟩ := h
  simp only [List.forall_mem_cons, List.forall_mem_append] at hts
  obtain ⟨-, hname, hparameters, hmid⟩ := hts
  obtain ⟨hbody, hrest⟩ := hb.readable hmid
  exact ⟨by simpa using ⟨⟨hname, hparameters⟩, hbody _ (by simp)⟩, hrest⟩

end Derivations

/-- The tree of a script is well formed. -/
theorem wellFormed_of_program {ts : List Token} {t : Tree Token} (h : Program ts t)
    (hts : ∀ x ∈ ts, Readable x) : WellFormed t := by
  obtain ⟨hstart, hcs, hds⟩ := h
  have hfront := hstart.elim (fun heq => heq ▸ hts) fun hend => hend.readable hts
  obtain ⟨hcommands, hmid⟩ := hcs.readable hfront
  obtain ⟨hdefinitions, -⟩ := hds.readable Definition.readable hmid
  refine .script hcs.shaped (hds.forall Definition.shaped) ?_
  change TreeReadable _
  simpa [programNode] using ⟨List.forall_mem_cons.1 hcommands, hdefinitions⟩

/-! ## Writing -/

/-- The tokens of an expression, with its operands in parentheses. -/
def expressionTokens : Tree Token → List Token
  | .node o [l, r] =>
    .symbol "(" :: (expressionTokens l ++ .symbol ")" :: o ::
      .symbol "(" :: (expressionTokens r ++ [.symbol ")"]))
  | .node o [t] => o :: .symbol "(" :: (expressionTokens t ++ [.symbol ")"])
  | .node x _ => [x]

/-- The tokens of an expression in parentheses. -/
def operandTokens (t : Tree Token) : List Token :=
  .symbol "(" :: (expressionTokens t ++ [.symbol ")"])

lemma expressionTokens_sign (o : Token) (t : Tree Token) :
    expressionTokens (.node o [t]) = o :: operandTokens t := by
  rw [expressionTokens, operandTokens]

lemma expressionTokens_operation (o : Token) (l r : Tree Token) :
    expressionTokens (.node o [l, r]) = operandTokens l ++ o :: operandTokens r := by
  simp [expressionTokens, operandTokens]

mutual

/-- The tokens of a command, with its operands in parentheses and a line end behind it. -/
def commandTokens : Tree Token → List Token
  | .node ⟨_, "set"⟩ [x, t] => .keyword "set" :: x.value :: (operandTokens t ++ [.lineEnd])
  | .node ⟨_, "do"⟩ [x, ts] =>
    .keyword "do" :: x.value :: (ts.children.flatMap operandTokens ++ [.lineEnd])
  | .node ⟨_, "repeat"⟩ [t, b] => .keyword "repeat" :: (operandTokens t ++ blockTokens b)
  | .node ⟨_, "while"⟩ [t, b] => .keyword "while" :: (expressionTokens t ++ blockTokens b)
  | .node ⟨_, "if"⟩ [t, b] => .keyword "if" :: (expressionTokens t ++ blockTokens b)
  | .node ⟨_, "if"⟩ [t, b, c] =>
    .keyword "if" :: (expressionTokens t ++ (blockTokens b ++ .keyword "else" :: blockTokens c))
  | .node word ts => word :: (ts.flatMap operandTokens ++ [.lineEnd])

/-- The tokens of a block: its commands in braces, each on its own line. -/
def blockTokens : Tree Token → List Token
  | .node _ cs =>
    .symbol "\x7b" :: .lineEnd :: (commandsTokens cs ++ [.symbol "\x7d", .lineEnd])

/-- The tokens of commands in a row. -/
def commandsTokens : List (Tree Token) → List Token
  | [] => []
  | c :: cs => commandTokens c ++ commandsTokens cs

end

/-- The words of the commands that have nothing but operands. -/
def plainWords : List String := moveWords ++ bareWords ++ ["color", "jump"]

lemma commandTokens_plain {word : String} (hw : word ∈ plainWords) (ts : List (Tree Token)) :
    commandTokens (.node (.keyword word) ts) =
      .keyword word :: (ts.flatMap operandTokens ++ [.lineEnd]) := by
  have hother : ∀ word ∈ plainWords, word ∉ ["set", "do", "repeat", "while", "if"] := by decide
  have hne := hother word hw
  simp only [List.mem_cons, List.not_mem_nil, or_false, not_or] at hne
  rw [Token.keyword, commandTokens]
  all_goals simp_all

/-- The tokens of a definition. -/
def definitionTokens : Tree Token → List Token
  | .node _ [.node _ [x, xs], b] =>
    .keyword "def" :: x.value :: (xs.children.map Tree.value ++ blockTokens b)
  | _ => []

lemma definitionTokens_definitionNode (x : Token) (xs : List Token) (b : Tree Token) :
    definitionTokens (definitionNode x xs b) = .keyword "def" :: x :: (xs ++ blockTokens b) := by
  have hvalues : (xs.map Tree.leaf).map Tree.value = xs := by
    rw [List.map_map]
    exact List.map_id xs
  rw [definitionNode, definitionTokens, Tree.children_node, hvalues]
  rfl

/-- The tokens of a script: its commands, then its definitions. -/
def programTokens : Tree Token → List Token
  | .node _ [b, ds] => commandsTokens b.children ++ ds.children.flatMap definitionTokens
  | _ => []

/-- The tokens of a part of a script. -/
def tokensOf : Part → Tree Token → List Token
  | .expression, t => expressionTokens t
  | .condition, t => expressionTokens t
  | .command, t => commandTokens t
  | .block, t => blockTokens t
  | .definition, t => definitionTokens t
  | .script, t => programTokens t

/-! ## Reading what was written -/

section Reading

variable {p : Part} {t : Tree Token} {ts : List (Tree Token)}

/-- What is written for a tree derives from its part of the grammar, with this tree.  Whole scripts are
left to `program_of_shaped`, for a script without commands cannot be read. -/
def Reads : Part → Tree Token → Prop
  | .expression, t => Phrase .expression (expressionTokens t) t
  | .condition, t => Comparison (expressionTokens t) t
  | .command, t => Spans .command (commandTokens t) [t]
  | .block, t => Spans .block (blockTokens t) [t]
  | .definition, t => DefinitionSpan (definitionTokens t) t
  | .script, _ => True

/-- Parentheses make an operand of any expression. -/
lemma phrase_operandTokens (h : Reads .expression t) : Phrase .unsignedFactor (operandTokens t) t :=
  .parentheses h

lemma phrase_expression (h : Reads .expression t) : Phrase .expression (operandTokens t) t :=
  .term (.factor (.unsigned (phrase_operandTokens h)))

/-- An operand in parentheses is no part of the one in front of it. -/
lemma clear_operandTokens (t : Tree Token) : Clear operators (operandTokens t) :=
  clear_cons.2 (by decide)

lemma operands_flatMap (h : ∀ t ∈ ts, Reads .expression t) :
    Operands (ts.flatMap operandTokens) ts := by
  induction ts using List.reverseRecOn with
  | nil => exact .nil
  | append_singleton ts t ih =>
    obtain ⟨hts, ht⟩ := List.forall_mem_append.1 h
    rw [List.flatMap_append, List.flatMap_singleton]
    exact .snoc (ih hts) (phrase_expression (ht t (by simp))) (.inr (clear_operandTokens t))

lemma spans_commandsTokens (h : ∀ t ∈ ts, Reads .command t) : Spans .commands (commandsTokens ts) ts := by
  induction ts with
  | nil => exact .none
  | cons t ts ih =>
    obtain ⟨ht, hts⟩ := List.forall_mem_cons.1 h
    intro rest
    rw [commandsTokens, List.append_assoc]
    exact .more (ht _) (ih hts rest)

lemma definitionSpans_flatMap (h : ∀ t ∈ ts, Reads .definition t) :
    DefinitionSpans (ts.flatMap definitionTokens) ts := by
  induction ts with
  | nil => exact fun _ => .nil
  | cons t ts ih =>
    obtain ⟨ht, hts⟩ := List.forall_mem_cons.1 h
    intro rest
    rw [List.flatMap_cons, List.append_assoc]
    exact .cons (ht _) (ih hts rest)

/-- What is written for a part of a script is read as this part. -/
theorem reads_of_shaped (h : Shaped p t) : Reads p t := by
  induction h with
  | name hx => exact .term (.factor (.unsigned (.name hx)))
  | number hx => exact .term (.factor (.unsigned (.number hx)))
  | coordinate hw => exact .term (.factor (.unsigned (.coordinate hw)))
  | sign ho _ ih =>
    rw [Reads, expressionTokens_sign]
    exact .term (.factor (.signed ho (phrase_operandTokens ih)))
  | operation ho _ _ ihl ihr =>
    have hl := phrase_operandTokens ihl
    have hr := phrase_operandTokens ihr
    rw [Reads, expressionTokens_operation]
    rcases List.mem_append.1 ho.2 with hadditive | hmultiplicative
    · exact .sum (.term (.factor (.unsigned hl))) ⟨ho.1, hadditive⟩ (.unsignedFactor hr)
    · exact .term (.product (.factor (.unsigned hl)) ⟨ho.1, hmultiplicative⟩ (.unsigned hr))
  | comparison ho _ _ ihl ihr =>
    rw [Reads, expressionTokens_operation]
    exact .comparison (phrase_expression ihl) ho (phrase_expression ihr)
  | @move word t hw _ ih =>
    have hplain : word ∈ plainWords := by simp [plainWords, hw]
    rw [Reads, commandTokens_plain hplain, List.flatMap_singleton]
    exact .move hw (phrase_expression ih) lineEnds_lineEnd
  | @color r g b _ _ _ ihr ihg ihb =>
    have htokens : [r, g, b].flatMap operandTokens ++ [.lineEnd] =
        operandTokens r ++ (operandTokens g ++ (operandTokens b ++ [.lineEnd])) := by simp
    rw [Reads, commandTokens_plain (by decide), htokens]
    exact .color (phrase_expression ihr) (clear_operandTokens g) (phrase_expression ihg)
      (clear_operandTokens b) (phrase_expression ihb) lineEnds_lineEnd
  | @bare word hw =>
    have hplain : word ∈ plainWords := by simp [plainWords, hw]
    rw [Reads, Tree.leaf, commandTokens_plain hplain]
    exact .bare hw lineEnds_lineEnd
  | @jump x y _ _ ihx ihy =>
    have htokens : [x, y].flatMap operandTokens ++ [.lineEnd] =
        operandTokens x ++ (operandTokens y ++ [.lineEnd]) := by simp
    rw [Reads, commandTokens_plain (by decide), htokens]
    exact .jump (phrase_expression ihx) (clear_operandTokens y) (phrase_expression ihy)
      lineEnds_lineEnd
  | assignment hx _ ih => exact .assignment hx (phrase_expression ih) lineEnds_lineEnd
  | repetition _ _ iht ihb => exact .repetition (phrase_expression iht) ihb
  | whileLoop _ _ iht ihb => exact .whileLoop iht ihb
  | choice _ _ iht ihb => exact .choice iht ihb
  | choiceElse _ _ _ iht ihb ihc => exact .choiceElse iht ihb ihc
  | call hx _ ih => exact .call hx (operands_flatMap ih) lineEnds_lineEnd
  | block _ ih => exact .block lineEnds_lineEnd (spans_commandsTokens ih) lineEnds_lineEnd
  | @definition x xs b hx hxs _ ih =>
    have hspan := definitionSpan hx hxs ih
    rwa [← definitionTokens_definitionNode] at hspan
  | script _ _ _ _ => trivial

/-- What is written for a script is read as this script. -/
lemma program_of_shaped {c : Tree Token} {cs ds : List (Tree Token)}
    (hcs : ∀ b ∈ c :: cs, Shaped .command b) (hds : ∀ d ∈ ds, Shaped .definition d) :
    Program (programTokens (programNode (c :: cs) ds)) (programNode (c :: cs) ds) := by
  have hcommands : Spans .commands (commandsTokens (c :: cs)) (c :: cs) :=
    spans_commandsTokens fun b hb => reads_of_shaped (hcs b hb)
  have hdefinitions : DefinitionSpans (ds.flatMap definitionTokens) ds :=
    definitionSpans_flatMap fun d hd => reads_of_shaped (hds d hd)
  have hopening : Opening (commandsTokens (c :: cs)) (c :: cs) :=
    ⟨[], _, rfl, .inl rfl, hcommands⟩
  exact hopening.program (List.cons_ne_nil c cs) hdefinitions

end Reading

/-! ## Scanning what was written -/

/-- The tokens that are written for words, operators, parentheses, braces and lines. -/
def marks : List Token :=
  Vocabulary.statementWords.map .keyword ++
    (["(", ")", "\x7b", "\x7d"] ++ operators ++ comparators).map .symbol ++ [.lineEnd]

/-- Whether all tokens stand by themselves. -/
def AllStand (ts : List Token) : Prop := ∀ x ∈ ts, Lexeme.Stands Vocabulary.keywords x

section Standing

variable {x : Token} {ts us : List Token} {p : Part} {t : Tree Token}

@[simp] lemma allStand_nil : AllStand [] := List.forall_mem_nil _

@[simp] lemma allStand_cons :
    AllStand (x :: ts) ↔ Lexeme.Stands Vocabulary.keywords x ∧ AllStand ts := List.forall_mem_cons

@[simp] lemma allStand_append : AllStand (ts ++ us) ↔ AllStand ts ∧ AllStand us :=
  List.forall_mem_append

lemma stands_mark (h : x ∈ marks) : Lexeme.Stands Vocabulary.keywords x := by
  have hsplit : ∀ x ∈ marks,
      Lexeme.split? Vocabulary.keywords x.text.toList = some (x, []) := by decide +kernel
  exact Lexeme.stands_of_split? (hsplit x h)

lemma stands_of_isSymbol {texts : List String} (h : IsSymbol texts x)
    (hmarks : ∀ text ∈ texts, .symbol text ∈ marks) : Lexeme.Stands Vocabulary.keywords x := by
  obtain ⟨kind, text⟩ := x
  obtain ⟨rfl, htext⟩ := h
  exact stands_mark (hmarks text htext)

lemma stands_of_name (hx : x.kind = .name) (h : Readable x) :
    Lexeme.Stands Vocabulary.keywords x := by
  obtain ⟨kind, text⟩ := x
  subst hx
  exact sourceTokens_eq_singleton_iff.1 (sourceTokens_eq_name_iff.2 h)

lemma stands_of_number (hx : x.kind = .number) (h : Readable x) :
    Lexeme.Stands Vocabulary.keywords x := by
  obtain ⟨kind, text⟩ := x
  subst hx
  exact sourceTokens_eq_singleton_iff.1 h

lemma allStand_flatMap {f : Tree Token → List Token} {trees : List (Tree Token)}
    (h : ∀ t ∈ trees, AllStand (f t)) : AllStand (trees.flatMap f) := by
  intro x hx
  obtain ⟨t, ht, hmem⟩ := List.mem_flatMap.1 hx
  exact h t ht x hmem

lemma allStand_operandTokens (h : AllStand (expressionTokens t)) : AllStand (operandTokens t) := by
  have hopen : Lexeme.Stands Vocabulary.keywords (.symbol "(") := stands_mark (by decide)
  have hclose : Lexeme.Stands Vocabulary.keywords (.symbol ")") := stands_mark (by decide)
  simpa [operandTokens] using ⟨hopen, h, hclose⟩

lemma allStand_commandTokens_plain {word : String} {trees : List (Tree Token)}
    (hw : word ∈ plainWords) (h : ∀ t ∈ trees, AllStand (expressionTokens t)) :
    AllStand (commandTokens (.node (.keyword word) trees)) := by
  have hmark : ∀ word ∈ plainWords, .keyword word ∈ marks := by decide
  have hend : Lexeme.Stands Vocabulary.keywords .lineEnd := stands_mark (by decide)
  rw [commandTokens_plain hw, allStand_cons, allStand_append]
  exact ⟨stands_mark (hmark word hw),
    allStand_flatMap fun t ht => allStand_operandTokens (h t ht), by simpa using hend⟩

lemma allStand_commandsTokens {trees : List (Tree Token)} (h : ∀ t ∈ trees, AllStand (commandTokens t)) :
    AllStand (commandsTokens trees) := by
  induction trees with
  | nil => exact allStand_nil
  | cons t trees ih =>
    obtain ⟨ht, htrees⟩ := List.forall_mem_cons.1 h
    rw [commandsTokens, allStand_append]
    exact ⟨ht, ih htrees⟩

lemma allStand_blockTokens {trees : List (Tree Token)} :
    AllStand (blockTokens (.node (.keyword "block") trees)) ↔ AllStand (commandsTokens trees) := by
  have hopen : Lexeme.Stands Vocabulary.keywords (.symbol "\x7b") := stands_mark (by decide)
  have hclose : Lexeme.Stands Vocabulary.keywords (.symbol "\x7d") := stands_mark (by decide)
  have hend : Lexeme.Stands Vocabulary.keywords .lineEnd := stands_mark (by decide)
  simp [blockTokens, hopen, hclose, hend]

lemma allStand_guarded (word : String) {condition body : Tree Token} (hw : .keyword word ∈ marks)
    (hcondition : AllStand (expressionTokens condition)) (hbody : AllStand (blockTokens body)) :
    AllStand (.keyword word :: (expressionTokens condition ++ blockTokens body)) := by
  simp only [allStand_cons, allStand_append]
  exact ⟨stands_mark hw, hcondition, hbody⟩

/-- All tokens that are written for a readable part of a script stand by themselves. -/
theorem allStand_of_shaped (h : Shaped p t) (ht : TreeReadable t) : AllStand (tokensOf p t) := by
  have hmark {x : Token} (hx : x ∈ marks) : Lexeme.Stands Vocabulary.keywords x := stands_mark hx
  induction h with
  | name hx => simpa [tokensOf, expressionTokens, Tree.leaf] using stands_of_name hx (by simpa using ht)
  | number hx =>
    simpa [tokensOf, expressionTokens, Tree.leaf] using stands_of_number hx (by simpa using ht)
  | coordinate hw =>
    have hwords : ∀ word ∈ ["getX", "getY"], .keyword word ∈ marks := by decide
    simpa [tokensOf, expressionTokens, Tree.leaf] using hmark (hwords _ hw)
  | sign ho _ ih =>
    simp only [treeReadable_node, List.forall_mem_cons] at ht
    rw [tokensOf, expressionTokens_sign, allStand_cons]
    exact ⟨stands_of_isSymbol ho (by decide), allStand_operandTokens (ih ht.2.1)⟩
  | operation ho _ _ ihl ihr | comparison ho _ _ ihl ihr =>
    simp only [treeReadable_node, List.forall_mem_cons] at ht
    rw [tokensOf, expressionTokens_operation, allStand_append, allStand_cons]
    exact ⟨allStand_operandTokens (ihl ht.2.1), stands_of_isSymbol ho (by decide),
      allStand_operandTokens (ihr ht.2.2.1)⟩
  | move hw _ ih =>
    simp only [treeReadable_node, List.forall_mem_cons] at ht
    have hplain : _ ∈ plainWords := List.mem_append_left _ (List.mem_append_left _ hw)
    exact allStand_commandTokens_plain hplain (List.forall_mem_singleton.2 (ih ht.2.1))
  | color _ _ _ ihr ihg ihb =>
    simp only [treeReadable_node, List.forall_mem_cons] at ht
    have hplain : "color" ∈ plainWords := by decide
    exact allStand_commandTokens_plain hplain (List.forall_mem_cons.2 ⟨ihr ht.2.1,
      List.forall_mem_cons.2 ⟨ihg ht.2.2.1, List.forall_mem_singleton.2 (ihb ht.2.2.2.1)⟩⟩)
  | bare hw =>
    have hplain : _ ∈ plainWords := List.mem_append_left _ (List.mem_append_right _ hw)
    exact allStand_commandTokens_plain hplain (List.forall_mem_nil _)
  | jump _ _ ihx ihy =>
    simp only [treeReadable_node, List.forall_mem_cons] at ht
    have hplain : "jump" ∈ plainWords := by decide
    exact allStand_commandTokens_plain hplain (List.forall_mem_cons.2 ⟨ihx ht.2.1,
      List.forall_mem_singleton.2 (ihy ht.2.2.1)⟩)
  | assignment hx _ ih =>
    simp only [treeReadable_node, List.forall_mem_cons, treeReadable_leaf] at ht
    change AllStand (.keyword "set" :: _ :: (operandTokens _ ++ [.lineEnd]))
    simp only [allStand_cons, allStand_append]
    exact ⟨hmark (by decide), stands_of_name hx ht.2.1, allStand_operandTokens (ih ht.2.2.1),
      hmark (by decide), allStand_nil⟩
  | repetition _ _ iht ihb =>
    simp only [treeReadable_node, List.forall_mem_cons] at ht
    change AllStand (.keyword "repeat" :: (operandTokens _ ++ blockTokens _))
    simp only [allStand_cons, allStand_append]
    exact ⟨hmark (by decide), allStand_operandTokens (iht ht.2.1), ihb ht.2.2.1⟩
  | whileLoop _ _ iht ihb =>
    simp only [treeReadable_node, List.forall_mem_cons] at ht
    exact allStand_guarded "while" (by decide) (iht ht.2.1) (ihb ht.2.2.1)
  | choice _ _ iht ihb =>
    simp only [treeReadable_node, List.forall_mem_cons] at ht
    exact allStand_guarded "if" (by decide) (iht ht.2.1) (ihb ht.2.2.1)
  | choiceElse _ _ _ iht ihb ihc =>
    simp only [treeReadable_node, List.forall_mem_cons] at ht
    change AllStand (.keyword "if" ::
      (expressionTokens _ ++ (blockTokens _ ++ .keyword "else" :: blockTokens _)))
    simp only [allStand_cons, allStand_append]
    exact ⟨hmark (by decide), iht ht.2.1, ihb ht.2.2.1, hmark (by decide), ihc ht.2.2.2.1⟩
  | call hx _ ih =>
    simp only [treeReadable_node, List.forall_mem_cons, treeReadable_leaf] at ht
    change AllStand (.keyword "do" :: _ :: (List.flatMap operandTokens _ ++ [.lineEnd]))
    simp only [allStand_cons, allStand_append]
    exact ⟨hmark (by decide), stands_of_name hx ht.2.1,
      allStand_flatMap fun t hmem => allStand_operandTokens (ih t hmem (ht.2.2.1.2 t hmem)),
      hmark (by decide), allStand_nil⟩
  | block _ ih =>
    simp only [treeReadable_node] at ht
    exact allStand_blockTokens.2 (allStand_commandsTokens fun c hc => ih c hc (ht.2 c hc))
  | @definition x xs b hx hxs _ ih =>
    simp only [treeReadable_node, List.forall_mem_cons, treeReadable_leaf, List.forall_mem_map] at ht
    obtain ⟨-, ⟨-, hname, ⟨-, hparameters⟩, -⟩, hbody, -⟩ := ht
    change AllStand (definitionTokens (definitionNode x xs b))
    rw [definitionTokens_definitionNode, allStand_cons, allStand_cons, allStand_append]
    exact ⟨hmark (by decide), stands_of_name hx hname,
      fun y hy => stands_of_name (hxs y hy) (hparameters y hy), ih hbody⟩
  | script hb _ ihb ihds =>
    simp only [treeReadable_node, List.forall_mem_cons] at ht
    obtain ⟨-, hcommands, ⟨-, hdefinitions⟩, -⟩ := ht
    cases hb with
    | @block cs _ =>
      have hblock : AllStand (blockTokens (.node (.keyword "block") cs)) :=
        ihb (by simpa using hcommands)
      change AllStand (commandsTokens cs ++ _)
      rw [allStand_append]
      exact ⟨allStand_blockTokens.1 hblock,
        allStand_flatMap fun d hd => ihds d hd (hdefinitions d hd)⟩

end Standing

/-! ## The text of a script -/

/-- What is written for a token: its text, and a blank behind it unless it ends the line. -/
def written (x : Token) : List Char := if x = .lineEnd then ['\n'] else x.text.toList ++ [' ']

/-- The text of a script. -/
def print (t : Tree Token) : String := String.ofList ((programTokens t).flatMap written)

lemma scanned_written {ts : List Token} (h : AllStand ts) :
    Scanned Vocabulary.keywords (ts.flatMap written) ts := by
  induction ts with
  | nil => exact .done rfl
  | cons x ts ih =>
    obtain ⟨hx, hts⟩ := List.forall_mem_cons.1 h
    rw [List.flatMap_cons]
    by_cases hline : x = .lineEnd
    · rw [written, if_pos hline, List.singleton_append, hline]
      exact .token (Lexeme.split?_cons (by decide) fun hslash => absurd hslash (by decide)) (ih hts)
    · rw [written, if_neg hline, List.append_assoc, List.singleton_append]
      exact .token (hx _ (Lexeme.halts_cons.2 (not_not.2 rfl))) (ih hts).blank

lemma sourceTokens_print {t : Tree Token} (h : AllStand (programTokens t)) :
    sourceTokens (print t) = programTokens t :=
  TokenStream.remaining_of_scanned (TokenStream.plain_ofString _ _) (scanned_written h) rfl
    String.toList_ofList

/-- What is printed for a well-formed tree is read as this tree. -/
theorem parse_print_of_wellFormed {t : Tree Token} (h : WellFormed t) : parse (print t) = .ok t := by
  cases h with
  | @script c cs ds hcs hds hreadable =>
    have hshaped : Shaped .script (programNode (c :: cs) ds) := .script (.block hcs) hds
    have hstand : AllStand (programTokens (programNode (c :: cs) ds)) :=
      allStand_of_shaped hshaped hreadable
    refine parse_complete ?_
    rw [sourceTokens_print hstand]
    exact program_of_shaped hcs hds

/-- The trees of scripts are the well-formed ones, and printing inverts parsing: what is printed for a
well-formed tree is read as this tree, with the same texts and kinds. -/
theorem exists_parse_iff_wellFormed (t : Tree Token) :
    ((∃ source, parse source = .ok t) ↔ WellFormed t) ∧
      (WellFormed t ↔ parse (print t) = .ok t) := by
  have himage (source : String) (hparse : parse source = .ok t) : WellFormed t :=
    wellFormed_of_program (parse_sound hparse) fun _ hx => readable_of_mem hx
  refine ⟨⟨fun ⟨source, hparse⟩ => himage source hparse, fun h => ?_⟩, ?_⟩
  · exact ⟨print t, parse_print_of_wellFormed h⟩
  · exact ⟨parse_print_of_wellFormed, himage (print t)⟩

/-- Every operand is printed in parentheses. -/
example :
    let sign : Tree Token := .node (.symbol "-") [.leaf (.number "1.5f")]
    let sum : Tree Token := .node (.symbol "+") [.leaf ⟨.name, "list"⟩, sign]
    let loop : Tree Token := .node (.keyword "repeat")
      [sum, .node (.keyword "block") [.node (.keyword "forward") [.leaf (.keyword "getX")]]]
    print (programNode [loop] []) =
      "repeat ( ( list ) + ( - ( 1.5f ) ) ) \x7b \nforward ( getX ) \n\x7d \n" := by
  decide +kernel

end Grammar

end Logo
