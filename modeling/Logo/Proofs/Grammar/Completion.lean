import Logo.Proofs.Grammar.Derivation

/-!
# Phrases that have been begun

An error is placed on the earliest possible token if what stands in front of it can still become a
script.  So each error of the grammar owes a completion of the tokens before it.  The tokens that
complete them are always among `fillers`, a handful of tokens whose texts are known.

For expressions `Begins n p` says that some phrase of the layer `n` begins with `p`.  For commands
and blocks a span is first made independent of what follows it: `Spans c ts us` says that `ts`
derives from the category `c` in front of anything, which holds of every complete command since it
ends its line.  `Begun c p` then is the counterpart of `Begins`.
-/

namespace Logo

namespace Grammar

/-! ## Tokens that complete a script -/

/-- A numeric literal that can stand for any missing expression. -/
def zero : Token := .number "0"

/-- A name that can stand for any missing name. -/
def anyName : Token := ⟨.name, "x"⟩

/-- The tokens that complete what has been begun. -/
def fillers : List Token :=
  [zero, anyName, .lineEnd, .keyword "home", .keyword "def", .symbol ")", .symbol "\x7b",
    .symbol "\x7d", .symbol "<"]

/-- Whether some of these tokens can be put behind `p` so that the whole satisfies `S`. -/
def Completable (S : List Token → Prop) (p : List Token) : Prop := ∃ q, q ⊆ fillers ∧ S (p ++ q)

section Completable

variable {S : List Token → Prop} {p q : List Token}

lemma completable (h : S p) : Completable S p := ⟨[], by simp, by simpa using h⟩

/-- What can be completed with some of the tokens at its end can be completed without them. -/
lemma Completable.of_append (h : Completable S (p ++ q)) (hq : q ⊆ fillers) : Completable S p := by
  obtain ⟨q', hq', hS⟩ := h
  exact ⟨q ++ q', List.append_subset.2 ⟨hq, hq'⟩, by simpa using hS⟩

end Completable

/-! ## Expressions -/

lemma phrase_zero : Phrase .expression [zero] (.leaf zero) :=
  .term (.factor (.unsigned (.number rfl)))

lemma clear_zero (texts : List String) (rest : List Token) : Clear texts (zero :: rest) :=
  clear_of_kind (by decide) (by decide)

/-- Some phrase of the layer begins with `p`.  If nothing has been read of it, it may begin in such
a way that it does not go on with a phrase before it. -/
def Begins (n : Nonterminal) (p : List Token) : Prop :=
  ∃ q t, q ⊆ fillers ∧ Phrase n (p ++ q) t ∧ (p = [] → Clear operators q)

section Begins

variable {n m : Nonterminal} {p us : List Token} {t : Tree Token}

/-- A phrase that is complete has been begun. -/
lemma Phrase.begins (h : Phrase n us t) : Begins n us :=
  ⟨[], t, by simp, by simpa using h, fun hnil => absurd hnil h.ne_nil⟩

lemma begins_of_zero (h : Phrase n [zero] (.leaf zero)) : Begins n [] :=
  ⟨[zero], _, by simp [fillers], h, fun _ => clear_zero _ _⟩

/-- What begins a phrase of one layer begins one of another, if the former are among the latter. -/
lemma Begins.mono (h : Begins n p) (hsub : ∀ us t, Phrase n us t → Phrase m us t) : Begins m p := by
  obtain ⟨q, t, hq, ht, hclear⟩ := h
  exact ⟨q, t, hq, hsub _ _ ht, hclear⟩

/-- What begins the part of a phrase behind `us` begins the phrase together with `us`. -/
lemma Begins.behind (h : Begins n p) (hus : us ≠ [])
    (hphrase : ∀ vs t, Phrase n vs t → ∃ u, Phrase m (us ++ vs) u) : Begins m (us ++ p) := by
  obtain ⟨q, t, hq, ht, -⟩ := h
  obtain ⟨u, hu⟩ := hphrase _ _ ht
  exact ⟨q, u, hq, by simpa using hu, fun hnil => absurd (List.append_eq_nil_iff.1 hnil).1 hus⟩

/-- Between parentheses. -/
lemma Begins.parentheses (h : Begins .expression p) : Begins .unsignedFactor (.symbol "(" :: p) := by
  obtain ⟨q, t, hq, ht, -⟩ := h
  refine ⟨q ++ [.symbol ")"], t, ?_, by simpa using ht.parentheses, by simp⟩
  exact List.append_subset.2 ⟨hq, by simp [fillers]⟩

/-- Where an expression has been begun, or none yet, its completion does not go on with the
expression before it. -/
lemma Begins.clear {b q : List Token} (hb : Clear operators b) (hp : p <+: b)
    (hq : p = [] → Clear operators q) : Clear operators (p ++ q) := by
  cases p with
  | nil => exact hq rfl
  | cons x p =>
    obtain ⟨b', rfl⟩ := hp
    simpa [clear_cons] using hb

end Begins

/-! ## Parts of commands -/

/-- One or more line ends and nothing else. -/
def LineEnds (ts : List Token) : Prop := ts ≠ [] ∧ ∀ e ∈ ts, e.kind = .eol

/-- A comparison as a span. -/
inductive Comparison : List Token → Tree Token → Prop where
  | comparison {us vs : List Token} {o : Token} {l r : Tree Token} (hl : Phrase .expression us l)
      (ho : IsSymbol comparators o) (hr : Phrase .expression vs r) :
      Comparison (us ++ o :: vs) (.node o [l, r])

/-- Expressions in a row, none of which goes on with the one before it. -/
inductive Operands : List Token → List (Tree Token) → Prop where
  | nil : Operands [] []
  | snoc {ts us : List Token} {es : List (Tree Token)} {e : Tree Token} (hes : Operands ts es)
      (he : Phrase .expression us e) (hclear : ts = [] ∨ Clear operators us) :
      Operands (ts ++ us) (es ++ [e])

section Parts

variable {ts us rest : List Token} {t : Tree Token}

lemma lineEnds_lineEnd : LineEnds [.lineEnd] := ⟨by simp, by simp [Token.lineEnd]⟩

lemma lineEnds_append (hts : ∀ e ∈ ts, e.kind = .eol) : LineEnds (ts ++ [.lineEnd]) := by
  refine ⟨by simp, fun e he => ?_⟩
  rcases List.mem_append.1 he with he | he
  · exact hts e he
  · exact lineEnds_lineEnd.2 e he

lemma LineEnds.lineEnd (h : LineEnds ts) (rest : List Token) : LineEnd (ts ++ rest) rest :=
  ⟨ts, h.1, h.2, rfl⟩

lemma LineEnds.clear (h : LineEnds ts) (texts : List String) (rest : List Token) :
    Clear texts (ts ++ rest) := (h.lineEnd rest).clear

lemma Comparison.condition (h : Comparison ts t) (hrest : Clear operators rest) :
    Condition (ts ++ rest) rest t := by
  obtain ⟨hl, ho, hr⟩ := h
  rw [List.append_assoc, List.cons_append]
  exact .comparison (hl.longest (comparator_clear ho _)) ho (hr.longest hrest)

lemma Clear.append (h : Clear operators us) (hne : us ≠ []) (rest : List Token) :
    Clear operators (us ++ rest) := by
  obtain ⟨x, us, rfl⟩ := List.exists_cons_of_ne_nil hne
  rw [List.cons_append, clear_cons]
  exact clear_cons.1 h

lemma Sequence.snoc {P : List Token → List Token → Tree Token → Prop} {mid : List Token}
    {vs : List (Tree Token)} (h : Sequence P ts mid vs) (ht : P mid rest t) :
    Sequence P ts rest (vs ++ [t]) := by
  induction h with
  | nil => exact .cons ht .nil
  | cons hhead _ ih => exact .cons hhead (ih ht)

lemma Operands.sequence {es : List (Tree Token)} (h : Operands ts es)
    (hrest : ts = [] ∨ Clear operators rest) :
    Sequence LongestExpression (ts ++ rest) rest es := by
  induction h generalizing rest with
  | nil => exact .nil
  | @snoc ts us es e hes he hclear ih =>
    have hclear' : Clear operators rest := by
      rcases hrest with hnil | hclear'
      · exact absurd (List.append_eq_nil_iff.1 hnil).2 he.ne_nil
      · exact hclear'
    rw [List.append_assoc]
    refine (ih ?_).snoc (he.longest hclear')
    exact hclear.imp_right fun hus => hus.append he.ne_nil rest

end Parts

/-! ## Commands and blocks -/

/-- The span derives from the category, whatever follows it. -/
def Spans (c : Category) (ts : List Token) (us : List (Tree Token)) : Prop :=
  ∀ rest, Derives c (ts ++ rest) rest us

/-- Some command, commands or block begin with `p`. -/
abbrev Begun (c : Category) (p : List Token) : Prop := Completable (fun ts => ∃ us, Spans c ts us) p

namespace Spans

variable {us vs ws ls : List Token} {t u b c : Tree Token} {word : String}

lemma begun {cat : Category} {ts : List (Tree Token)} (h : Spans cat us ts) : Begun cat us :=
  completable ⟨ts, h⟩

lemma move (hw : word ∈ moveWords) (ht : Phrase .expression us t) (hl : LineEnds ls) :
    Spans .command (.keyword word :: (us ++ ls)) [.node (.keyword word) [t]] := by
  intro rest
  rw [List.cons_append, List.append_assoc]
  exact .move hw (ht.longest (hl.clear _ rest)) (hl.lineEnd rest)

lemma namedColor {rgb : Rgb} (hw : (word, rgb) ∈ Rgb.named) (hl : LineEnds ls) :
    Spans .command (.keyword word :: ls) [colorNode rgb] :=
  fun rest => .namedColor hw (hl.lineEnd rest)

lemma color (ht : Phrase .expression us t) (hvs : Clear operators vs)
    (hu : Phrase .expression vs u) (hws : Clear operators ws) (hb : Phrase .expression ws b)
    (hl : LineEnds ls) :
    Spans .command (.keyword "color" :: (us ++ (vs ++ (ws ++ ls))))
      [.node (.keyword "color") [t, u, b]] := by
  intro rest
  simp only [List.cons_append, List.append_assoc]
  exact .color (ht.longest (hvs.append hu.ne_nil _)) (hu.longest (hws.append hb.ne_nil _))
    (hb.longest (hl.clear _ rest)) (hl.lineEnd rest)

lemma bare (hw : word ∈ bareWords) (hl : LineEnds ls) :
    Spans .command (.keyword word :: ls) [.leaf (.keyword word)] :=
  fun rest => .bare hw (hl.lineEnd rest)

lemma jump (ht : Phrase .expression us t) (hvs : Clear operators vs)
    (hu : Phrase .expression vs u) (hl : LineEnds ls) :
    Spans .command (.keyword "jump" :: (us ++ (vs ++ ls))) [.node (.keyword "jump") [t, u]] := by
  intro rest
  simp only [List.cons_append, List.append_assoc]
  exact .jump (ht.longest (hvs.append hu.ne_nil _)) (hu.longest (hl.clear _ rest))
    (hl.lineEnd rest)

lemma assignment {x : Token} (hx : x.kind = .name) (ht : Phrase .expression us t)
    (hl : LineEnds ls) :
    Spans .command (.keyword "set" :: x :: (us ++ ls)) [.node (.keyword "set") [.leaf x, t]] := by
  intro rest
  simp only [List.cons_append, List.append_assoc]
  exact .assignment hx (ht.longest (hl.clear _ rest)) (hl.lineEnd rest)

/-- A block is no part of the expression in front of it. -/
lemma clear_of_block (h : Spans .block us [b]) (rest : List Token) :
    Clear operators (us ++ rest) := by
  have hb := h rest
  generalize us ++ rest = ts at hb
  cases hb
  exact clear_cons.2 (by decide)

/-- What derives from a category and consists of tokens that may complete it. -/
lemma begun_nil {cat : Category} {ts : List (Tree Token)} (h : Spans cat us ts)
    (hus : us ⊆ fillers) : Begun cat [] := ⟨us, hus, ts, h⟩

lemma exists_command {ts : List (Tree Token)} (h : Spans .command us ts) : ∃ t, ts = [t] := by
  have hc := h []
  generalize us ++ [] = whole at hc
  cases hc <;> exact ⟨_, rfl⟩

lemma exists_block {ts : List (Tree Token)} (h : Spans .block us ts) : ∃ t, ts = [t] := by
  have hb := h []
  generalize us ++ [] = whole at hb
  cases hb
  exact ⟨_, rfl⟩

lemma repetition (ht : Phrase .expression us t) (hb : Spans .block vs [b]) :
    Spans .command (.keyword "repeat" :: (us ++ vs)) [.node (.keyword "repeat") [t, b]] := by
  intro rest
  rw [List.cons_append, List.append_assoc]
  exact .repetition (ht.longest (hb.clear_of_block rest)) (hb rest)

lemma whileLoop (ht : Comparison us t) (hb : Spans .block vs [b]) :
    Spans .command (.keyword "while" :: (us ++ vs)) [.node (.keyword "while") [t, b]] := by
  intro rest
  rw [List.cons_append, List.append_assoc]
  exact .whileLoop (ht.condition (hb.clear_of_block rest)) (hb rest)

lemma choice (ht : Comparison us t) (hb : Spans .block vs [b]) :
    Spans .command (.keyword "if" :: (us ++ vs)) [.node (.keyword "if") [t, b]] := by
  intro rest
  rw [List.cons_append, List.append_assoc]
  exact .choice (ht.condition (hb.clear_of_block rest)) (hb rest)

lemma choiceElse (ht : Comparison us t) (hb : Spans .block vs [b]) (hc : Spans .block ws [c]) :
    Spans .command (.keyword "if" :: (us ++ (vs ++ .keyword "else" :: ws)))
      [.node (.keyword "if") [t, b, c]] := by
  intro rest
  simp only [List.cons_append, List.append_assoc]
  exact .choiceElse (ht.condition (hb.clear_of_block _)) (hb _) (hc rest)

lemma call {x : Token} {ts : List (Tree Token)} (hx : x.kind = .name) (hts : Operands us ts)
    (hl : LineEnds ls) :
    Spans .command (.keyword "do" :: x :: (us ++ ls))
      [.node (.keyword "do") [.leaf x, .node (.keyword "list") ts]] := by
  intro rest
  simp only [List.cons_append, List.append_assoc]
  exact .call hx (hts.sequence (.inr (hl.clear _ rest))) (hl.lineEnd rest)

lemma none : Spans .commands [] [] := fun _ => .none

lemma snoc {cs : List (Tree Token)} (hcs : Spans .commands us cs) (hc : Spans .command vs [c]) :
    Spans .commands (us ++ vs) (cs ++ [c]) := by
  intro rest
  rw [List.append_assoc]
  have hrest : Derives .commands (vs ++ rest) rest [c] := .more (hc rest) .none
  have happend : ∀ {cat ts mid ds}, Derives cat ts mid ds → cat = .commands →
      mid = vs ++ rest → Derives .commands ts rest (ds ++ [c]) := by
    intro cat ts mid ds h hcat hmid
    induction h with
    | none => exact hmid ▸ hrest
    | more hc' _ _ ih => exact .more hc' (ih rfl hmid)
    | _ => cases hcat
  exact happend (hcs _) rfl rfl

lemma block {ms : List Token} {cs : List (Tree Token)} (hl : LineEnds ls)
    (hcs : Spans .commands us cs) (hm : LineEnds ms) :
    Spans .block (.symbol "\x7b" :: (ls ++ (us ++ .symbol "\x7d" :: ms)))
      [.node (.keyword "block") cs] := by
  intro rest
  simp only [List.cons_append, List.append_assoc]
  exact .braces (hl.lineEnd _) (hcs _) (hm.lineEnd rest)

end Spans

/-! ## The shortest completions -/

lemma spans_home : Spans .command [.keyword "home", .lineEnd] [.leaf (.keyword "home")] :=
  .bare (by simp [bareWords]) lineEnds_lineEnd

lemma begun_command_nil : Begun .command [] :=
  spans_home.begun_nil (by simp [fillers])

/-- An empty block. -/
def emptyBlock : List Token := [.symbol "\x7b", .lineEnd, .symbol "\x7d", .lineEnd]

lemma spans_emptyBlock : Spans .block emptyBlock [.node (.keyword "block") []] :=
  .block lineEnds_lineEnd .none lineEnds_lineEnd

lemma begun_block_nil : Begun .block [] :=
  spans_emptyBlock.begun_nil (by simp [fillers, emptyBlock])

/-! ## Procedures and scripts -/

/-- The node of a definition. -/
def definitionNode (x : Token) (xs : List Token) (b : Tree Token) : Tree Token :=
  .node (.keyword "def")
    [.node (.keyword "header") [.leaf x, .node (.keyword "list") (xs.map .leaf)], b]

/-- The node of a script. -/
def programNode (cs ds : List (Tree Token)) : Tree Token :=
  .node (.keyword "program") [.node (.keyword "block") cs, .node (.keyword "list") ds]

/-- The span is a definition, whatever follows it. -/
def DefinitionSpan (ts : List Token) (t : Tree Token) : Prop := ∀ rest, Definition (ts ++ rest) rest t

/-- The span consists of definitions, whatever follows it. -/
def DefinitionSpans (ts : List Token) (us : List (Tree Token)) : Prop :=
  ∀ rest, Sequence Definition (ts ++ rest) rest us

/-- The span consists of line ends, if there are any, and commands. -/
def Opening (ts : List Token) (cs : List (Tree Token)) : Prop :=
  ∃ ls us, ts = ls ++ us ∧ (ls = [] ∨ LineEnds ls) ∧ Spans .commands us cs

section Scripts

variable {ts us vs : List Token} {t b : Tree Token} {cs ds : List (Tree Token)}

lemma definitionSpan {x : Token} {xs : List Token} (hx : x.kind = .name)
    (hxs : ∀ y ∈ xs, y.kind = .name) (hb : Spans .block us [b]) :
    DefinitionSpan (.keyword "def" :: x :: (xs ++ us)) (definitionNode x xs b) := by
  intro rest
  simp only [List.cons_append, List.append_assoc]
  exact .definition hx hxs (hb rest)

lemma DefinitionSpans.snoc (h : DefinitionSpans ts ds) (ht : DefinitionSpan us t) :
    DefinitionSpans (ts ++ us) (ds ++ [t]) := by
  intro rest
  rw [List.append_assoc]
  exact (h _).snoc (ht rest)

lemma Opening.snoc (h : Opening ts cs) (ht : Spans .command us [t]) :
    Opening (ts ++ us) (cs ++ [t]) := by
  obtain ⟨ls, vs, rfl, hls, hvs⟩ := h
  exact ⟨ls, vs ++ us, by simp, hls, hvs.snoc ht⟩

lemma Opening.program (h : Opening ts cs) (hne : cs ≠ []) (hds : DefinitionSpans us ds) :
    Program (ts ++ us) (programNode cs ds) := by
  obtain ⟨ls, vs, rfl, hls, hvs⟩ := h
  obtain ⟨c, cs, rfl⟩ := List.exists_cons_of_ne_nil hne
  rw [List.append_assoc]
  refine .script ?_ (hvs us) (by simpa using hds [])
  exact hls.imp (by rintro rfl; rfl) fun hls => hls.lineEnd _

end Scripts

end Grammar

end Logo
