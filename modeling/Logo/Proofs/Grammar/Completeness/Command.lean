import Logo.Proofs.Grammar.Completeness.Expression

/-!
# The rules of commands find every command

Where a command, a row of commands or a block derives, the rule reads it and leaves the trees of the
derivation (`finds`).  Two things have to be known of what follows: it begins on a new line
(`Fresh`), since the rule of line ends takes all of them, and a command is not followed by `else`,
which would belong to it.

A command is found by its first word.  `guarded_forms` lists the words that each form of command
begins with; the forms in front of the right one do not match because their words are others.
-/

namespace Logo

open Grammar

namespace Grammar

/-! ## How much is left -/

section Length

variable {ts mid rest : List Token} {t : Tree Token} {us : List (Tree Token)}

lemma LongestExpression.length_lt (h : LongestExpression ts rest t) : rest.length < ts.length := by
  obtain ⟨vs, rfl, hvs, -⟩ := h
  have hpos := List.length_pos_iff.2 hvs.ne_nil
  rw [List.length_append]
  omega

lemma LineEnd.length_lt (h : LineEnd ts rest) : rest.length < ts.length := by
  obtain ⟨es, hne, -, rfl⟩ := h
  have hpos := List.length_pos_iff.2 hne
  rw [List.length_append]
  omega

lemma Condition.length_lt (h : Condition ts rest t) : rest.length < ts.length := by
  obtain ⟨hl, -, hr⟩ := h
  have hleft := hl.length_lt
  have hright := hr.length_lt
  rw [List.length_cons] at hleft
  omega

lemma Sequence.length_le {P : List Token → List Token → Tree Token → Prop}
    (h : Sequence P ts rest us) (hP : ∀ ts rest t, P ts rest t → rest.length < ts.length) :
    rest.length ≤ ts.length := by
  induction h with
  | nil => exact Nat.le_refl _
  | cons ht _ ih => exact Nat.le_trans ih (Nat.le_of_lt (hP _ _ _ ht))

/-- A lower bound for the number of tokens of a category. -/
def Category.least : Category → Nat
  | .commands => 0
  | .command | .block => 1

lemma Derives.length_add_least_le {c : Category} (h : Derives c ts rest us) :
    rest.length + c.least ≤ ts.length := by
  induction h with
  | move _ ht hend | assignment _ ht hend =>
    have h₁ := ht.length_lt
    have h₂ := hend.length_lt
    simp only [List.length_cons, Category.least]
    omega
  | namedColor _ hend | bare _ hend =>
    have h₁ := hend.length_lt
    simp only [List.length_cons, Category.least]
    omega
  | color hr hg hb hend =>
    have h₁ := hr.length_lt
    have h₂ := hg.length_lt
    have h₃ := hb.length_lt
    have h₄ := hend.length_lt
    simp only [List.length_cons, Category.least]
    omega
  | jump hx hy hend =>
    have h₁ := hx.length_lt
    have h₂ := hy.length_lt
    have h₃ := hend.length_lt
    simp only [List.length_cons, Category.least]
    omega
  | repetition ht _ ih | whileLoop ht _ ih | choice ht _ ih =>
    have h₁ := ht.length_lt
    simp only [List.length_cons, Category.least] at ih ⊢
    omega
  | choiceElse ht _ _ ihb ihc =>
    have h₁ := ht.length_lt
    simp only [List.length_cons, Category.least] at ihb ihc ⊢
    omega
  | call _ hus hend =>
    have h₁ := hus.length_le fun _ _ _ => LongestExpression.length_lt
    have h₂ := hend.length_lt
    simp only [List.length_cons, Category.least]
    omega
  | none => exact Nat.le_refl _
  | more _ _ ihc ihcs => exact Nat.le_trans ihcs (Nat.le_of_succ_le ihc)
  | braces hopen _ hclose ih =>
    have h₁ := hopen.length_lt
    have h₂ := hclose.length_lt
    simp only [List.length_cons, Category.least] at ih ⊢
    omega

lemma Derives.length_le {c : Category} (h : Derives c ts rest us) : rest.length ≤ ts.length :=
  Nat.le_trans (Nat.le_add_right _ _) h.length_add_least_le

lemma Derives.length_lt (h : Derives .command ts rest us) : rest.length < ts.length :=
  h.length_add_least_le

end Length

end Grammar

namespace Step

/-! ## The parts of a command -/

/-- What follows begins a new line: it is neither a line end nor malformed. -/
def Fresh (rest : List Token) : Prop := ∀ x ∈ rest.head?, x.kind ≠ .malformed ∧ x.kind ≠ .eol

lemma fresh_cons {x : Token} {ts : List Token} :
    Fresh (x :: ts) ↔ x.kind ≠ .malformed ∧ x.kind ≠ .eol := by simp [Fresh]

section Parts

variable {ts mid rest : List Token} {st : List (Tree Token)} {t : Tree Token} {limit : Nat}
variable {us : List (Tree Token)}

lemma yields_longest (h : LongestExpression ts rest t) (hrest : Clear operators rest)
    (hlimit : ts.length < limit) (st : List (Tree Token)) :
    Yields (expressionAt limit) (ts, st) true (rest, t :: st) := by
  obtain ⟨us, rfl, hus, -⟩ := h
  exact yields_expressionAt hus hlimit hrest st

lemma misses_lineEnd (h : Fresh ts) : Misses (skip (accept .eol none)) ts :=
  (misses_accept fun x hx => ⟨(h x hx).1, fun hw => (h x hx).2 hw.1⟩).skip

lemma yields_oneLineEnd {e : Token} (he : e.kind = .eol) (ts : List Token)
    (st : List (Tree Token)) :
    Yields (skip (accept .eol none)) (e :: ts, st) true (ts, st) :=
  (yields_accept ⟨he, rfl⟩ (by decide)).skip

/-- All line ends are taken. -/
theorem yields_lineEnd (h : LineEnd ts rest) (hfresh : Fresh rest) (hlimit : ts.length < limit + 1)
    (st : List (Tree Token)) : Yields (lineEnd limit) (ts, st) true (rest, st) := by
  have hmore : ∀ es, (∀ e ∈ es, e.kind = .eol) → ∀ count limit, (es ++ rest).length < limit →
      ∃ n, Yields (countMatches (skip (accept .eol none)) count limit) (es ++ rest, st) n
        (rest, st) := by
    intro es hes
    induction es with
    | nil =>
      intro count limit hlimit
      exact ⟨count, yields_countMatches_done (misses_lineEnd hfresh) count
        (Nat.zero_lt_of_lt hlimit)⟩
    | cons e es ih =>
      intro count limit hlimit
      obtain ⟨limit, rfl⟩ := Nat.exists_eq_succ_of_ne_zero (Nat.ne_of_gt (Nat.zero_lt_of_lt hlimit))
      obtain ⟨n, hn⟩ := ih (fun e' he' => hes e' (List.mem_cons_of_mem _ he')) (count + 1) limit
        (Nat.lt_of_succ_lt_succ hlimit)
      exact ⟨n, yields_countMatches_next (yields_oneLineEnd (hes e (by simp)) _ st) hn⟩
  obtain ⟨es, hne, hes, rfl⟩ := h
  obtain ⟨e, es, rfl⟩ := List.exists_cons_of_ne_nil hne
  obtain ⟨n, hn⟩ := hmore es (fun e' he' => hes e' (List.mem_cons_of_mem _ he')) 0 limit
    (Nat.lt_of_succ_lt_succ hlimit)
  exact (yields_oneLineEnd (hes e (by simp)) _ st).guard (hn.discard.bind (yields_pure true _))

/-- All operands of a call are taken: each is followed by another one or by the end of the line. -/
lemma yields_operands (h : Sequence LongestExpression ts mid us) (hend : LineEnd mid rest)
    (hlimit : ts.length < limit) (count : Nat) {limit' : Nat} (hlimit' : ts.length < limit')
    (st : List (Tree Token)) :
    Yields (countMatches (expressionAt limit) count limit') (ts, st) (count + us.length)
      (mid, us.reverse ++ st) := by
  induction h generalizing count limit' st with
  | nil =>
    obtain ⟨es, hne, hes, rfl⟩ := hend
    obtain ⟨e, es, rfl⟩ := List.exists_cons_of_ne_nil hne
    exact yields_countMatches_done (misses_expressionAt (hes e (by simp)) limit) count
      (Nat.zero_lt_of_lt hlimit')
  | @cons ts next mid t us ht hus ih =>
    have hclear : Clear operators next := by
      cases hus with
      | nil => exact hend.clear
      | cons hu _ => exact ht.clear hu
    have hless := ht.length_lt
    obtain ⟨limit', rfl⟩ := Nat.exists_eq_succ_of_ne_zero (Nat.ne_of_gt (Nat.zero_lt_of_lt hlimit'))
    have hrest := ih hend (by omega) (count + 1)
      (show next.length < limit' by omega) (t :: st)
    simp only [List.length_cons, List.reverse_cons, List.append_assoc, List.singleton_append]
    rw [Nat.add_comm us.length, ← Nat.add_assoc]
    exact yields_countMatches_next (yields_longest ht hclear hlimit st) hrest

lemma yields_condition (h : Condition ts rest t) (hrest : Clear operators rest)
    (hlimit : ts.length < limit) (st : List (Tree Token)) :
    Yields (condition (expressionAt limit)) (ts, st) true (rest, t :: st) := by
  obtain @⟨mid, _, o, l, r, hl, ho, hr⟩ := h
  have hless := hl.length_lt
  refine (yields_longest hl (comparator_clear ho mid) hlimit st).guard ?_
  have hcomparator : Yields comparator (o :: mid, l :: st) true (mid, .leaf o :: l :: st) :=
    yields_symbols ho mid _
  refine hcomparator.require.bind ?_
  rw [List.length_cons] at hless
  have hright := yields_longest hr hrest (show mid.length < limit by omega) (.leaf o :: l :: st)
  exact hright.require.bind ((yields_combine_operation rest o l r st).bind (yields_pure true _))

end Parts

/-! ## The words of commands -/

/-- The next token is none of these keywords. -/
def Unlike (words : List String) (ts : List Token) : Prop :=
  ∀ x ∈ ts.head?, x.kind ≠ .malformed ∧ ∀ word ∈ words, x ≠ .keyword word

/-- The rule matches only in front of one of these keywords. -/
def Guarded (R : Rule) (words : List String) : Prop := ∀ ts, Unlike words ts → Misses R ts

section Words

variable {R body : Rule} {rules : List Rule} {words : List String} {wordss : List (List String)}
variable {word : String} {ts : List Token} {st : List (Tree Token)} {y : View}

lemma unlike_keyword (h : word ∉ words) (ts : List Token) : Unlike words (.keyword word :: ts) := by
  intro x hx
  obtain rfl : Token.keyword word = x := by simpa using hx
  refine ⟨by simp [Token.keyword], ?_⟩
  rintro w hw heq
  obtain rfl : word = w := by simpa [Token.keyword] using heq
  exact h hw

lemma unlike_of_kind {x : Token} (hm : x.kind ≠ .malformed) (hk : x.kind ≠ .keyword) :
    Unlike words (x :: ts) := by
  intro y hy
  obtain rfl : x = y := by simpa using hy
  refine ⟨hm, ?_⟩
  rintro word - rfl
  exact hk rfl

lemma guarded_keyword (word : String) : Guarded (keyword word) [word] := by
  intro ts hts
  refine misses_accept fun x hx => ⟨(hts x hx).1, ?_⟩
  rintro ⟨hkind, htext⟩
  refine (hts x hx).2 word (by simp) ?_
  obtain ⟨kind, text⟩ := x
  obtain rfl : kind = .keyword := hkind
  obtain rfl : word = text := by simpa using htext
  rfl

lemma Guarded.mono {more : List String} (h : Guarded R words) (hsub : words ⊆ more) :
    Guarded R more :=
  fun ts hts => h ts fun x hx => ⟨(hts x hx).1, fun w hw => (hts x hx).2 w (hsub hw)⟩

lemma Guarded.guard (h : Guarded R words) :
    Guarded (R >>= fun matched => if matched = true then body else pure false) words :=
  fun ts hts => (h ts hts).guard

lemma guarded_firstOf (h : ∀ R ∈ rules, Guarded R words) : Guarded (firstOf rules) words :=
  fun ts hts => misses_firstOf fun R hR => h R hR ts hts

/-- The rule at an index is the first that matches if the word in front does not belong to an earlier
one. -/
lemma yields_firstOf_at (h : List.Forall₂ Guarded rules wordss) (i : Nat) (hR : rules[i]? = some R)
    (hword : ∀ words ∈ wordss.take i, word ∉ words)
    (hyields : Yields R (.keyword word :: ts, st) true y) :
    Yields (firstOf rules) (.keyword word :: ts, st) true y := by
  induction h generalizing i with
  | nil => simp at hR
  | cons hfirst _ ih =>
    cases i with
    | zero =>
      obtain rfl := Option.some.inj hR
      exact hyields.bind (yields_pure true _)
    | succ i =>
      have hmiss := hfirst _ (unlike_keyword (hword _ (by simp)) ts) st
      exact hmiss.bind (ih i (by simpa using hR) fun words hwords => hword words (by simp [hwords]))

end Words

section Forms

variable (expression command : Rule) (limit : Nat)

/-- The forms of commands in the order in which they are tried. -/
def forms : List Rule :=
  [move expression limit, colorLine expression limit, bareCommand limit "penup",
    bareCommand limit "pendown", bareCommand limit "home", jump expression limit,
    assignment expression limit, repetition expression command limit,
    whileLoop expression command limit, choice expression command limit, call expression limit]

/-- The words that the forms of commands begin with. -/
def formWords : List (List String) :=
  [moveWords, Rgb.named.map Prod.fst ++ ["color"], ["penup"], ["pendown"], ["home"], ["jump"],
    ["set"], ["repeat"], ["while"], ["if"], ["do"]]

lemma guarded_moveWord : Guarded moveWord moveWords := by
  refine guarded_firstOf fun R hR => ?_
  obtain ⟨word, hword, rfl⟩ := List.mem_map.1 (show R ∈ moveWords.map keyword from hR)
  exact (guarded_keyword word).mono (by simpa using hword)

lemma guarded_color : Guarded (color expression) (Rgb.named.map Prod.fst ++ ["color"]) := by
  have hnamed : Guarded (namedColor Rgb.named) (Rgb.named.map Prod.fst) := by
    rw [namedColor_eq]
    refine guarded_firstOf fun R hR => ?_
    obtain ⟨color, hcolor, rfl⟩ := List.mem_map.1 hR
    have hword : Guarded (keyword color.1) (Rgb.named.map Prod.fst) :=
      (guarded_keyword color.1).mono (by simpa using ⟨color.2, hcolor⟩)
    exact hword.guard.guard
  intro ts hts st
  have hwords := hnamed.mono (List.subset_append_left _ ["color"]) ts hts st
  have hcolor := (guarded_keyword "color").mono
    (List.subset_append_right (Rgb.named.map Prod.fst) ["color"])
  exact hwords.bind (hcolor.guard ts hts st)

/-- Every form of command matches only in front of its own words. -/
theorem guarded_forms : List.Forall₂ Guarded (forms expression command limit) formWords := by
  have hkeyword (word : String) (body : Rule) :
      Guarded (keyword word >>= fun matched => if matched = true then body else pure false)
        [word] := (guarded_keyword word).guard
  exact .cons guarded_moveWord.guard (.cons (guarded_color expression).guard
    (.cons (hkeyword _ _) (.cons (hkeyword _ _) (.cons (hkeyword _ _) (.cons (hkeyword _ _)
      (.cons (hkeyword _ _) (.cons (hkeyword _ _) (.cons (hkeyword _ _) (.cons (hkeyword _ _)
        (.cons (hkeyword _ _) .nil))))))))))

end Forms

/-! ## The forms of commands -/

lemma yields_combine_two (ts : List Token) (o : Token) (l r : Tree Token)
    (st : List (Tree Token)) :
    Yields (combine 3 [2, 1]) (ts, r :: l :: .leaf o :: st) () (ts, .node o [l, r] :: st) :=
  yields_of_stack fun _ h => combine_two h

lemma yields_combine_three (ts : List Token) (o : Token) (r g b : Tree Token)
    (st : List (Tree Token)) :
    Yields (combine 4 [3, 2, 1]) (ts, b :: g :: r :: .leaf o :: st) ()
      (ts, .node o [r, g, b] :: st) :=
  yields_of_stack fun _ h => combine_three h

lemma yields_combineUnder (word : String) (us : List (Tree Token)) (ts : List Token)
    (st : List (Tree Token)) :
    Yields (combineUnder word us.length) (ts, us.reverse ++ st) ()
      (ts, .node (.keyword word) us :: st) :=
  yields_of_stack fun _ h => combineUnder_apply word h

section FormsYield

variable {limit : Nat} {ts mid mid₁ mid₂ mid₃ rest : List Token} {word : String}
variable {t b c : Tree Token} {fault : Fault} {command : Rule} (st : List (Tree Token))

lemma yields_line (hend : LineEnd ts rest) (hrest : Fresh rest) (hlimit : ts.length < limit) :
    Yields (require (lineEnd limit) fault >>= fun _ => pure true) (ts, st) true (rest, st) :=
  (yields_lineEnd hend hrest (Nat.lt_succ_of_lt hlimit) st).require.bind (yields_pure true _)

lemma yields_move (hw : word ∈ moveWords) (ht : LongestExpression ts mid t)
    (hend : LineEnd mid rest) (hrest : Fresh rest) (hlimit : ts.length < limit) :
    Yields (move (expressionAt limit) limit) (.keyword word :: ts, st) true
      (rest, .node (.keyword word) [t] :: st) := by
  have hless := ht.length_lt
  have hword : Yields moveWord (.keyword word :: ts, st) true (ts, .leaf (.keyword word) :: st) :=
    yields_texts (show (Token.keyword word).kind = .keyword from rfl) (by decide) hw ts st
  exact hword.guard ((yields_longest ht hend.clear hlimit _).require.bind
    ((yields_combine_one mid _ t st).bind (yields_line _ hend hrest (by omega))))

/-- A name of a color is found behind the names of other colors. -/
lemma yields_colorName {colors : List (String × Rgb)} {rgb : Rgb}
    (hnodup : (colors.map Prod.fst).Nodup) (hw : (word, rgb) ∈ colors) :
    Yields (firstOf (colors.map colorName)) (.keyword word :: ts, st) true
      (ts, colorNode rgb :: st) := by
  induction colors with
  | nil => exact absurd hw List.not_mem_nil
  | cons color colors ih =>
    rw [List.map_cons, List.nodup_cons] at hnodup
    rcases List.mem_cons.1 hw with rfl | hmem
    · have hcolor : Yields (colorName (word, rgb)) (.keyword word :: ts, st) true
          (ts, colorNode rgb :: st) :=
        (yields_keyword word ts st).skip.guard ((yields_push _ ts st).bind (yields_pure true _))
      exact hcolor.bind (yields_pure true _)
    · have hother : word ∉ [color.1] := by
        rw [List.mem_singleton]
        rintro rfl
        exact hnodup.1 (List.mem_map.2 ⟨_, hmem, rfl⟩)
      have hmiss : Misses (colorName color) (.keyword word :: ts) :=
        (guarded_keyword color.1 _ (unlike_keyword hother ts)).skip.guard
      exact (hmiss st).bind (ih hnodup.2 hmem)

lemma yields_namedColor {rgb : Rgb} (hw : (word, rgb) ∈ Rgb.named) (hend : LineEnd ts rest)
    (hrest : Fresh rest) (hlimit : ts.length < limit) :
    Yields (colorLine (expressionAt limit) limit) (.keyword word :: ts, st) true
      (rest, colorNode rgb :: st) := by
  have hname : Yields (namedColor Rgb.named) (.keyword word :: ts, st) true
      (ts, colorNode rgb :: st) := by
    rw [namedColor_eq]
    exact yields_colorName st (by decide) hw
  have hcolor : Yields (color (expressionAt limit)) (.keyword word :: ts, st) true
      (ts, colorNode rgb :: st) := hname.bind (yields_pure true _)
  exact hcolor.guard (yields_line _ hend hrest hlimit)

lemma yields_color {r g b : Tree Token} (hr : LongestExpression ts mid₁ r)
    (hg : LongestExpression mid₁ mid₂ g) (hb : LongestExpression mid₂ mid₃ b)
    (hend : LineEnd mid₃ rest) (hrest : Fresh rest) (hlimit : ts.length < limit) :
    Yields (colorLine (expressionAt limit) limit) (.keyword "color" :: ts, st) true
      (rest, .node (.keyword "color") [r, g, b] :: st) := by
  have h₁ := hr.length_lt
  have h₂ := hg.length_lt
  have h₃ := hb.length_lt
  have hmiss : Misses (namedColor Rgb.named) (.keyword "color" :: ts) := by
    rw [namedColor_eq]
    refine misses_firstOf fun R hR => ?_
    obtain ⟨color, hcolor, rfl⟩ := List.mem_map.1 hR
    have hother : ∀ color ∈ Rgb.named, "color" ∉ [color.1] := by decide
    exact (guarded_keyword color.1 _ (unlike_keyword (hother color hcolor) ts)).skip.guard
  have hcolor : Yields (color (expressionAt limit)) (.keyword "color" :: ts, st) true
      (mid₃, .node (.keyword "color") [r, g, b] :: st) :=
    (hmiss st).bind ((yields_keyword "color" ts st).guard
      ((yields_longest hr (hr.clear hg) hlimit _).require.bind
        ((yields_longest hg (hg.clear hb) (by omega) _).require.bind
          ((yields_longest hb hend.clear (by omega) _).require.bind
            ((yields_combine_three mid₃ _ r g b st).bind (yields_pure true _))))))
  exact hcolor.guard (yields_line _ hend hrest (by omega))

lemma yields_bare (hend : LineEnd ts rest) (hrest : Fresh rest) (hlimit : ts.length < limit) :
    Yields (bareCommand limit word) (.keyword word :: ts, st) true
      (rest, .leaf (.keyword word) :: st) :=
  (yields_keyword word ts st).guard (yields_line _ hend hrest hlimit)

lemma yields_jump {x y : Tree Token} (hx : LongestExpression ts mid₁ x)
    (hy : LongestExpression mid₁ mid₂ y) (hend : LineEnd mid₂ rest) (hrest : Fresh rest)
    (hlimit : ts.length < limit) :
    Yields (jump (expressionAt limit) limit) (.keyword "jump" :: ts, st) true
      (rest, .node (.keyword "jump") [x, y] :: st) := by
  have h₁ := hx.length_lt
  have h₂ := hy.length_lt
  exact (yields_keyword "jump" ts st).guard
    ((yields_longest hx (hx.clear hy) hlimit _).require.bind
      ((yields_longest hy hend.clear (by omega) _).require.bind
        ((yields_combine_two mid₂ _ x y st).bind (yields_line _ hend hrest (by omega)))))

lemma yields_assignment {x : Token} (hx : x.kind = .name) (ht : LongestExpression ts mid t)
    (hend : LineEnd mid rest) (hrest : Fresh rest) (hlimit : ts.length < limit) :
    Yields (assignment (expressionAt limit) limit) (.keyword "set" :: x :: ts, st) true
      (rest, .node (.keyword "set") [.leaf x, t] :: st) := by
  have hless := ht.length_lt
  exact (yields_keyword "set" _ st).guard ((yields_name hx ts _).require.bind
    ((yields_longest ht hend.clear hlimit _).require.bind
      ((yields_combine_two mid _ _ t st).bind (yields_line _ hend hrest (by omega)))))

lemma yields_call {x : Token} {us : List (Tree Token)} (hx : x.kind = .name)
    (hus : Sequence LongestExpression ts mid us) (hend : LineEnd mid rest) (hrest : Fresh rest)
    (hlimit : ts.length < limit) :
    Yields (call (expressionAt limit) limit) (.keyword "do" :: x :: ts, st) true
      (rest, .node (.keyword "do") [.leaf x, .node (.keyword "list") us] :: st) := by
  have hless := hus.length_le fun _ _ _ => LongestExpression.length_lt
  have hoperands := yields_operands hus hend hlimit 0 hlimit (.leaf x :: .leaf (.keyword "do") :: st)
  rw [Nat.zero_add] at hoperands
  exact (yields_keyword "do" _ st).guard ((yields_name hx ts _).require.bind
    (hoperands.bind ((yields_combineUnder "list" us mid _).bind
      ((yields_combine_two mid _ _ _ st).bind (yields_line _ hend hrest (by omega))))))

/-- A block does not go on with the expression in front of it. -/
lemma clear_block {us : List (Tree Token)} (h : Derives .block ts rest us) :
    Clear operators ts := by
  cases h
  exact clear_cons.2 (by decide)

lemma yields_repetition (ht : LongestExpression ts mid t) (hblock : Derives .block mid rest [b])
    (hlimit : ts.length < limit)
    (hb : ∀ st, Yields (block command limit) (mid, st) true (rest, b :: st)) :
    Yields (repetition (expressionAt limit) command limit) (.keyword "repeat" :: ts, st) true
      (rest, .node (.keyword "repeat") [t, b] :: st) :=
  (yields_keyword "repeat" ts st).guard
    ((yields_longest ht (clear_block hblock) hlimit _).require.bind
      ((hb _).require.bind ((yields_combine_two rest _ t b st).bind (yields_pure true _))))

lemma yields_whileLoop (ht : Condition ts mid t) (hblock : Derives .block mid rest [b])
    (hlimit : ts.length < limit)
    (hb : ∀ st, Yields (block command limit) (mid, st) true (rest, b :: st)) :
    Yields (whileLoop (expressionAt limit) command limit) (.keyword "while" :: ts, st) true
      (rest, .node (.keyword "while") [t, b] :: st) :=
  (yields_keyword "while" ts st).guard
    ((yields_condition ht (clear_block hblock) hlimit _).require.bind
      ((hb _).require.bind ((yields_combine_two rest _ t b st).bind (yields_pure true _))))

lemma yields_choice (ht : Condition ts mid t) (hblock : Derives .block mid rest [b])
    (hrest : Unlike ["else"] rest) (hlimit : ts.length < limit)
    (hb : ∀ st, Yields (block command limit) (mid, st) true (rest, b :: st)) :
    Yields (choice (expressionAt limit) command limit) (.keyword "if" :: ts, st) true
      (rest, .node (.keyword "if") [t, b] :: st) :=
  (yields_keyword "if" ts st).guard
    ((yields_condition ht (clear_block hblock) hlimit _).require.bind ((hb _).require.bind
      (((guarded_keyword "else" rest hrest).skip _).bind
        ((yields_combine_two rest _ t b st).bind (yields_pure true _)))))

lemma yields_choiceElse (ht : Condition ts mid₁ t)
    (hblock : Derives .block mid₁ (.keyword "else" :: mid₂) [b]) (hlimit : ts.length < limit)
    (hb : ∀ st, Yields (block command limit) (mid₁, st) true (.keyword "else" :: mid₂, b :: st))
    (hc : ∀ st, Yields (block command limit) (mid₂, st) true (rest, c :: st)) :
    Yields (choice (expressionAt limit) command limit) (.keyword "if" :: ts, st) true
      (rest, .node (.keyword "if") [t, b, c] :: st) :=
  (yields_keyword "if" ts st).guard
    ((yields_condition ht (clear_block hblock) hlimit _).require.bind ((hb _).require.bind
      ((yields_keyword "else" mid₂ _).skip.bind ((hc _).require.bind
        ((yields_combine_three rest _ t b c st).bind (yields_pure true _))))))

end FormsYield

/-! ## Tying the knot -/

section Finds

variable {limit : Nat} {ts mid after rest : List Token} {cs us : List (Tree Token)}
variable {command : Rule} {word : String}

lemma yields_block (hopen : LineEnd ts mid) (hmid : Fresh mid) (hclose : LineEnd after rest)
    (hrest : Fresh rest) (hlimit : ts.length < limit) (hafter : after.length < limit)
    (hcs : ∀ st, Yields (countMatches command 0 limit) (mid, st) cs.length
      (.symbol "\x7d" :: after, cs.reverse ++ st)) (st : List (Tree Token)) :
    Yields (block command limit) (.symbol "\x7b" :: ts, st) true
      (rest, .node (.keyword "block") cs :: st) :=
  (yields_symbol "\x7b" ts st).skip.guard
    ((yields_lineEnd hopen hmid (Nat.lt_succ_of_lt hlimit) st).require.bind ((hcs st).bind
      ((yields_symbol "\x7d" after _).skip.require.bind
        ((yields_lineEnd hclose hrest (Nat.lt_succ_of_lt hafter) _).require.bind
          ((yields_combineUnder "block" cs rest st).bind (yields_pure true _))))))

/-- The words that begin a command. -/
def commandWords : List String := formWords.flatten

lemma misses_forms {rules : List Rule} {wordss : List (List String)}
    (h : List.Forall₂ Guarded rules wordss) (hts : Unlike wordss.flatten ts) :
    Misses (firstOf rules) ts := by
  induction h with
  | nil => exact fun st => yields_pure false _
  | @cons R words rules wordss hR _ ih =>
    have hfirst : Unlike words ts := fun x hx =>
      ⟨(hts x hx).1, fun word hword => (hts x hx).2 word (by simp [hword])⟩
    have hothers : Unlike wordss.flatten ts := fun x hx =>
      ⟨(hts x hx).1, fun word hword => (hts x hx).2 word (List.mem_append_right _ hword)⟩
    exact fun st => (hR ts hfirst st).bind (ih hothers st)

/-- No command begins here. -/
theorem misses_commandAt (h : Unlike commandWords ts) (limit : Nat) :
    Misses (commandAt limit) ts := by
  cases limit with
  | zero => exact fun st => yields_pure false _
  | succ limit => exact misses_forms (guarded_forms (expressionAt limit) (commandAt limit) limit) h

/-- A command is found at the index of its form. -/
lemma yields_form {R : Rule} {st : List (Tree Token)} {y : View} (i : Nat)
    (hword : ∀ words ∈ formWords.take i, word ∉ words)
    (hR : (forms (expressionAt limit) (commandAt limit) limit)[i]? = some R)
    (hyields : Yields R (.keyword word :: ts, st) true y) :
    Yields (commandAt (limit + 1)) (.keyword word :: ts, st) true y :=
  yields_firstOf_at (guarded_forms (expressionAt limit) (commandAt limit) limit) i hR hword hyields

lemma head_of_command (h : Derives .command ts rest us) :
    ∃ word ts', ts = .keyword word :: ts' ∧ word ∈ commandWords := by
  have hmove : ∀ word ∈ moveWords, word ∈ commandWords := by decide
  have hnamed : ∀ color ∈ Rgb.named, color.1 ∈ commandWords := by decide
  have hbare : ∀ word ∈ bareWords, word ∈ commandWords := by decide
  cases h with
  | move hw => exact ⟨_, _, rfl, hmove _ hw⟩
  | namedColor hw => exact ⟨_, _, rfl, hnamed _ hw⟩
  | bare hw => exact ⟨_, _, rfl, hbare _ hw⟩
  | color | jump | assignment | repetition | whileLoop | choice | choiceElse | call =>
    exact ⟨_, _, rfl, by decide⟩

/-- Commands do not begin with a line end, nor with `else`. -/
lemma fresh_of_commands (h : Derives .commands ts rest us) (hrest : Fresh rest)
    (helse : Unlike ["else"] rest) : Fresh ts ∧ Unlike ["else"] ts := by
  cases h with
  | none => exact ⟨hrest, helse⟩
  | more hc _ =>
    obtain ⟨word, ts', rfl, hword⟩ := head_of_command hc
    refine ⟨fresh_cons.2 ⟨by simp [Token.keyword], by simp [Token.keyword]⟩, unlike_keyword ?_ ts'⟩
    rw [List.mem_singleton]
    rintro rfl
    exact absurd hword (by decide)

/-- What the rule of a category does where the category derives. -/
def Finds (c : Category) (ts rest : List Token) (us : List (Tree Token)) : Prop :=
  ∀ limit, ts.length < limit → Fresh rest →
    match c with
    | .command => Unlike ["else"] rest →
      ∀ st, Yields (commandAt limit) (ts, st) true (rest, us.reverse ++ st)
    | .commands => Unlike ["else"] rest → Unlike commandWords rest →
      ∀ count limit' st, ts.length < limit' →
        Yields (countMatches (commandAt limit) count limit') (ts, st) (count + us.length)
          (rest, us.reverse ++ st)
    | .block => ∀ st, Yields (block (commandAt limit) limit) (ts, st) true (rest, us.reverse ++ st)

/-- A command is read with a limit that exceeds the number of tokens behind its word. -/
lemma finds_command {x : Token} {t : Tree Token}
    (h : ∀ limit, ts.length < limit → Fresh rest → Unlike ["else"] rest → ∀ st,
      Yields (commandAt (limit + 1)) (x :: ts, st) true (rest, t :: st)) :
    Finds .command (x :: ts) rest [t] := by
  intro limit hlimit hrest helse st
  obtain ⟨limit, rfl⟩ := Nat.exists_eq_succ_of_ne_zero (Nat.ne_of_gt (Nat.zero_lt_of_lt hlimit))
  exact h limit (Nat.lt_of_succ_lt_succ hlimit) hrest helse st

theorem finds {c : Category} (h : Derives c ts rest us) : Finds c ts rest us := by
  induction h with
  | move hw ht hend =>
    exact finds_command fun limit hlimit hrest _ st =>
      yields_form 0 (by simp) rfl (yields_move st hw ht hend hrest hlimit)
  | @namedColor word rgb _ _ hw hend =>
    have hother : ∀ color ∈ Rgb.named, ∀ words ∈ formWords.take 1, color.1 ∉ words := by decide
    exact finds_command fun limit hlimit hrest _ st =>
      yields_form 1 (hother _ hw) rfl (yields_namedColor st hw hend hrest hlimit)
  | color hr hg hb hend =>
    exact finds_command fun limit hlimit hrest _ st =>
      yields_form 1 (by decide) rfl (yields_color st hr hg hb hend hrest hlimit)
  | bare hw hend =>
    refine finds_command fun limit hlimit hrest _ st => ?_
    have hbare (word : String) : Yields (bareCommand limit word) _ true _ :=
      yields_bare st hend hrest hlimit
    simp only [bareWords, List.mem_cons, List.not_mem_nil, or_false] at hw
    rcases hw with rfl | rfl | rfl
    · exact yields_form 2 (by decide) rfl (hbare _)
    · exact yields_form 3 (by decide) rfl (hbare _)
    · exact yields_form 4 (by decide) rfl (hbare _)
  | jump hx hy hend =>
    exact finds_command fun limit hlimit hrest _ st =>
      yields_form 5 (by decide) rfl (yields_jump st hx hy hend hrest hlimit)
  | assignment hx ht hend =>
    exact finds_command fun limit hlimit hrest _ st =>
      yields_form 6 (by decide) rfl (yields_assignment st hx ht hend hrest (Nat.lt_of_succ_lt hlimit))
  | repetition ht hb ih =>
    refine finds_command fun limit hlimit hrest _ st => ?_
    have hblock := ih limit (Nat.lt_trans ht.length_lt hlimit) hrest
    exact yields_form 7 (by decide) rfl (yields_repetition st ht hb hlimit hblock)
  | whileLoop ht hb ih =>
    refine finds_command fun limit hlimit hrest _ st => ?_
    have hblock := ih limit (Nat.lt_trans ht.length_lt hlimit) hrest
    exact yields_form 8 (by decide) rfl (yields_whileLoop st ht hb hlimit hblock)
  | choice ht hb ih =>
    refine finds_command fun limit hlimit hrest helse st => ?_
    have hblock := ih limit (Nat.lt_trans ht.length_lt hlimit) hrest
    exact yields_form 9 (by decide) rfl (yields_choice st ht hb helse hlimit hblock)
  | choiceElse ht hb hc ihb ihc =>
    refine finds_command fun limit hlimit hrest _ st => ?_
    have hless := Nat.lt_trans ht.length_lt hlimit
    have hless' := Nat.lt_of_succ_lt (Nat.lt_of_le_of_lt hb.length_le hless)
    have hfirst := ihb limit hless (fresh_cons.2 (by decide))
    have hsecond := ihc limit hless' hrest
    exact yields_form 9 (by decide) rfl (yields_choiceElse st ht hb hlimit hfirst hsecond)
  | call hx hus hend =>
    exact finds_command fun limit hlimit hrest _ st =>
      yields_form 10 (by decide) rfl (yields_call st hx hus hend hrest (Nat.lt_of_succ_lt hlimit))
  | none =>
    intro limit _ _ _ hwords count limit' st hlimit'
    exact yields_countMatches_done (misses_commandAt hwords limit) count
      (Nat.zero_lt_of_lt hlimit')
  | @more ts mid rest c cs hc hcs ihc ihcs =>
    intro limit hlimit hrest helse hwords count limit' st hlimit'
    obtain ⟨hmid, helse'⟩ := fresh_of_commands hcs hrest helse
    have hless := hc.length_lt
    obtain ⟨limit', rfl⟩ := Nat.exists_eq_succ_of_ne_zero (Nat.ne_of_gt (Nat.zero_lt_of_lt hlimit'))
    have hmore := ihcs limit (by omega) hrest helse hwords (count + 1) limit' (c :: st) (by omega)
    simp only [List.length_cons, List.reverse_cons, List.append_assoc, List.singleton_append]
    rw [Nat.add_comm cs.length, ← Nat.add_assoc]
    exact yields_countMatches_next (ihc limit hlimit hmid helse' st) hmore
  | @braces ts mid after rest cs hopen hcs hclose ih =>
    intro limit hlimit hrest st
    have hbrace : Fresh (.symbol "\x7d" :: after) := fresh_cons.2 (by decide)
    have hunlike (words : List String) : Unlike words (.symbol "\x7d" :: after) :=
      unlike_of_kind (by decide) (by decide)
    have hmid := (fresh_of_commands hcs hbrace (hunlike _)).1
    have h₁ := hopen.length_lt
    have h₂ := hcs.length_le
    simp only [List.length_cons] at hlimit h₂
    refine yields_block hopen hmid hclose hrest (by omega) (by omega) (fun st => ?_) st
    have hcommands := ih limit (by omega) hbrace (hunlike _) (hunlike _) 0 limit st (by omega)
    rwa [Nat.zero_add] at hcommands

end Finds

end Step

end Logo
