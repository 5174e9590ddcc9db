import Logo.Proofs.Grammar.Soundness.Expression

/-!
# What the rules of commands read

A command ends its line, so what its rule consumes derives in front of anything (`CommandRead`), and
where the rule fails, the tokens it consumed begin some command (`Begun`).  The same is said of
blocks, with the categories exchanged.

Every command begins with a word and then lists what has to follow.  `meets_operand`, `meets_block`
and `meets_line` are one step each of that list: an expression, a block, and the end of the line.
The caller only shows how the command looks with that part in its place.
-/

namespace Logo

namespace Step

open Assembly Grammar

/-- One tree was built, which is a command over the tokens consumed. -/
def CommandRead (c _rest : List Token) (trees : List (Tree Token)) : Prop :=
  ∃ t, trees = [t] ∧ Spans .command c [t]

/-- One tree was built, which is a block over the tokens consumed. -/
def BlockRead (c _rest : List Token) (trees : List (Tree Token)) : Prop :=
  ∃ t, trees = [t] ∧ Spans .block c [t]

/-- A rule reads commands. -/
abbrev ReadsCommand (R : Rule) (bound : Nat) : Prop :=
  Reads R bound CommandRead (Begun .command)

/-- A rule reads blocks. -/
abbrev ReadsBlock (R : Rule) (bound : Nat) : Prop := Reads R bound BlockRead (Begun .block)

/-! ## Words and line ends -/

section Words

variable {V : List Token → Prop}

lemma reads_keyword (hV : V []) (word : String) (bound : Nat) :
    Reads (keyword word) bound
      (fun c _ trees => c = [.keyword word] ∧ trees = [.leaf (.keyword word)]) V := by
  refine (reads_accept .keyword (some word) hV).mono ?_ (fun _ hp => hp)
  rintro c rest trees ⟨⟨kind, text⟩, ⟨hkind, htext⟩, rfl, rfl⟩
  obtain rfl : kind = .keyword := hkind
  obtain rfl : word = text := by simpa using htext
  exact ⟨rfl, rfl⟩

lemma reads_skip_keyword (hV : V []) (word : String) (bound : Nat) :
    Reads (skip (keyword word)) bound (fun c _ trees => c = [.keyword word] ∧ trees = []) V := by
  refine ((reads_keyword hV word bound).skip fun c rest trees h => ⟨_, h.2⟩).mono ?_ fun _ hp => hp
  rintro c rest trees ⟨rfl, t, hc, -⟩
  exact ⟨hc, rfl⟩

lemma reads_name (hV : V []) (bound : Nat) :
    Reads name bound (fun c _ trees => ∃ x, x.kind = .name ∧ c = [x] ∧ trees = [.leaf x]) V := by
  refine (reads_accept .name none hV).mono ?_ (fun _ hp => hp)
  rintro c rest trees ⟨x, hx, hc, htrees⟩
  exact ⟨x, hx.1, hc, htrees⟩

lemma reads_firstOf_keywords (hV : V []) {words : List String} (hne : words ≠ []) (bound : Nat) :
    Reads (firstOf (words.map keyword)) bound
      (fun c _ trees => ∃ word ∈ words, c = [.keyword word] ∧ trees = [.leaf (.keyword word)])
      V := by
  refine reads_firstOf (by simpa using hne) fun R hR => ?_
  obtain ⟨word, hword, rfl⟩ := List.mem_map.1 hR
  exact (reads_keyword hV word bound).mono (fun c rest trees h => ⟨word, hword, h⟩) fun _ hp => hp

lemma reads_oneLineEnd (hV : V []) (bound : Nat) :
    Reads (skip (accept .eol none)) bound (fun c _ trees => LineEnds c ∧ trees = []) V := by
  refine ((reads_accept .eol none hV).skip ?_).mono ?_ fun _ hp => hp
  · rintro c rest trees ⟨x, -, -, rfl⟩
    exact ⟨_, rfl⟩
  · rintro c rest trees ⟨rfl, t, x, hx, rfl, -⟩
    exact ⟨⟨by simp, by simpa using hx.1⟩, rfl⟩

/-- The rule of line ends takes all of them.  It can only fail at a malformed literal, so the tokens
it consumed before that are line ends too. -/
theorem reads_lineEnd (limit : Nat) :
    Reads (lineEnd limit) (limit + 1) (fun c _ trees => LineEnds c ∧ trees = [])
      (fun p => ∀ e ∈ p, e.kind = .eol) := by
  refine (reads_oneLineEnd (by simp) (limit + 1)).guard ?_
  rintro a b c trees hadv ⟨hc, rfl⟩ - hb
  refine meets_bind.2 (meets_discard.2 ?_)
  have hmore := reads_oneLineEnd (V := (· = [])) rfl (limit + 1)
  refine (hmore.countMatches (I := fun _ c _ trees => LineEnds c ∧ trees = []) ?_ ?_ 0 limit hadv
    ⟨hc, rfl⟩ (by omega) (by omega)).mono ?_ fun _ _ he => he
  · rintro n c c' rest trees new ⟨hc, rfl⟩ ⟨hc', rfl⟩
    refine ⟨⟨by simp [hc.1], fun e he => ?_⟩, rfl⟩
    exact (List.mem_append.1 he).elim (hc.2 e) (hc'.2 e)
  · rintro n c rest trees p ⟨hc, -⟩ - rfl
    simpa using hc.2
  · rintro n d ⟨c', trees', hadv', hI, -, -⟩
    exact ⟨c', trees', hadv', by simpa using hI.1.1, hI⟩

end Words

/-! ## The parts of a command -/

section Parts

variable {expression command : Rule} {limit : Nat} {fault : Fault} {a b : Assembly}
variable {c : List (Token × Nat)} {trees : List (Tree Token)}
variable {β : Type} {f : Unit → Step β} {Q : β → Assembly → Prop}

/-- An operand of a command.  It does not go on with what stands before it, if the latter was read
up to where no operator follows. -/
lemma meets_operand (hinner : ReadsPhrase expression limit .expression)
    (hadv : Advanced a c trees b) (hb : b.ahead.length < limit)
    (hwith : ∀ us t, Phrase .expression us t →
      (Clear operators b.tokens → Clear operators us) → Begun .command (c.map Prod.fst ++ us))
    (hthen : ∀ c' t d, Advanced a (c ++ c') (t :: trees) d →
      Phrase .expression (c'.map Prod.fst) t →
      (Clear operators b.tokens → Clear operators (c'.map Prod.fst)) → Clear operators d.tokens →
      d.ahead.length < limit → Meets (f ()) d Q (Strays a (Begun .command))) :
    Meets (require expression fault >>= f) b Q (Strays a (Begun .command)) := by
  refine hinner.require_then (begins_of_zero phrase_zero) hadv hb ?_ ?_
  · rintro p hp ⟨q, t, hq, ht, hclear⟩
    have hwhole := hwith _ _ ht fun hb' => Begins.clear hb' hp hclear
    rw [← List.append_assoc] at hwhole
    exact Completable.of_append hwhole hq
  · rintro c' _ d h ⟨t, rfl, ht, hclear⟩ hless
    refine hthen c' t d h ht (fun hb' => ?_) hclear (by omega)
    obtain ⟨x, us, hus⟩ := List.exists_cons_of_ne_nil ht.ne_nil
    rw [hadv.tokens_between h, hus] at hb'
    rw [hus]
    exact clear_cons.2 (clear_cons.1 hb')

/-- A block as a part of something else. -/
lemma meets_block {R : Rule} {S : List Token → Prop} (hblock : ReadsBlock R limit)
    (hadv : Advanced a c trees b) (hb : b.ahead.length < limit)
    (hwith : ∀ us t, Spans .block us [t] → S (c.map Prod.fst ++ us))
    (hthen : ∀ c' t d, Advanced a (c ++ c') (t :: trees) d → Spans .block (c'.map Prod.fst) [t] →
      d.ahead.length < limit → Meets (f ()) d Q (Strays a (Completable S))) :
    Meets (require R fault >>= f) b Q (Strays a (Completable S)) := by
  refine hblock.require_then begun_block_nil hadv hb ?_ ?_
  · rintro p - ⟨q, hq, ts, hts⟩
    obtain ⟨t, rfl⟩ := hts.exists_block
    exact ⟨q, hq, by simpa using hwith _ _ hts⟩
  · rintro c' _ d h ⟨t, rfl, ht⟩ hless
    exact hthen c' t d h ht (by omega)

/-- The end of a command that ends its line. -/
lemma meets_line {t : Tree Token} (hadv : Advanced a c [t] b) (hb : b.ahead.length < limit + 1)
    (hspans : ∀ ls, LineEnds ls → Spans .command (c.map Prod.fst ++ ls) [t]) :
    Meets (require (lineEnd limit) fault >>= fun _ => pure true) b (Answers a CommandRead)
      (Strays a (Begun .command)) := by
  refine (reads_lineEnd limit).require_then (by simp) hadv hb ?_ ?_
  · rintro p - hp
    have hwhole := (hspans _ (lineEnds_append hp)).begun
    rw [← List.append_assoc] at hwhole
    exact hwhole.of_append (by simp [fillers])
  · rintro c' _ d h ⟨hc', rfl⟩ -
    refine ⟨c ++ c', [t], h, ?_, t, rfl, by simpa using hspans _ hc'⟩
    simpa using fun _ => hc'.1

end Parts

/-! ## Commands on one line -/

section Lines

variable {expression : Rule} {limit : Nat}

lemma reads_move (hinner : ReadsPhrase expression limit .expression) :
    ReadsCommand (move expression limit) (limit + 1) := by
  have hwords := reads_firstOf_keywords begun_command_nil (by decide : moveWords ≠ []) (limit + 1)
  refine hwords.guard ?_
  rintro a b c _ hadv ⟨word, hword, hc, rfl⟩ - hb
  refine meets_operand hinner hadv (by omega) (fun us t ht _ => ?_) ?_
  · have hspans := (Spans.move hword ht lineEnds_lineEnd).begun
    exact Completable.of_append (q := [.lineEnd]) (by simpa [hc] using hspans) (by simp [fillers])
  · intro c' t d h ht _ _ hd
    refine meets_bind.2 (meets_of_ok (combine_one h.stack) ?_)
    refine meets_line (h.withStack rfl) (Nat.lt_succ_of_lt hd) fun ls hls => ?_
    simpa [hc] using Spans.move hword ht hls

lemma reads_bareCommand {word : String} (hword : word ∈ bareWords) :
    ReadsCommand (bareCommand limit word) (limit + 1) := by
  refine (reads_keyword begun_command_nil word (limit + 1)).guard ?_
  rintro a b c _ hadv ⟨hc, rfl⟩ - hb
  refine meets_line hadv (by omega) fun ls hls => ?_
  simpa [hc] using Spans.bare hword hls

lemma reads_jump (hinner : ReadsPhrase expression limit .expression) :
    ReadsCommand (jump expression limit) (limit + 1) := by
  refine (reads_keyword begun_command_nil "jump" (limit + 1)).guard ?_
  rintro a b c _ hadv ⟨hc, rfl⟩ - hb
  refine meets_operand hinner hadv (by omega) (fun us t ht _ => ?_) ?_
  · have hspans := (Spans.jump ht (clear_zero _ []) phrase_zero lineEnds_lineEnd).begun
    exact Completable.of_append (q := [zero, .lineEnd]) (by simpa [hc] using hspans) (by simp [fillers])
  intro c₁ x b₁ h₁ hx _ hstop₁ hb₁
  refine meets_operand hinner h₁ hb₁ (fun us t ht hclear => ?_) ?_
  · have hspans := (Spans.jump hx (hclear hstop₁) ht lineEnds_lineEnd).begun
    exact Completable.of_append (q := [.lineEnd]) (by simpa [hc] using hspans) (by simp [fillers])
  intro c₂ y b₂ h₂ hy hclear₂ _ hb₂
  refine meets_bind.2 (meets_of_ok (combine_two h₂.stack) ?_)
  refine meets_line (h₂.withStack rfl) (Nat.lt_succ_of_lt hb₂) fun ls hls => ?_
  simpa [hc] using Spans.jump hx (hclear₂ hstop₁) hy hls

lemma reads_assignment (hinner : ReadsPhrase expression limit .expression) :
    ReadsCommand (assignment expression limit) (limit + 1) := by
  refine (reads_keyword begun_command_nil "set" (limit + 1)).guard ?_
  rintro a b c _ hadv ⟨hc, rfl⟩ - hb
  have hzero {x : Token} (hx : x.kind = .name) :=
    (Spans.assignment hx phrase_zero lineEnds_lineEnd).begun
  refine (reads_name (V := (· = [])) rfl limit).require_then rfl hadv (by omega) ?_ ?_
  · rintro p - rfl
    exact Completable.of_append (q := [anyName, zero, .lineEnd])
      (by simpa [hc] using hzero (x := anyName) rfl) (by simp [fillers])
  rintro c₁ _ b₁ h₁ ⟨x, hx, hc₁, rfl⟩ hb₁
  refine meets_operand hinner h₁ (by omega) (fun us t ht _ => ?_) ?_
  · have hspans := (Spans.assignment hx ht lineEnds_lineEnd).begun
    exact Completable.of_append (q := [.lineEnd]) (by simpa [hc, hc₁] using hspans) (by simp [fillers])
  intro c₂ t b₂ h₂ ht _ _ hb₂
  refine meets_bind.2 (meets_of_ok (combine_two h₂.stack) ?_)
  refine meets_line (h₂.withStack rfl) (Nat.lt_succ_of_lt hb₂) fun ls hls => ?_
  simpa [hc, hc₁] using Spans.assignment hx ht hls

/-- One tree was built, which is the color of a command over the tokens consumed and a line end. -/
def ColorRead (c _rest : List Token) (trees : List (Tree Token)) : Prop :=
  ∃ t, trees = [t] ∧ ∀ ls, LineEnds ls → Spans .command (c ++ ls) [t]

lemma reads_colorName {color : String × Rgb} (hcolor : color ∈ Rgb.named) (bound : Nat) :
    Reads (colorName color) bound ColorRead (Begun .command) := by
  obtain ⟨word, rgb⟩ := color
  refine (reads_skip_keyword begun_command_nil word bound).guard ?_
  rintro a b c _ hadv ⟨hc, rfl⟩ hne -
  refine meets_bind.2 (meets_push.2 ?_)
  refine ⟨c, [colorNode rgb], hadv.withStack ?_, hne, _, rfl, fun ls hls => ?_⟩
  · rw [hadv.stack]
    rfl
  · simpa [hc] using Spans.namedColor hcolor hls

lemma reads_namedColor (bound : Nat) :
    Reads (namedColor Rgb.named) bound ColorRead (Begun .command) := by
  rw [namedColor_eq]
  refine reads_firstOf (by simp [Rgb.named]) fun R hR => ?_
  obtain ⟨color, hcolor, rfl⟩ := List.mem_map.1 hR
  exact reads_colorName hcolor bound

lemma reads_colorWord (hinner : ReadsPhrase expression limit .expression) :
    Reads (keyword "color" >>= fun matched => if matched = true then (do
        require expression (.noComponent 0)
        require expression (.noComponent 1)
        require expression (.noComponent 2)
        combine 4 [3, 2, 1]
        return true) else pure false) (limit + 1) ColorRead (Begun .command) := by
  refine (reads_keyword begun_command_nil "color" (limit + 1)).guard ?_
  rintro a b c _ hadv ⟨hc, rfl⟩ hne hb
  have hzero := clear_zero operators []
  refine meets_operand hinner hadv (by omega) (fun us t ht _ => ?_) ?_
  · have hspans := (Spans.color ht hzero phrase_zero hzero phrase_zero lineEnds_lineEnd).begun
    exact Completable.of_append (q := [zero, zero, .lineEnd]) (by simpa [hc] using hspans)
      (by simp [fillers])
  intro c₁ r b₁ h₁ hr _ hstop₁ hb₁
  refine meets_operand hinner h₁ hb₁ (fun us t ht hclear => ?_) ?_
  · have hspans :=
      (Spans.color hr (hclear hstop₁) ht hzero phrase_zero lineEnds_lineEnd).begun
    exact Completable.of_append (q := [zero, .lineEnd]) (by simpa [hc] using hspans) (by simp [fillers])
  intro c₂ g b₂ h₂ hg hclear₂ hstop₂ hb₂
  refine meets_operand hinner h₂ hb₂ (fun us t ht hclear => ?_) ?_
  · have hspans :=
      (Spans.color hr (hclear₂ hstop₁) hg (hclear hstop₂) ht lineEnds_lineEnd).begun
    exact Completable.of_append (q := [.lineEnd]) (by simpa [hc] using hspans) (by simp [fillers])
  intro c₃ u b₃ h₃ hu hclear₃ _ hb₃
  refine meets_bind.2 (meets_of_ok (combine_three h₃.stack) ?_)
  refine ⟨_, [.node (.keyword "color") [r, g, u]], h₃.withStack rfl, by simp [hne], _, rfl, ?_⟩
  intro ls hls
  simpa [hc] using Spans.color hr (hclear₂ hstop₁) hg (hclear₃ hstop₂) hu hls

lemma reads_colorLine (hinner : ReadsPhrase expression limit .expression) :
    ReadsCommand (colorLine expression limit) (limit + 1) := by
  have hcolor : Reads (color expression) (limit + 1) ColorRead (Begun .command) := by
    intro a ha
    refine (reads_namedColor (limit + 1) a ha).bind (fun _ _ he => he) ?_
    rintro (_ | _) b hb
    · exact (reads_colorWord hinner).after hb.1 ha
    · exact hb
  refine hcolor.guard ?_
  rintro a b c _ hadv ⟨t, rfl, ht⟩ - hb
  exact meets_line hadv (by omega) ht

/-- The part of a call that has been read behind its name: `count` arguments. -/
def CallRead (x : Token) (count : Nat) (c rest : List Token) (trees : List (Tree Token)) : Prop :=
  ∃ us es, c = .keyword "do" :: x :: us ∧
    trees = es.reverse ++ [.leaf x, .leaf (.keyword "do")] ∧ count = es.length ∧
    Operands us es ∧ (us = [] ∨ Clear operators rest)

lemma CallRead.snoc {x : Token} {count : Nat} {c c' rest : List Token}
    {trees new : List (Tree Token)} (h : CallRead x count c (c' ++ rest) trees)
    (hnew : PhraseRead .expression c' rest new) :
    CallRead x (count + 1) (c ++ c') rest (new ++ trees) := by
  obtain ⟨us, es, rfl, rfl, rfl, hes, hclear⟩ := h
  obtain ⟨t, rfl, ht, hstop⟩ := hnew
  refine ⟨us ++ c', es ++ [t], by simp, by simp, by simp, hes.snoc ht (hclear.imp_right ?_),
    .inr hstop⟩
  obtain ⟨y, ys, rfl⟩ := List.exists_cons_of_ne_nil ht.ne_nil
  exact fun hrest => clear_cons.2 (clear_cons.1 hrest)

lemma CallRead.begun {x : Token} (hx : x.kind = .name) {count : Nat} {c rest p : List Token}
    {trees : List (Tree Token)} (h : CallRead x count c rest trees) (hp : p <+: rest)
    (hbegins : Begins .expression p) : Begun .command (c ++ p) := by
  obtain ⟨us, es, rfl, rfl, rfl, hes, hclear⟩ := h
  obtain ⟨q, t, hq, ht, hq'⟩ := hbegins
  have hall := hes.snoc ht (hclear.imp_right fun hrest => Begins.clear hrest hp hq')
  have hspans := (Spans.call hx hall lineEnds_lineEnd).begun
  exact Completable.of_append (q := q ++ [.lineEnd]) (by simpa using hspans)
    (List.append_subset.2 ⟨hq, by simp [fillers]⟩)

lemma reads_call (hinner : ReadsPhrase expression limit .expression) :
    ReadsCommand (call expression limit) (limit + 1) := by
  refine (reads_keyword begun_command_nil "do" (limit + 1)).guard ?_
  rintro a b c _ hadv ⟨hc, rfl⟩ - hb
  refine (reads_name (V := (· = [])) rfl limit).require_then rfl hadv (by omega) ?_ ?_
  · rintro p - rfl
    have hspans := (Spans.call (x := anyName) rfl .nil lineEnds_lineEnd).begun
    exact Completable.of_append (q := [anyName, .lineEnd]) (by simpa [hc] using hspans)
      (by simp [fillers])
  rintro c₁ _ b₁ h₁ ⟨x, hx, hc₁, rfl⟩ hb₁
  refine (hinner.countMatches (I := CallRead x) (fun _ _ _ _ _ _ h hnew => h.snoc hnew)
    (fun _ _ _ _ _ h hp hbegins => h.begun hx hp hbegins) 0 limit h₁
    ⟨[], [], by simp [hc, hc₁], rfl, rfl, .nil, .inl rfl⟩ (by omega) (by omega)).bind
    (fun _ _ he => he) ?_
  rintro _ b₂ ⟨c₂, trees, h₂, ⟨us, es, hc₂, rfl, rfl, hes, -⟩, -, hb₂⟩
  have hstack : b₂.stack = es.reverse ++ (.leaf x :: .leaf (.keyword "do") :: a.stack) := by
    simpa using h₂.stack
  refine meets_bind.2 (meets_of_ok (combineUnder_apply "list" hstack) ?_)
  refine meets_bind.2 (meets_of_ok (combine_two rfl) ?_)
  refine meets_line (h₂.withStack rfl) (show b₂.ahead.length < limit + 1 by omega) fun ls hls => ?_
  simpa [hc₂] using Spans.call hx hes hls

end Lines

/-! ## Conditions -/

/-- One tree was built, which is a comparison over the tokens consumed. -/
def ComparisonRead (c rest : List Token) (trees : List (Tree Token)) : Prop :=
  ∃ t, trees = [t] ∧ Comparison c t ∧ Clear operators rest

/-- Some comparison begins with `p`. -/
abbrev BeginsComparison (p : List Token) : Prop :=
  Completable (fun ts => ∃ t, Comparison ts t) p

section Conditions

variable {expression : Rule} {bound : Nat}

lemma begins_comparison (p : List Token) (h : Begins .expression p) : BeginsComparison p := by
  obtain ⟨q, t, hq, ht, -⟩ := h
  have hwhole := Comparison.comparison (o := .symbol "<") ht (by decide) phrase_zero
  exact ⟨q ++ [.symbol "<", zero], List.append_subset.2 ⟨hq, by simp [fillers]⟩, _,
    by simpa using hwhole⟩

lemma comparator_eq : comparator = firstOf (comparators.map symbol) := rfl

lemma reads_comparator (bound : Nat) :
    Reads comparator bound
      (fun c _ trees => ∃ o, IsSymbol comparators o ∧ c = [o] ∧ trees = [.leaf o]) (· = []) := by
  intro a _
  rw [comparator_eq]
  refine (meets_symbols (V := (· = [])) rfl (by decide) a).mono ?_ fun _ _ he => he
  rintro (_ | _) b hb
  · exact ⟨hb.1, hb.2.1⟩
  · obtain ⟨o, l, ho, hadv⟩ := hb
    exact ⟨_, _, hadv, by simp, o, ho, rfl, rfl⟩

theorem reads_condition (hinner : ReadsPhrase expression bound .expression) :
    Reads (condition expression) bound ComparisonRead BeginsComparison := by
  refine (hinner.mono (fun _ _ _ h => h) begins_comparison).guard ?_
  rintro a b c _ hadv ⟨l, rfl, hl, -⟩ hne hb
  refine (reads_comparator bound).require_then rfl hadv (by omega) ?_ ?_
  · rintro p - rfl
    simpa using begins_comparison _ hl.begins
  rintro c₁ _ b₁ h₁ ⟨o, ho, hc₁, rfl⟩ hb₁
  refine hinner.require_then (begins_of_zero phrase_zero) h₁ (by omega) ?_ ?_
  · rintro p - ⟨q, r, hq, hr, -⟩
    exact ⟨q, hq, _, by simpa [hc₁] using Comparison.comparison hl ho hr⟩
  rintro c₂ _ b₂ h₂ ⟨r, rfl, hr, hstop⟩ -
  refine meets_bind.2 (meets_of_ok (combine_operation h₂.stack) ?_)
  refine ⟨_, [.node o [l, r]], h₂.withStack rfl, by simp [hne], _, rfl, ?_, hstop⟩
  simpa [hc₁] using Comparison.comparison hl ho hr

end Conditions

/-! ## Blocks and the commands that contain them -/

/-- The part of a block that has been read up to one of its commands. -/
def BlockPart (count : Nat) (c _rest : List Token) (trees : List (Tree Token)) : Prop :=
  ∃ ls us cs, c = .symbol "\x7b" :: (ls ++ us) ∧ trees = cs.reverse ∧ count = cs.length ∧
    LineEnds ls ∧ Spans .commands us cs

section Blocks

variable {expression command : Rule} {limit : Nat}

lemma BlockPart.snoc {count : Nat} {c c' rest : List Token} {trees new : List (Tree Token)}
    (h : BlockPart count c (c' ++ rest) trees) (hnew : CommandRead c' rest new) :
    BlockPart (count + 1) (c ++ c') rest (new ++ trees) := by
  obtain ⟨ls, us, cs, rfl, rfl, rfl, hls, hcs⟩ := h
  obtain ⟨t, rfl, ht⟩ := hnew
  exact ⟨ls, us ++ c', cs ++ [t], by simp, by simp, by simp, hls, hcs.snoc ht⟩

lemma BlockPart.begun {count : Nat} {c rest p : List Token} {trees : List (Tree Token)}
    (h : BlockPart count c rest trees) (hp : Begun .command p) : Begun .block (c ++ p) := by
  obtain ⟨ls, us, cs, rfl, rfl, rfl, hls, hcs⟩ := h
  obtain ⟨q, hq, ts, hts⟩ := hp
  obtain ⟨t, rfl⟩ := hts.exists_command
  have hspans := (Spans.block hls (hcs.snoc hts) lineEnds_lineEnd).begun
  exact Completable.of_append (q := q ++ [.symbol "\x7d", .lineEnd]) (by simpa using hspans)
    (List.append_subset.2 ⟨hq, by simp [fillers]⟩)

theorem reads_block (hcommand : ReadsCommand command limit) :
    ReadsBlock (block command limit) (limit + 1) := by
  refine (reads_skip_symbol begun_block_nil "\x7b" (limit + 1)).guard ?_
  rintro a b c _ hadv ⟨hc, rfl⟩ hne hb
  refine (reads_lineEnd limit).require_then (by simp) hadv (by omega) ?_ ?_
  · rintro p - hp
    have hspans := (Spans.block (lineEnds_append hp) .none lineEnds_lineEnd).begun
    exact Completable.of_append (q := [.lineEnd, .symbol "\x7d", .lineEnd])
      (by simpa [hc] using hspans) (by simp [fillers])
  rintro c₁ _ b₁ h₁ ⟨hc₁, rfl⟩ hb₁
  refine (hcommand.countMatches (I := BlockPart) (fun _ _ _ _ _ _ h hnew => h.snoc hnew)
    (fun _ _ _ _ _ h _ hp => h.begun hp) 0 limit h₁
    ⟨c₁.map Prod.fst, [], [], by simp [hc], rfl, rfl, hc₁, .none⟩ (by omega) (by omega)).bind
    (fun _ _ he => he) ?_
  rintro _ b₂ ⟨c₂, trees, h₂, ⟨ls, us, cs, hc₂, rfl, rfl, hls, hcs⟩, -, hb₂⟩
  have hspans {ms : List Token} (hms : LineEnds ms) := Spans.block hls hcs hms
  refine (reads_skip_symbol (V := (· = [])) rfl "\x7d" limit).require_then rfl h₂ (by omega) ?_ ?_
  · rintro p - rfl
    exact Completable.of_append (q := [.symbol "\x7d", .lineEnd])
      (by simpa [hc₂] using (hspans lineEnds_lineEnd).begun) (by simp [fillers])
  rintro c₃ _ b₃ h₃ ⟨hc₃, rfl⟩ hb₃
  refine (reads_lineEnd limit).require_then (by simp) h₃ (by omega) ?_ ?_
  · rintro p - hp
    exact Completable.of_append (q := [.lineEnd])
      (by simpa [hc₂, hc₃] using (hspans (lineEnds_append hp)).begun) (by simp [fillers])
  rintro c₄ _ b₄ h₄ ⟨hc₄, rfl⟩ -
  refine meets_bind.2 (meets_of_ok (combineUnder_apply "block" h₄.stack) ?_)
  refine ⟨_, [.node (.keyword "block") cs], h₄.withStack rfl, ?_, _, rfl, ?_⟩
  · rintro hnil
    simp only [List.append_eq_nil_iff] at hnil
    simp [hnil] at hc₂
  · simpa [hc₂, hc₃] using hspans hc₄

section Nested

variable {f : Unit → Rule} {fault : Fault} {a b : Assembly} {c : List (Token × Nat)}
variable {trees : List (Tree Token)}

/-- The condition of a loop or of a choice, whose form with a block behind it is `node`. -/
lemma meets_condition {word : String} (hinner : ReadsPhrase expression limit .expression)
    (hspans : ∀ us t vs u, Comparison us t → Spans .block vs [u] →
      Spans .command (.keyword word :: (us ++ vs)) [.node (.keyword word) [t, u]])
    (hadv : Advanced a c trees b) (hc : c.map Prod.fst = [.keyword word])
    (hb : b.ahead.length < limit) {Q : Bool → Assembly → Prop}
    (hthen : ∀ c' t d, Advanced a (c ++ c') (t :: trees) d → Comparison (c'.map Prod.fst) t →
      d.ahead.length < limit → Meets (f ()) d Q (Strays a (Begun .command))) :
    Meets (require (condition expression) fault >>= f) b Q (Strays a (Begun .command)) := by
  refine (reads_condition hinner).require_then
    (begins_comparison [] (begins_of_zero phrase_zero)) hadv hb ?_ ?_
  · rintro p - ⟨q, hq, t, ht⟩
    have hwhole := (hspans _ _ _ _ ht spans_emptyBlock).begun
    exact Completable.of_append (q := q ++ emptyBlock) (by simpa [hc] using hwhole)
      (List.append_subset.2 ⟨hq, by simp [fillers, emptyBlock]⟩)
  · rintro c' _ d h ⟨t, rfl, ht, -⟩ hless
    exact hthen c' t d h ht (by omega)

end Nested

lemma reads_repetition (hinner : ReadsPhrase expression limit .expression)
    (hcommand : ReadsCommand command limit) :
    ReadsCommand (repetition expression command limit) (limit + 1) := by
  have hblock := (reads_block hcommand).of_le (Nat.le_succ limit)
  refine (reads_keyword begun_command_nil "repeat" (limit + 1)).guard ?_
  rintro a b c _ hadv ⟨hc, rfl⟩ hne hb
  refine meets_operand hinner hadv (by omega) (fun us t ht _ => ?_) ?_
  · exact Completable.of_append (q := emptyBlock)
      (by simpa [hc] using (Spans.repetition ht spans_emptyBlock).begun)
      (by simp [fillers, emptyBlock])
  intro c₁ t b₁ h₁ ht _ _ hb₁
  refine meets_block hblock h₁ hb₁ (fun us u hu => ?_) ?_
  · exact ⟨_, by simpa [hc] using Spans.repetition ht hu⟩
  intro c₂ u b₂ h₂ hu _
  refine meets_bind.2 (meets_of_ok (combine_two h₂.stack) ?_)
  refine ⟨_, [.node (.keyword "repeat") [t, u]], h₂.withStack rfl, by simp [hne], _, rfl, ?_⟩
  simpa [hc] using Spans.repetition ht hu

lemma reads_whileLoop (hinner : ReadsPhrase expression limit .expression)
    (hcommand : ReadsCommand command limit) :
    ReadsCommand (whileLoop expression command limit) (limit + 1) := by
  have hblock := (reads_block hcommand).of_le (Nat.le_succ limit)
  refine (reads_keyword begun_command_nil "while" (limit + 1)).guard ?_
  rintro a b c _ hadv ⟨hc, rfl⟩ hne hb
  refine meets_condition hinner (fun _ _ _ _ => Spans.whileLoop) hadv hc (by omega) ?_
  intro c₁ t b₁ h₁ ht hb₁
  refine meets_block hblock h₁ hb₁ (fun us u hu => ?_) ?_
  · exact ⟨_, by simpa [hc] using Spans.whileLoop ht hu⟩
  intro c₂ u b₂ h₂ hu _
  refine meets_bind.2 (meets_of_ok (combine_two h₂.stack) ?_)
  refine ⟨_, [.node (.keyword "while") [t, u]], h₂.withStack rfl, by simp [hne], _, rfl, ?_⟩
  simpa [hc] using Spans.whileLoop ht hu

lemma reads_choice (hinner : ReadsPhrase expression limit .expression)
    (hcommand : ReadsCommand command limit) :
    ReadsCommand (choice expression command limit) (limit + 1) := by
  have hblock := (reads_block hcommand).of_le (Nat.le_succ limit)
  refine (reads_keyword begun_command_nil "if" (limit + 1)).guard ?_
  rintro a b c _ hadv ⟨hc, rfl⟩ hne hb
  refine meets_condition hinner (fun _ _ _ _ => Spans.choice) hadv hc (by omega) ?_
  intro c₁ t b₁ h₁ ht hb₁
  refine meets_block hblock h₁ hb₁ (fun us u hu => ?_) ?_
  · exact ⟨_, by simpa [hc] using Spans.choice ht hu⟩
  intro c₂ u b₂ h₂ hu hb₂
  have helse := reads_skip_keyword (V := (· = [])) rfl "else" limit
  refine (helse b₂ hb₂).bind (fun e _ he => he.shift h₂ ?_) ?_
  · rintro p - rfl
    simpa [hc] using (Spans.choice ht hu).begun
  rintro (_ | _) b₃ hb₃
  · have h₃ := h₂.trans hb₃.1
    refine meets_bind.2 (meets_of_ok (combine_two h₃.stack) ?_)
    refine ⟨_, [.node (.keyword "if") [t, u]], h₃.withStack rfl, by simp [hne], _, rfl, ?_⟩
    simpa [hc] using Spans.choice ht hu
  · obtain ⟨c₃, _, hadv₃, -, hc₃, rfl⟩ := hb₃
    have h₃ := h₂.trans hadv₃
    refine meets_block hblock h₃ (Nat.lt_of_le_of_lt hadv₃.length_le hb₂) (fun us v hv => ?_) ?_
    · exact ⟨_, by simpa [hc, hc₃] using Spans.choiceElse ht hu hv⟩
    intro c₄ v b₄ h₄ hv _
    refine meets_bind.2 (meets_of_ok (combine_three h₄.stack) ?_)
    refine ⟨_, [.node (.keyword "if") [t, u, v]], h₄.withStack rfl, by simp [hne], _, rfl, ?_⟩
    simpa [hc, hc₃] using Spans.choiceElse ht hu hv

end Blocks

/-! ## Tying the knot -/

theorem reads_anyCommand {expression command : Rule} {limit : Nat}
    (hinner : ReadsPhrase expression limit .expression) (hcommand : ReadsCommand command limit) :
    ReadsCommand (anyCommand expression command limit) (limit + 1) := by
  refine reads_firstOf (by simp) fun R hR => ?_
  simp only [List.mem_cons, List.not_mem_nil, or_false] at hR
  rcases hR with rfl | rfl | rfl | rfl | rfl | rfl | rfl | rfl | rfl | rfl | rfl
  · exact reads_move hinner
  · exact reads_colorLine hinner
  · exact reads_bareCommand (by simp [bareWords])
  · exact reads_bareCommand (by simp [bareWords])
  · exact reads_bareCommand (by simp [bareWords])
  · exact reads_jump hinner
  · exact reads_assignment hinner
  · exact reads_repetition hinner hcommand
  · exact reads_whileLoop hinner hcommand
  · exact reads_choice hinner hcommand
  · exact reads_call hinner

/-- The rule of commands reads commands. -/
theorem reads_commandAt (limit : Nat) : ReadsCommand (commandAt limit) limit := by
  induction limit with
  | zero =>
    intro a ha
    omega
  | succ limit ih => exact reads_anyCommand (reads_expressionAt limit) ih

end Step

end Logo
