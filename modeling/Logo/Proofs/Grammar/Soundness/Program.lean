import Logo.Proofs.Grammar.Soundness.Command

/-!
# What the rule of scripts reads

A text that `parse` accepts is a script with the tree that it answers, and where `parse` fails, the
tokens in front of the error begin some script.

* `parse_sound`: if `parse source = .ok t`, then `Grammar.Program (sourceTokens source) t`.
* `rule_of_parse_eq_error`: if `parse source` is an error, the tokens of `source` split into a part
  that can be completed to a script and a rest on whose head the error is placed.
-/

namespace Logo

namespace Step

open Assembly Grammar

/-! ## Procedures -/

/-- One tree was built, which is a definition over the tokens consumed. -/
def ProcedureRead (c _rest : List Token) (trees : List (Tree Token)) : Prop :=
  ∃ t, trees = [t] ∧ DefinitionSpan c t

/-- Some definition begins with `p`. -/
abbrev BeginsProcedure (p : List Token) : Prop :=
  Completable (fun ts => ∃ t, DefinitionSpan ts t) p

/-- The part of a definition that has been read behind its name: `count` parameters. -/
def HeaderRead (x : Token) (count : Nat) (c _rest : List Token) (trees : List (Tree Token)) :
    Prop :=
  ∃ xs, c = .keyword "def" :: x :: xs ∧
    trees = (xs.map .leaf).reverse ++ [.leaf x, .leaf (.keyword "def")] ∧ count = xs.length ∧
    ∀ y ∈ xs, y.kind = .name

lemma begins_procedure_nil : BeginsProcedure [] := by
  have hspan := definitionSpan (x := anyName) rfl (List.forall_mem_nil _) spans_emptyBlock
  exact ⟨_, by simp [fillers, emptyBlock], _, hspan⟩

section Procedures

variable {command : Rule} {limit : Nat}

lemma HeaderRead.snoc {x : Token} {count : Nat} {c c' rest : List Token}
    {trees new : List (Tree Token)} (h : HeaderRead x count c (c' ++ rest) trees)
    (hnew : ∃ y, y.kind = .name ∧ c' = [y] ∧ new = [.leaf y]) :
    HeaderRead x (count + 1) (c ++ c') rest (new ++ trees) := by
  obtain ⟨xs, rfl, rfl, rfl, hxs⟩ := h
  obtain ⟨y, hy, rfl, rfl⟩ := hnew
  refine ⟨xs ++ [y], by simp, by simp, by simp, fun z hz => ?_⟩
  rcases List.mem_append.1 hz with hz | hz
  · exact hxs z hz
  · rw [List.mem_singleton.1 hz]
    exact hy

lemma HeaderRead.begins {x : Token} (hx : x.kind = .name) {count : Nat} {c rest : List Token}
    {trees : List (Tree Token)} (h : HeaderRead x count c rest trees) : BeginsProcedure c := by
  obtain ⟨xs, rfl, rfl, rfl, hxs⟩ := h
  have hspan := definitionSpan hx hxs spans_emptyBlock
  exact Completable.of_append (q := emptyBlock) (completable ⟨_, by simpa using hspan⟩)
    (by simp [fillers, emptyBlock])

theorem reads_procedure (hcommand : ReadsCommand command limit) :
    Reads (procedure command limit) (limit + 1) ProcedureRead BeginsProcedure := by
  refine (reads_keyword begins_procedure_nil "def" (limit + 1)).guard ?_
  rintro a b c _ hadv ⟨hc, rfl⟩ hne hb
  refine (reads_name (V := (· = [])) rfl limit).require_then rfl hadv (by omega) ?_ ?_
  · rintro p - rfl
    have hspan := definitionSpan (x := anyName) rfl (List.forall_mem_nil _) spans_emptyBlock
    exact Completable.of_append (q := anyName :: emptyBlock)
      (completable ⟨_, by simpa [hc] using hspan⟩) (by simp [fillers, emptyBlock])
  rintro c₁ _ b₁ h₁ ⟨x, hx, hc₁, rfl⟩ hb₁
  refine ((reads_name (V := (· = [])) rfl limit).countMatches (I := HeaderRead x)
    (fun _ _ _ _ _ _ h hnew => h.snoc hnew) ?_ 0 limit h₁
    ⟨[], by simp [hc, hc₁], rfl, rfl, by simp⟩ (by omega) (by omega)).bind (fun _ _ he => he) ?_
  · rintro n c rest trees p h - rfl
    rw [List.append_nil]
    exact h.begins hx
  rintro _ b₂ ⟨c₂, trees, h₂, ⟨xs, hc₂, rfl, rfl, hxs⟩, -, hb₂⟩
  have hstack : b₂.stack =
      (xs.map .leaf).reverse ++ (.leaf x :: .leaf (.keyword "def") :: a.stack) := by
    simpa using h₂.stack
  have hcombine := combineUnder_apply "list" hstack
  rw [List.length_map] at hcombine
  refine meets_bind.2 (meets_of_ok hcombine ?_)
  refine meets_bind.2 (meets_push.2 ?_)
  refine meets_bind.2 (meets_of_ok (combine_below rfl) ?_)
  have hheader : Advanced a c₂
      [.node (.keyword "header") [.leaf x, .node (.keyword "list") (xs.map .leaf)],
        .leaf (.keyword "def")] _ := h₂.withStack rfl
  refine meets_block ((reads_block hcommand).of_le (Nat.le_succ limit)) hheader
    (show b₂.ahead.length < limit by omega) ?_ ?_
  · intro us u hu
    exact ⟨_, by simpa [hc₂] using definitionSpan hx hxs hu⟩
  intro c₃ u b₃ h₃ hu _
  refine meets_bind.2 (meets_of_ok (combine_two h₃.stack) ?_)
  refine ⟨_, [definitionNode x xs u], h₃.withStack rfl, ?_, _, rfl, ?_⟩
  · rintro hnil
    simp [(List.append_eq_nil_iff.1 hnil).1] at hc₂
  · simpa [hc₂] using definitionSpan hx hxs hu

end Procedures

/-! ## Scripts -/

/-- Some script begins with `p`. -/
abbrev BeginsProgram (p : List Token) : Prop := Completable (fun ts => ∃ t, Program ts t) p

/-- The part of a script that has been read up to one of its commands. -/
def OpeningRead (count : Nat) (c _rest : List Token) (trees : List (Tree Token)) : Prop :=
  ∃ cs, cs ≠ [] ∧ trees = cs.reverse ∧ count = cs.length ∧ Opening c cs

/-- The part of a script that has been read up to one of its definitions, behind an opening over the
commands `cs`. -/
def DefinitionsRead (cs : List (Tree Token)) (count : Nat) (c _rest : List Token)
    (trees : List (Tree Token)) : Prop :=
  ∃ us vs ds, c = us ++ vs ∧ trees = ds.reverse ++ [.node (.keyword "block") cs] ∧
    count = ds.length ∧ Opening us cs ∧ DefinitionSpans vs ds

lemma begins_opening {p q : List Token} {c : Tree Token} {cs : List (Tree Token)}
    (h : Opening (p ++ q) (c :: cs)) (hq : q ⊆ fillers) : BeginsProgram p := by
  have hnone : DefinitionSpans [] [] := fun _ => .nil
  exact ⟨q, hq, _, by simpa using h.program (by simp) hnone⟩

lemma OpeningRead.snoc {count : Nat} {c c' rest : List Token} {trees new : List (Tree Token)}
    (h : OpeningRead count c (c' ++ rest) trees) (hnew : CommandRead c' rest new) :
    OpeningRead (count + 1) (c ++ c') rest (new ++ trees) := by
  obtain ⟨cs, hne, rfl, rfl, hcs⟩ := h
  obtain ⟨t, rfl, ht⟩ := hnew
  exact ⟨cs ++ [t], by simp, by simp, by simp, hcs.snoc ht⟩

/-- A command behind an opening. -/
lemma begins_command {c p : List Token} {cs : List (Tree Token)} (h : Opening c cs)
    (hp : Begun .command p) : BeginsProgram (c ++ p) := by
  obtain ⟨q, hq, ts, hts⟩ := hp
  obtain ⟨t, rfl⟩ := hts.exists_command
  have hall := h.snoc hts
  obtain ⟨u, us, hcons⟩ := List.exists_cons_of_ne_nil (List.append_ne_nil_of_right_ne_nil cs
    (List.cons_ne_nil t []))
  rw [hcons, ← List.append_assoc] at hall
  exact begins_opening hall hq

lemma DefinitionsRead.snoc {cs : List (Tree Token)} {count : Nat} {c c' rest : List Token}
    {trees new : List (Tree Token)} (h : DefinitionsRead cs count c (c' ++ rest) trees)
    (hnew : ProcedureRead c' rest new) :
    DefinitionsRead cs (count + 1) (c ++ c') rest (new ++ trees) := by
  obtain ⟨us, vs, ds, rfl, rfl, rfl, hus, hvs⟩ := h
  obtain ⟨t, rfl, ht⟩ := hnew
  exact ⟨us, vs ++ c', ds ++ [t], by simp, by simp, by simp, hus, hvs.snoc ht⟩

lemma DefinitionsRead.program {cs : List (Tree Token)} (hne : cs ≠ []) {count : Nat}
    {c rest : List Token} {trees : List (Tree Token)} (h : DefinitionsRead cs count c rest trees) :
    ∃ t, Program c t := by
  obtain ⟨us, vs, ds, rfl, rfl, rfl, hus, hvs⟩ := h
  exact ⟨_, hus.program hne hvs⟩

lemma DefinitionsRead.begins {cs : List (Tree Token)} (hne : cs ≠ []) {count : Nat}
    {c rest p : List Token} {trees : List (Tree Token)} (h : DefinitionsRead cs count c rest trees)
    (hp : BeginsProcedure p) : BeginsProgram (c ++ p) := by
  obtain ⟨us, vs, ds, rfl, rfl, rfl, hus, hvs⟩ := h
  obtain ⟨q, hq, t, ht⟩ := hp
  exact ⟨q, hq, _, by simpa using hus.program hne (hvs.snoc ht)⟩

section Program

variable {command : Rule} {limit : Nat} {a b : Assembly}

lemma opening_lineEnds {ls : List Token} (h : ls = [] ∨ LineEnds ls) : Opening ls [] :=
  ⟨ls, [], by simp, h, .none⟩

/-- The line ends in front of the first command. -/
lemma meets_start (ha : a.ahead.length < limit + 1) :
    Meets (lineEnd limit) a (fun _ b => ∃ c, Advanced a c [] b ∧ Opening (c.map Prod.fst) [])
      (Strays a BeginsProgram) := by
  refine (reads_lineEnd limit a ha).mono ?_ fun e b he => he.shift (.refl a) fun p _ hp => ?_
  · rintro (_ | _) b hb
    · exact ⟨[], hb.1, opening_lineEnds (.inl rfl)⟩
    · obtain ⟨c, _, hadv, -, hc, rfl⟩ := hb
      exact ⟨c, hadv, opening_lineEnds (.inr hc)⟩
  · have hall := (opening_lineEnds (.inr (lineEnds_append hp))).snoc spans_home
    rw [List.append_assoc] at hall
    exact begins_opening hall (by simp [fillers])

/-- The end of a script: its tree is put together, and nothing may follow. -/
lemma meets_end {c : List (Token × Nat)} {cs ds : List (Tree Token)}
    (hadv : Advanced a c (ds.reverse ++ [.node (.keyword "block") cs]) b)
    (hprogram : Program (c.map Prod.fst) (programNode cs ds)) (hpeeked : b.Peeked) :
    Meets (do
        combineUnder "list" ds.length
        push (.leaf (.keyword "program"))
        combine 1 [3, 2]
        if (← get).stream.hasNext then fail .trailingInput
        return true) b
      (fun _ d => ∃ t, d.stack = t :: a.stack ∧ Program a.tokens t) (Strays a BeginsProgram) := by
  have hstack : b.stack = ds.reverse ++ (.node (.keyword "block") cs :: a.stack) := by
    simpa using hadv.stack
  refine meets_bind.2 (meets_of_ok (combineUnder_apply "list" hstack) ?_)
  refine meets_bind.2 (meets_push.2 ?_)
  refine meets_bind.2 (meets_of_ok (combine_below rfl) ?_)
  refine meets_bind.2 (meets_of_ok (get_apply _) ?_)
  have hwhole : Advanced a c [programNode cs ds] _ := hadv.withStack rfl
  cases hnext : b.stream.hasNext with
  | true =>
    refine meets_bind.2 (meets_fail.2 ?_)
    have hpeeked' : Peeked { b with stack := [programNode cs ds] ++ a.stack } := hpeeked
    refine (strays_of_peeked (V := (· = [])) hpeeked' rfl _ _).shift hwhole ?_
    rintro p - rfl
    exact completable ⟨_, by simpa using hprogram⟩
  | false =>
    have hnil : b.ahead = [] := TokenStream.hasNext_eq_false_iff.1 hnext
    refine ⟨programNode cs ds, rfl, ?_⟩
    rwa [hadv.tokens, tokens, hnil, List.map_nil, List.append_nil]

theorem meets_program (hcommand : ReadsCommand command limit) (ha : a.ahead.length < limit) :
    Meets (program command limit) a
      (fun _ b => ∃ t, b.stack = t :: a.stack ∧ Program a.tokens t) (Strays a BeginsProgram) := by
  refine meets_bind.2 (meets_discard.2 ((meets_start (by omega)).mono ?_ fun _ _ he => he))
  rintro _ b ⟨c, hadv, hopening⟩
  have hb := hadv.length_le
  refine hcommand.require_then begun_command_nil hadv (by omega) ?_ ?_
  · rintro p - hp
    exact begins_command hopening hp
  rintro c₁ _ b₁ h₁ ⟨t, rfl, ht⟩ hb₁
  have hfirst : OpeningRead 1 ((c ++ c₁).map Prod.fst) b₁.tokens [t] := by
    rw [List.map_append]
    exact ⟨[t], by simp, rfl, rfl, hopening.snoc ht⟩
  refine (hcommand.countMatches (I := OpeningRead) (fun _ _ _ _ _ _ h hnew => h.snoc hnew) ?_ 1
    limit h₁ hfirst (by omega) (by omega)).bind (fun _ _ he => he) ?_
  · rintro n c rest trees p ⟨cs, -, -, -, hcs⟩ - hp
    exact begins_command hcs hp
  rintro _ b₂ ⟨c₂, _, h₂, ⟨cs, hne, rfl, rfl, hcs⟩, -, hb₂⟩
  refine meets_bind.2 (meets_of_ok (combineUnder_apply "block" h₂.stack) ?_)
  have h₂' : Advanced a c₂ [.node (.keyword "block") cs] _ := h₂.withStack rfl
  refine ((reads_procedure hcommand).countMatches (I := DefinitionsRead cs)
    (fun _ _ _ _ _ _ h hnew => h.snoc hnew) (fun _ _ _ _ _ h _ hp => h.begins hne hp) 0 limit h₂'
    ⟨_, [], [], by simp, rfl, rfl, hcs, fun _ => .nil⟩ (show b₂.ahead.length < limit + 1 by omega)
    (show b₂.ahead.length < limit by omega)).bind (fun _ _ he => he) ?_
  rintro _ b₃ ⟨c₃, _, h₃, ⟨us, vs, ds, hc₃, rfl, rfl, hus, hvs⟩, hpeeked, -⟩
  exact meets_end h₃ (hc₃ ▸ hus.program hne hvs) hpeeked

end Program

end Step

open Grammar

/-! ## The parser -/

lemma programRule_apply (a : Assembly) :
    Nonterminal.program.rule a = Step.program (Step.commandAt a.budget) a.budget a := rfl

/-- What the rule of scripts does to a whole text. -/
theorem meets_programRule (source : String) :
    Meets Nonterminal.program.rule (Assembly.ofString source)
      (fun _ b => ∃ t, b.stack = [t] ∧ Program (sourceTokens source) t)
      (Step.Strays (Assembly.ofString source) Step.BeginsProgram) := by
  unfold Meets
  rw [programRule_apply]
  exact Step.meets_program (Step.reads_commandAt _) (Assembly.length_ahead_lt_budget _)

/-- The parser takes the tree that the rule of scripts leaves. -/
lemma parse_of_rule_eq_ok {source : String} {matched : Bool} {b : Assembly} {t : Tree Token}
    (h : Nonterminal.program.rule (Assembly.ofString source) = .ok matched b)
    (hstack : b.stack = [t]) : parse source = .ok t := by
  simp only [parse, h, hstack]

lemma parse_of_rule_eq_error {source : String} {e : ParseError} {b : Assembly}
    (h : Nonterminal.program.rule (Assembly.ofString source) = .error e b) :
    parse source = .error e := by
  simp only [parse, h]

theorem parse_sound {source : String} {t : Tree Token} (h : parse source = .ok t) :
    Program (sourceTokens source) t := by
  cases hrule : Nonterminal.program.rule (Assembly.ofString source) with
  | error e b => simp [parse_of_rule_eq_error hrule] at h
  | ok matched b =>
    obtain ⟨u, hstack, hu⟩ := (meets_programRule source).of_ok hrule
    rw [parse_of_rule_eq_ok hrule hstack] at h
    exact Except.ok.inj h ▸ hu

/-- A text that is not accepted is one that the rule of scripts fails on. -/
theorem rule_of_parse_eq_error {source : String} {e : ParseError} (h : parse source = .error e) :
    ∃ b, Nonterminal.program.rule (Assembly.ofString source) = .error e b ∧
      Step.Strays (Assembly.ofString source) Step.BeginsProgram e b := by
  cases hrule : Nonterminal.program.rule (Assembly.ofString source) with
  | error e' b =>
    obtain rfl : e' = e := Except.error.inj ((parse_of_rule_eq_error hrule).symm.trans h)
    exact ⟨b, rfl, (meets_programRule source).of_error hrule⟩
  | ok matched b =>
    obtain ⟨u, hstack, -⟩ := (meets_programRule source).of_ok hrule
    simp [parse_of_rule_eq_ok hrule hstack] at h

end Logo
