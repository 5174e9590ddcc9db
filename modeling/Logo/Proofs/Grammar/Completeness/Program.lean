import Logo.Proofs.Grammar.Completeness.Command
import Logo.Proofs.Grammar.Soundness.Program

/-!
# The rule of scripts finds every script

With the other direction, in `Logo.Proofs.Grammar.Soundness.Program`, this makes `parse` decide the
grammar and answer the tree of the derivation (`parse_eq_ok_iff_program`).  A script therefore has
one tree at most.
-/

namespace Logo

open Grammar

namespace Step

section Procedures

variable {limit : Nat} {ts mid rest : List Token} {t : Tree Token} {ds : List (Tree Token)}

/-- All parameters are taken: what follows them is the brace of the block. -/
lemma yields_parameters {xs : List Token} (hxs : ∀ y ∈ xs, y.kind = .name)
    (hmid : Misses name mid) (count : Nat) {limit : Nat} (hlimit : (xs ++ mid).length < limit)
    (st : List (Tree Token)) :
    Yields (countMatches name count limit) (xs ++ mid, st) (count + xs.length)
      (mid, (xs.map .leaf).reverse ++ st) := by
  induction xs generalizing count limit st with
  | nil => exact yields_countMatches_done hmid count (Nat.zero_lt_of_lt hlimit)
  | cons x xs ih =>
    obtain ⟨limit, rfl⟩ := Nat.exists_eq_succ_of_ne_zero (Nat.ne_of_gt (Nat.zero_lt_of_lt hlimit))
    have hmore := ih (fun y hy => hxs y (List.mem_cons_of_mem _ hy)) (count + 1)
      (Nat.lt_of_succ_lt_succ hlimit) (.leaf x :: st)
    simp only [List.length_cons, List.map_cons, List.reverse_cons, List.append_assoc,
      List.singleton_append]
    rw [Nat.add_comm xs.length, ← Nat.add_assoc]
    exact yields_countMatches_next (yields_name (hxs x (by simp)) _ st) hmore

lemma yields_combine_below (ts : List Token) (o : Token) (l r : Tree Token)
    (st : List (Tree Token)) :
    Yields (combine 1 [3, 2]) (ts, .leaf o :: r :: l :: st) () (ts, .node o [l, r] :: st) :=
  yields_of_stack fun _ h => combine_below h

lemma misses_name_of_block {us : List (Tree Token)} (h : Derives .block mid rest us) :
    Misses name mid := by
  cases h
  exact misses_leaf (by decide) (by simp [Wanted, Token.symbol])

theorem yields_procedure (h : Definition ts rest t) (hrest : Fresh rest)
    (hlimit : ts.length < limit) (st : List (Tree Token)) :
    Yields (procedure (commandAt limit) limit) (ts, st) true (rest, t :: st) := by
  obtain @⟨x, xs, mid, _, b, hx, hxs, hb⟩ := h
  simp only [List.length_cons] at hlimit
  have hlength : (xs ++ mid).length < limit := by omega
  have hmid : mid.length < limit := by
    rw [List.length_append] at hlength
    omega
  have hparameters := yields_parameters hxs (misses_name_of_block hb) 0 hlength
    (.leaf x :: .leaf (.keyword "def") :: st)
  have hlist := yields_combineUnder "list" (xs.map .leaf) mid (.leaf x :: .leaf (.keyword "def") :: st)
  rw [Nat.zero_add] at hparameters
  rw [List.length_map] at hlist
  exact (yields_keyword "def" _ st).guard ((yields_name hx _ _).require.bind (hparameters.bind
    (hlist.bind ((yields_push _ _ _).bind ((yields_combine_below mid _ _ _ _).bind
      ((finds hb limit hmid hrest _).require.bind
        ((yields_combine_two rest _ _ b st).bind (yields_pure true _))))))))

lemma head_of_definitions (h : Sequence Definition mid [] ds) :
    mid = [] ∨ ∃ ts, mid = .keyword "def" :: ts := by
  cases h with
  | nil => exact .inl rfl
  | cons ht _ =>
    obtain ⟨-, -, -⟩ := ht
    exact .inr ⟨_, rfl⟩

lemma fresh_of_definitions (h : Sequence Definition mid [] ds) : Fresh mid := by
  rcases head_of_definitions h with rfl | ⟨ts, rfl⟩
  · simp [Fresh]
  · exact fresh_cons.2 (by decide)

lemma unlike_of_definitions (h : Sequence Definition mid [] ds) {words : List String}
    (hwords : "def" ∉ words) : Unlike words mid := by
  rcases head_of_definitions h with rfl | ⟨ts, rfl⟩
  · simp [Unlike]
  · exact unlike_keyword hwords ts

lemma length_lt_of_definition (h : Definition ts rest t) : rest.length < ts.length := by
  obtain ⟨-, -, hb⟩ := h
  have hle := hb.length_le
  simp only [List.length_cons, List.length_append]
  omega

/-- All definitions are taken. -/
lemma yields_procedures (h : Sequence Definition mid [] ds) (hlimit : mid.length < limit)
    (count : Nat) {limit' : Nat} (hlimit' : mid.length < limit') (st : List (Tree Token)) :
    Yields (countMatches (procedure (commandAt limit) limit) count limit') (mid, st)
      (count + ds.length) ([], ds.reverse ++ st) := by
  generalize hend : [] = rest at h
  induction h generalizing count limit' st with
  | nil =>
    subst hend
    have hmiss : Misses (procedure (commandAt limit) limit) [] :=
      (guarded_keyword "def").guard [] (by simp [Unlike])
    exact yields_countMatches_done hmiss count (Nat.zero_lt_of_lt hlimit')
  | @cons ts next rest t ds ht hds ih =>
    subst hend
    have hless := length_lt_of_definition ht
    obtain ⟨limit', rfl⟩ := Nat.exists_eq_succ_of_ne_zero (Nat.ne_of_gt (Nat.zero_lt_of_lt hlimit'))
    have hmore := ih (by omega) (count + 1) (show next.length < limit' by omega) (t :: st) rfl
    simp only [List.length_cons, List.reverse_cons, List.append_assoc, List.singleton_append]
    rw [Nat.add_comm ds.length, ← Nat.add_assoc]
    exact yields_countMatches_next (yields_procedure ht (fresh_of_definitions hds) hlimit st) hmore

end Procedures

section Program

variable {limit : Nat} {ts start : List Token} {t : Tree Token} {st : List (Tree Token)}

/-- The line ends in front of the first command. -/
lemma yields_start (h : ts = start ∨ LineEnd ts start) (hstart : Fresh start)
    (hlimit : ts.length < limit + 1) (st : List (Tree Token)) :
    Yields (discard (lineEnd limit)) (ts, st) () (start, st) := by
  rcases h with rfl | h
  · exact ((misses_lineEnd hstart).guard st).discard
  · exact (yields_lineEnd h hstart hlimit st).discard

/-- Nothing follows. -/
lemma yields_end (st : List (Tree Token)) :
    Yields (do
        if (← get).stream.hasNext then fail .trailingInput
        return true) ([], st) true ([], st) := by
  refine yields_of_ok fun a ha => ⟨a, ?_, ha⟩
  have hnil : a.ahead = [] := List.map_eq_nil_iff.1 (Assembly.view_eq_iff.1 ha).1
  have hnext := TokenStream.hasNext_eq_false_iff.2 hnil
  rw [bind_apply, get_apply]
  simp only [hnext]
  rfl

theorem yields_program (h : Program ts t) (hlimit : ts.length < limit) (st : List (Tree Token)) :
    Yields (program (commandAt limit) limit) (ts, st) true ([], t :: st) := by
  obtain @⟨start, mid, c, cs, ds, hstart, hcs, hds⟩ := h
  have hmid := fresh_of_definitions hds
  have helse : Unlike ["else"] mid := unlike_of_definitions hds (by decide)
  have hwords : Unlike commandWords mid := unlike_of_definitions hds (by decide)
  have hle : start.length ≤ ts.length := by
    rcases hstart with rfl | hstart
    · exact Nat.le_refl _
    · exact Nat.le_of_lt hstart.length_lt
  obtain ⟨hfresh, -⟩ := fresh_of_commands hcs hmid helse
  cases hcs with
  | @more _ next _ _ _ hc hcs =>
    obtain ⟨hnext, helse'⟩ := fresh_of_commands hcs hmid helse
    have h₁ := hc.length_lt
    have h₂ := hcs.length_le
    have hfirst := finds hc limit (by omega) hnext helse' st
    have hcommands := finds hcs limit (by omega) hmid helse hwords 1 limit (c :: st) (by omega)
    have hblock := yields_combineUnder "block" (c :: cs) mid st
    have hprocedures := yields_procedures hds (show mid.length < limit by omega) 0
      (show mid.length < limit by omega) (.node (.keyword "block") (c :: cs) :: st)
    rw [Nat.zero_add] at hprocedures
    rw [List.length_cons, List.reverse_cons, List.append_assoc, Nat.add_comm] at hblock
    exact (yields_start hstart hfresh (by omega) st).bind (hfirst.require.bind (hcommands.bind
      (hblock.bind (hprocedures.bind ((yields_combineUnder "list" ds [] _).bind
        ((yields_push _ _ _).bind ((yields_combine_below [] _ _ _ st).bind (yields_end _))))))))

end Program

end Step

/-! ## The parser -/

theorem parse_complete {source : String} {t : Tree Token} (h : Program (sourceTokens source) t) :
    parse source = .ok t := by
  have hlimit : (sourceTokens source).length < (Assembly.ofString source).budget := by
    have hbudget := Assembly.length_ahead_lt_budget (Assembly.ofString source)
    rwa [← Assembly.length_tokens] at hbudget
  obtain ⟨matched, b, hrule, -, hview⟩ :=
    (Step.yields_program h hlimit [] (Assembly.ofString source) rfl).exists_ok
  rw [← programRule_apply] at hrule
  exact parse_of_rule_eq_ok hrule (Assembly.view_eq_iff.1 hview).2

/-- The parser accepts exactly the scripts, with the trees that they derive with. -/
theorem parse_eq_ok_iff_program (source : String) (t : Tree Token) :
    parse source = .ok t ↔ Program (sourceTokens source) t :=
  ⟨parse_sound, parse_complete⟩

end Logo
