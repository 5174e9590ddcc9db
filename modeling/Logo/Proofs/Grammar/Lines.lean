import Logo.Proofs.Grammar.Pairing
import Logo.Proofs.Grammar.Soundness.Program
import Logo.Proofs.Token.Seams
import Mathlib.Data.List.Destutter

/-!
# Layout does not matter

Line ends are tokens, and the rules ask for them in nine places.  Each of these takes as many line
ends as there are, so that no rule sees how many there were: two assemblies whose tokens are the same
after every row of line ends is collapsed to one are a pairing, `relined`.  In front of a script the
rule takes line ends even where none are needed, so there their number may be zero.

Both sides have more tokens than the collapsed ones, by a number that no rule can make larger; this is
the slack of the pairing.

* `meaning_eq_of_essentialTokens_eq`: two texts with the same essential tokens have the same tree, or
  the same error but for its line.
* `layout_irrelevant` adds what this means for the text: blank lines, comments in front of a line end
  and blanks between tokens make no difference.
-/

namespace Logo

open Step

/-! ## Rows of line ends -/

/-- Whether a token is a line end. -/
def Token.endsLine (t : Token) : Bool := t.kind = .eol

/-- Whether a token stays behind another one where rows of line ends are collapsed. -/
def Token.StaysBehind (t u : Token) : Prop := ¬ (t.endsLine = true ∧ u.endsLine = true)

instance : DecidableRel Token.StaysBehind := fun _ _ => inferInstanceAs (Decidable (¬ (_ ∧ _)))

/-- Tokens with one line end in the place of every row of them. -/
def collapsed (ts : List Token) : List Token := ts.destutter Token.StaysBehind

/-- The tokens of a text as far as its meaning depends on them: there is no line end in front, and one
where several stand in a row. -/
def essentialTokens (source : String) : List Token :=
  collapsed ((sourceTokens source).dropWhile Token.endsLine)

section Collapsed

variable {t : Token} {ts us : List Token}

lemma collapsed_cons_of_not_endsLine (h : t.endsLine = false) (ts : List Token) :
    collapsed (t :: ts) = t :: collapsed ts := by
  cases ts with
  | nil => rfl
  | cons u ts => exact List.destutter'_cons_pos ts (by simp [Token.StaysBehind, h])

lemma collapsed_cons_of_endsLine (h : t.endsLine = true) (ts : List Token) :
    collapsed (t :: ts) = t :: collapsed (ts.dropWhile Token.endsLine) := by
  induction ts with
  | nil => rfl
  | cons u ts ih =>
    cases hu : u.endsLine with
    | true =>
      rw [List.dropWhile_cons_of_pos hu, ← ih]
      exact List.destutter'_cons_neg ts (by simp [Token.StaysBehind, h, hu])
    | false =>
      rw [List.dropWhile_cons_of_neg (by simp [hu])]
      exact List.destutter'_cons_pos ts (by simp [Token.StaysBehind, hu])

lemma head?_collapsed (ts : List Token) : (collapsed ts).head? = ts.head? := by
  cases ts with
  | nil => rfl
  | cons t ts =>
    cases ht : t.endsLine with
    | true => rw [collapsed_cons_of_endsLine ht, List.head?_cons, List.head?_cons]
    | false => rw [collapsed_cons_of_not_endsLine ht, List.head?_cons, List.head?_cons]

lemma head?_eq_of_collapsed_eq (h : collapsed us = collapsed ts) :
    us.head? = ts.head? := by rw [← head?_collapsed, h, head?_collapsed]

lemma length_collapsed_le (ts : List Token) : (collapsed ts).length ≤ ts.length :=
  (List.destutter_sublist _ ts).length_le

/-- A second line end in a row makes no difference. -/
lemma collapsed_append_lineEnd (ts us : List Token) :
    collapsed (ts ++ .lineEnd :: .lineEnd :: us) = collapsed (ts ++ .lineEnd :: us) := by
  have hsecond : ¬ Token.StaysBehind .lineEnd .lineEnd := by decide
  have hbehind (t : Token) (ts : List Token) :
      (ts ++ .lineEnd :: .lineEnd :: us).destutter' Token.StaysBehind t =
        (ts ++ .lineEnd :: us).destutter' Token.StaysBehind t := by
    induction ts generalizing t with
    | nil =>
      by_cases ht : Token.StaysBehind t .lineEnd
      · rw [List.nil_append, List.nil_append, List.destutter'_cons_pos _ ht,
          List.destutter'_cons_pos _ ht, List.destutter'_cons_neg _ hsecond]
      · exact List.destutter'_cons_neg _ ht
    | cons u ts ih =>
      by_cases hu : Token.StaysBehind t u
      · rw [List.cons_append, List.cons_append, List.destutter'_cons_pos _ hu,
          List.destutter'_cons_pos _ hu, ih u]
      · rw [List.cons_append, List.cons_append, List.destutter'_cons_neg _ hu,
          List.destutter'_cons_neg _ hu, ih t]
  cases ts with
  | nil => exact List.destutter'_cons_neg _ hsecond
  | cons t ts => exact hbehind t ts

/-- Behind the line ends the collapsed tokens are the same again. -/
lemma collapsed_dropWhile_eq (h : collapsed us = collapsed ts) :
    collapsed (us.dropWhile Token.endsLine) = collapsed (ts.dropWhile Token.endsLine) := by
  have hhead := head?_eq_of_collapsed_eq h
  cases ts with
  | nil => rw [List.head?_eq_none_iff.1 hhead]
  | cons t ts =>
    obtain ⟨us, rfl⟩ := List.head?_eq_some_iff.1 hhead
    cases ht : t.endsLine with
    | true =>
      rw [collapsed_cons_of_endsLine ht, collapsed_cons_of_endsLine ht, List.cons.injEq] at h
      rw [List.dropWhile_cons_of_pos ht, List.dropWhile_cons_of_pos ht]
      exact h.2
    | false =>
      rw [List.dropWhile_cons_of_neg (by simp [ht]), List.dropWhile_cons_of_neg (by simp [ht])]
      exact h

end Collapsed

/-! ## Meaning -/

/-- An error without its line. -/
def ParseError.unlined : ParseError → ParseError
  | .grammar fault _ trees => .grammar fault 0 trees
  | .literal text _ => .literal text 0
  | .stream (.exhausted _) => .stream (.exhausted 0)
  | .stream error => .stream error

/-- What a text means: its tree, or the error that it has in the place of one, on whatever line. -/
def meaning (source : String) : Except ParseError (Tree Token) :=
  (parse source).mapError ParseError.unlined

/-! ## Reading line ends -/

namespace Step

open Assembly

variable {a b d : Assembly} {t : Token} {ts : List Token} {e : ParseError} {k limit : Nat}

/-- The first token behind the line ends is malformed, and this is the error. -/
def Spoiled (ts : List Token) (e : ParseError) : Prop :=
  ∃ t ∈ (ts.dropWhile Token.endsLine).head?, t.kind = .malformed ∧ ∃ l, e = .literal t.text l

/-- The line ends at the front are gone, and the token behind them, if there is one, is well formed. -/
structure Eaten (a b : Assembly) : Prop where
  tokens : b.tokens = a.tokens.dropWhile Token.endsLine
  stack : b.stack = a.stack
  sound : ∀ t ∈ b.tokens.head?, t.kind ≠ .malformed

lemma Eaten.length_le (h : Eaten a b) : b.tokens.length ≤ a.tokens.length := by
  rw [h.tokens]
  exact (List.dropWhile_suffix _).length_le

/-- One line end is gone. -/
structure Crossed (a b : Assembly) : Prop where
  tokens : ∃ t, t.endsLine = true ∧ a.tokens = t :: b.tokens
  stack : b.stack = a.stack

namespace Crossed

lemma length_le (h : Crossed a b) (hlimit : a.tokens.length ≤ limit + 1) :
    b.tokens.length ≤ limit := by
  obtain ⟨t, -, htokens⟩ := h.tokens
  rw [htokens, List.length_cons] at hlimit
  exact Nat.le_of_succ_le_succ hlimit

lemma eaten (h : Crossed a b) (heaten : Eaten b d) : Eaten a d := by
  obtain ⟨t, ht, htokens⟩ := h.tokens
  constructor
  · rw [htokens, List.dropWhile_cons_of_pos ht, heaten.tokens]
  · exact heaten.stack.trans h.stack
  · exact heaten.sound

lemma spoiled (h : Crossed a b) (hspoiled : Spoiled b.tokens e) : Spoiled a.tokens e := by
  obtain ⟨t, ht, htokens⟩ := h.tokens
  rw [htokens, Spoiled, List.dropWhile_cons_of_pos ht]
  exact hspoiled

end Crossed

/-- A row of line ends is taken one by one. -/
lemma meets_skip_eol (a : Assembly) :
    Meets (skip (accept .eol none)) a
      (fun matched b => if matched = true then Crossed a b else Eaten a b ∧ b.tokens = a.tokens)
      fun e _ => Spoiled a.tokens e := by
  cases htokens : a.tokens with
  | nil =>
    have hnil : a.ahead = [] := List.map_eq_nil_iff.1 htokens
    refine meets_bind.2 (meets_of_ok (accept_of_nil hnil) ⟨⟨?_, rfl, ?_⟩, htokens⟩)
    · rw [htokens, List.dropWhile_nil]
    · simp [htokens]
  | cons t ts =>
    rcases accept_cases .eol none t with ⟨hkind, h⟩ | ⟨-, hwanted, h⟩ | ⟨hkind, hwanted, h⟩
    · obtain ⟨l, b, hb, -⟩ := h a ts htokens
      refine meets_bind.2 (meets_of_error hb ⟨t, ?_, hkind, l, rfl⟩)
      rw [List.dropWhile_cons_of_neg (by simp [Token.endsLine, hkind]), List.head?_cons]
      rfl
    · obtain ⟨b, hb, hts, hstack⟩ := h a ts htokens
      have hline : t.endsLine = true := by simp [Token.endsLine, hwanted.1]
      refine meets_bind.2 (meets_of_ok hb (meets_bind.2 (meets_discard_pop.2 ⟨⟨t, hline, ?_⟩, ?_⟩)))
      · exact htokens.trans (congrArg (t :: ·) hts.symm)
      · rw [hstack, List.tail_cons]
    · obtain ⟨b, hb, hts, hstack⟩ := h a ts htokens
      have hline : t.endsLine = false := by simpa [Token.endsLine, Wanted] using hwanted
      refine meets_bind.2 (meets_of_ok hb ⟨⟨?_, hstack, ?_⟩, hts⟩)
      · rw [hts, htokens, List.dropWhile_cons_of_neg (by simp [hline])]
      · simpa [hts] using hkind

/-- With enough room, a repetition takes all line ends there are. -/
lemma meets_many_eol (n : Nat) (hlimit : a.tokens.length ≤ limit) :
    Meets (countMatches (skip (accept .eol none)) n limit) a (fun _ b => Eaten a b)
      fun e _ => Spoiled a.tokens e := by
  induction limit generalizing a n with
  | zero =>
    have hnil : a.tokens = [] := List.length_eq_zero_iff.1 (Nat.le_zero.1 hlimit)
    constructor
    · rw [hnil, List.dropWhile_nil]
    · rfl
    · simp [hnil]
  | succ limit ih =>
    refine (meets_skip_eol a).bind (fun _ _ he => he) ?_
    rintro (_ | _) b hb
    · exact hb.1
    · have hcrossed : Crossed a b := hb
      exact (ih (n + 1) (hcrossed.length_le hlimit)).mono (fun _ _ hd => hcrossed.eaten hd)
        fun _ _ he => hcrossed.spoiled he

/-- A rule that asks for a line end takes all there are. -/
theorem meets_lineEnd (hlimit : a.tokens.length ≤ limit + 1) :
    Meets (lineEnd limit) a
      (fun matched b => Eaten a b ∧ matched = a.tokens.head?.any Token.endsLine)
      fun e _ => Spoiled a.tokens e := by
  refine (meets_skip_eol a).bind (fun _ _ he => he) ?_
  rintro (_ | _) b hb
  · obtain ⟨heaten, hsame⟩ : Eaten a b ∧ b.tokens = a.tokens := hb
    refine ⟨heaten, ?_⟩
    have hhead := List.head?_dropWhile_not Token.endsLine a.tokens
    rw [← heaten.tokens, hsame] at hhead
    cases hfirst : a.tokens.head? with
    | none => rfl
    | some t =>
      rw [hfirst] at hhead
      rw [Option.any_some, hhead]
  · have hcrossed : Crossed a b := hb
    obtain ⟨t, ht, htokens⟩ := hcrossed.tokens
    have hmany := meets_many_eol 0 (hcrossed.length_le hlimit)
    refine meets_bind.2 (meets_discard.2 (hmany.mono ?_ fun _ _ he => hcrossed.spoiled he))
    intro _ d hd
    constructor
    · exact hcrossed.eaten hd
    · rw [htokens, List.head?_cons, Option.any_some, ht]

/-! ## The pairing -/

/-- The same tokens, fewer than `k`, after the rows of line ends are collapsed, and the same trees. -/
structure Relined (slack slack' k : Nat) (a a' : Assembly) : Prop where
  collapsed_eq : collapsed a'.tokens = collapsed a.tokens
  length_lt : (collapsed a.tokens).length < k
  room : a.tokens.length < k + slack
  room' : a'.tokens.length < k + slack'
  stack_eq : a'.stack = a.stack

/-- Assemblies that differ in rows of line ends. -/
def relined (slack slack' : Nat) : Pairing where
  related := Relined slack slack'
  passed _ := False
  errors e e' := e'.unlined = e.unlined
  slack := slack
  slack' := slack'
  related_mono h hle :=
    { h with
      length_lt := Nat.lt_of_lt_of_le h.length_lt hle
      room := Nat.lt_of_lt_of_le h.room (Nat.add_le_add_right hle _)
      room' := Nat.lt_of_lt_of_le h.room' (Nat.add_le_add_right hle _) }
  not_related_zero h := Nat.not_lt_zero _ h.length_lt
  stack_eq h := h.stack_eq
  tokens_eq_nil_iff h := by
    rw [← List.head?_eq_none_iff, head?_eq_of_collapsed_eq h.collapsed_eq, List.head?_eq_none_iff]
  restack stack h := { h with stack_eq := rfl }
  passed_of_le h _ := h
  errors_grammar _ _ _ _ := rfl

variable {slack slack' : Nat} {a' b' : Assembly}

namespace Relined

/-- Nothing was consumed on either side. -/
lemma stay (h : Relined slack slack' k a a') (hb : b.tokens = a.tokens)
    (hb' : b'.tokens = a'.tokens) (hstack : b'.stack = b.stack) : Relined slack slack' k b b' where
  collapsed_eq := by rw [hb, hb', h.collapsed_eq]
  length_lt := hb ▸ h.length_lt
  room := hb ▸ h.room
  room' := hb' ▸ h.room'
  stack_eq := hstack

/-- The same token, or a row of line ends, was consumed on both sides. -/
lemma advance (h : Relined slack slack' k a a') {t : Token} {ts ts' : List Token}
    (hts : a.tokens = t :: ts) (hts' : a'.tokens = t :: ts')
    (hcollapsed : collapsed a.tokens = t :: collapsed b.tokens)
    (hcollapsed' : collapsed a'.tokens = t :: collapsed b'.tokens)
    (hb : b.tokens.length ≤ ts.length) (hb' : b'.tokens.length ≤ ts'.length)
    (hstack : b'.stack = b.stack) : Relined slack slack' (k - 1) b b' := by
  have heq := h.collapsed_eq
  have hk := h.length_lt
  have hroom := h.room
  have hroom' := h.room'
  rw [hcollapsed, hcollapsed', List.cons.injEq] at heq
  rw [hcollapsed, List.length_cons] at hk
  rw [hts, List.length_cons] at hroom
  rw [hts', List.length_cons] at hroom'
  exact ⟨heq.2, by omega, by omega, by omega, hstack⟩

end Relined

lemma Spoiled.unlined_eq {e' : ParseError} (h : Spoiled ts e) (h' : Spoiled ts e') :
    e'.unlined = e.unlined := by
  obtain ⟨t, ht, -, l, rfl⟩ := h
  obtain ⟨t', ht', -, l', rfl⟩ := h'
  rw [Option.mem_def.1 ht] at ht'
  cases ht'
  rfl

lemma Spoiled.not_eaten (h : Spoiled a.tokens e) (heaten : Eaten a b) : False := by
  obtain ⟨t, ht, hkind, -⟩ := h
  rw [← heaten.tokens] at ht
  exact heaten.sound t ht hkind

/-- Two runs that take the line ends at the front agree on what comes then, or on the error. -/
lemma both_lineEnd {limit limit' : Nat}
    (h : collapsed (a'.tokens.dropWhile Token.endsLine) =
      collapsed (a.tokens.dropWhile Token.endsLine))
    (hlimit : a.tokens.length ≤ limit + 1) (hlimit' : a'.tokens.length ≤ limit' + 1) :
    Meets (lineEnd limit) a
      (fun v b => Eaten a b ∧ v = a.tokens.head?.any Token.endsLine ∧
        Meets (lineEnd limit') a'
          (fun v' b' => Eaten a' b' ∧ v' = a'.tokens.head?.any Token.endsLine) fun _ _ => False)
      fun e _ => Meets (lineEnd limit') a' (fun _ _ => False) fun e' _ => e'.unlined = e.unlined := by
  have hspoiled (e : ParseError) : Spoiled a'.tokens e ↔ Spoiled a.tokens e := by
    rw [Spoiled, head?_eq_of_collapsed_eq h, Spoiled]
  refine (meets_lineEnd hlimit).mono ?_ ?_
  · rintro v b ⟨heaten, rfl⟩
    refine ⟨heaten, rfl, (meets_lineEnd hlimit').mono (fun _ _ hb' => hb') fun e' b' he' => ?_⟩
    exact ((hspoiled e').1 he').not_eaten heaten
  · intro e b he
    refine (meets_lineEnd hlimit').mono (fun v' b' hb' => ?_) fun e' b' he' => ?_
    · exact ((hspoiled e).2 he).not_eaten hb'.1
    · exact he.unlined_eq ((hspoiled e').1 he')

theorem paired_accept_relined {kind : TokenKind} (hkind : kind ≠ .eol) (text? : Option String)
    (k : Nat) :
    Paired (relined slack slack') k (accept kind text?) (accept kind text?) (left k) where
  shrinks := shrinks_accept kind text?
  both a a' hrelated := by
    have hhead := head?_eq_of_collapsed_eq hrelated.collapsed_eq
    cases hts : a.tokens with
    | nil =>
      rw [hts] at hhead
      have hts' := List.head?_eq_none_iff.1 hhead
      have hok : accept kind text? a = .ok false a := accept_of_nil (List.map_eq_nil_iff.1 hts)
      have hok' : accept kind text? a' = .ok false a' := accept_of_nil (List.map_eq_nil_iff.1 hts')
      exact meets_of_ok hok (.inr (meets_of_ok hok' ⟨rfl, hrelated⟩))
    | cons t ts =>
      rw [hts] at hhead
      obtain ⟨ts', hts'⟩ := List.head?_eq_some_iff.1 hhead
      rcases accept_cases kind text? t with ⟨-, h⟩ | ⟨-, hwanted, h⟩ | ⟨-, -, h⟩
      · obtain ⟨l, b, hb, -⟩ := h a ts hts
        obtain ⟨l', b', hb', -⟩ := h a' ts' hts'
        exact meets_of_error hb (.inr (meets_of_error hb' rfl))
      · obtain ⟨b, hb, hrest, hstack⟩ := h a ts hts
        obtain ⟨b', hb', hrest', hstack'⟩ := h a' ts' hts'
        have hline : t.endsLine = false := by simpa [Token.endsLine, hwanted.1] using hkind
        have hadvance : Relined slack slack' (k - 1) b b' := by
          refine hrelated.advance hts hts' ?_ ?_ (Nat.le_of_eq (by rw [hrest]))
            (Nat.le_of_eq (by rw [hrest'])) (by rw [hstack, hstack', hrelated.stack_eq])
          · rw [hts, collapsed_cons_of_not_endsLine hline, hrest]
          · rw [hts', collapsed_cons_of_not_endsLine hline, hrest']
        exact meets_of_ok hb (.inr (meets_of_ok hb' ⟨rfl, hadvance⟩))
      · obtain ⟨b, hb, hrest, hstack⟩ := h a ts hts
        obtain ⟨b', hb', hrest', hstack'⟩ := h a' ts' hts'
        have hstay : Relined slack slack' k b b' :=
          hrelated.stay (hrest.trans hts.symm) (hrest'.trans hts'.symm)
            (by rw [hstack, hstack', hrelated.stack_eq])
        exact meets_of_ok hb (.inr (meets_of_ok hb' ⟨rfl, hstay⟩))

/-- Where both sides take their line ends, they match on both or on neither. -/
lemma Relined.eaten (h : Relined slack slack' k a a') (hb : Eaten a b) (hb' : Eaten a' b') :
    Relined slack slack' (left k (a.tokens.head?.any Token.endsLine)) b b' := by
  have hhead := head?_eq_of_collapsed_eq h.collapsed_eq
  have hstack : b'.stack = b.stack := by rw [hb.stack, hb'.stack, h.stack_eq]
  cases hts : a.tokens with
  | nil =>
    rw [hts] at hhead
    refine h.stay ?_ ?_ hstack
    · rw [hb.tokens, hts, List.dropWhile_nil]
    · rw [hb'.tokens, List.head?_eq_none_iff.1 hhead, List.dropWhile_nil]
  | cons t ts =>
    rw [hts] at hhead
    obtain ⟨ts', hts'⟩ := List.head?_eq_some_iff.1 hhead
    have hrest := hb.tokens
    have hrest' := hb'.tokens
    rw [hts] at hrest
    rw [hts'] at hrest'
    rw [List.head?_cons, Option.any_some]
    cases ht : t.endsLine with
    | true =>
      rw [List.dropWhile_cons_of_pos ht] at hrest hrest'
      refine h.advance hts hts' ?_ ?_ ?_ ?_ hstack
      · rw [hts, collapsed_cons_of_endsLine ht, hrest]
      · rw [hts', collapsed_cons_of_endsLine ht, hrest']
      · rw [hrest]
        exact (List.dropWhile_suffix _).length_le
      · rw [hrest']
        exact (List.dropWhile_suffix _).length_le
    | false =>
      rw [List.dropWhile_cons_of_neg (by simp [ht])] at hrest hrest'
      exact h.stay (hrest.trans hts.symm) (hrest'.trans hts'.symm) hstack

lemma shrinks_lineEnd (limit : Nat) : Shrinks (lineEnd limit) := by
  have hnothing : PairedRule (relined 0 0) 0 (accept .eol none) (accept .eol none) :=
    (shrinks_accept .eol none).pairedRule_zero
  have hline : PairedRule (relined 0 0) 0 (lineEnd limit) (lineEnd limit) :=
    pairedRule_lineEnd_of_accept hnothing fun h => absurd h (Nat.lt_irrefl 0)
  exact (hline 0 (Nat.le_refl 0)).shrinks

theorem paired_lineEnd_relined {limit limit' : Nat}
    (hfits : (relined slack slack').Fits k (limit + 1) (limit' + 1)) :
    Paired (relined slack slack') k (lineEnd limit) (lineEnd limit') (left k) where
  shrinks := shrinks_lineEnd limit
  both a a' hrelated := by
    have heq := hrelated.collapsed_eq
    have hroom : k + slack ≤ limit + 1 ∧ k + slack' ≤ limit' + 1 :=
      hfits (Nat.zero_lt_of_lt hrelated.length_lt)
    have hlimit := Nat.le_trans (Nat.le_of_lt hrelated.room) hroom.1
    have hlimit' := Nat.le_trans (Nat.le_of_lt hrelated.room') hroom.2
    refine (both_lineEnd (collapsed_dropWhile_eq heq) hlimit hlimit').mono ?_ fun e b he => .inr he
    rintro v b ⟨hb, rfl, hboth⟩
    refine .inr (hboth.mono ?_ fun _ _ hfalse => hfalse)
    rintro v' b' ⟨hb', rfl⟩
    exact ⟨by rw [head?_eq_of_collapsed_eq heq], hrelated.eaten hb hb'⟩

instance : (relined slack slack').Reads where
  accept := paired_accept_relined
  lineEnd := paired_lineEnd_relined

/-- Behind the line ends in front of a script both sides have what a script needs. -/
lemma Eaten.relined {limit limit' : Nat} (hb : Eaten a b) (hb' : Eaten a' b')
    (h : collapsed b'.tokens = collapsed b.tokens) (hstack : a'.stack = a.stack)
    (hlimit : a.tokens.length < limit) (hlimit' : a'.tokens.length < limit') :
    ∃ k slack slack', Relined slack slack' k b b' ∧ (relined slack slack').Fits k limit limit' := by
  have hle := length_collapsed_le b.tokens
  have hle' := length_collapsed_le b'.tokens
  have hrest := hb.length_le
  have hrest' := hb'.length_le
  rw [h] at hle'
  refine ⟨(collapsed b.tokens).length + 1, b.tokens.length - (collapsed b.tokens).length,
    b'.tokens.length - (collapsed b.tokens).length, ⟨h, Nat.lt_succ_self _, by omega, by omega, ?_⟩,
    fun _ => ?_⟩
  · rw [hb.stack, hb'.stack, hstack]
  · constructor
    · change _ + (b.tokens.length - _) ≤ limit
      omega
    · change _ + (b'.tokens.length - _) ≤ limit'
      omega

/-- Two runs of the rule of scripts that differ only in where their lines end. -/
theorem both_programAt (a a' : Assembly)
    (h : collapsed (a'.tokens.dropWhile Token.endsLine) =
      collapsed (a.tokens.dropWhile Token.endsLine)) (hstack : a'.stack = a.stack) :
    Meets (program (commandAt a.budget) a.budget) a
      (fun _ b => Meets (program (commandAt a'.budget) a'.budget) a' (fun _ b' => b'.stack = b.stack)
        fun _ _ => False)
      fun e _ => Meets (program (commandAt a'.budget) a'.budget) a' (fun _ _ => False)
        fun e' _ => e'.unlined = e.unlined := by
  have hbudget (a : Assembly) : a.tokens.length < a.budget := by
    rw [length_tokens]
    exact a.length_ahead_lt_budget
  have hroom (a : Assembly) : a.tokens.length ≤ a.budget + 1 :=
    Nat.le_succ_of_le (Nat.le_of_lt (hbudget a))
  have hlines : Meets (discard (lineEnd a.budget) : Step Unit) a
      (fun _ b => Eaten a b ∧ Meets (discard (lineEnd a'.budget) : Step Unit) a'
        (fun _ b' => Eaten a' b') fun _ _ => False)
      fun e _ => Meets (discard (lineEnd a'.budget) : Step Unit) a' (fun _ _ => False)
        fun e' _ => e'.unlined = e.unlined := by
    refine meets_discard.2 ((both_lineEnd h (hroom a) (hroom a')).mono ?_ ?_)
    · rintro v b ⟨hb, -, hboth⟩
      exact ⟨hb, meets_discard.2 (hboth.mono (fun _ _ hb' => hb'.1) fun _ _ hfalse => hfalse)⟩
    · exact fun e b he => meets_discard.2 he
  rw [program_eq, program_eq]
  refine hlines.bind (fun e b he => he.bind (fun _ _ he' => he') fun _ _ hfalse => hfalse.elim) ?_
  rintro _ b ⟨hb, hboth⟩
  obtain ⟨_, b', hrun, hb'⟩ := hboth.exists_ok
  rw [← hb.tokens, ← hb'.tokens] at h
  obtain ⟨k, slack, slack', hrelated, hfits⟩ := hb.relined hb' h hstack (hbudget a) (hbudget a')
  refine ((paired_scriptAt hfits).both b b' hrelated).mono ?_ ?_
  · rintro v d (hfalse | hok)
    · exact hfalse.elim
    · refine meets_bind.2 (meets_of_ok hrun (hok.mono ?_ fun _ _ hfalse => hfalse))
      exact fun v' d' hd => hd.2.stack_eq
  · rintro e d (hfalse | herror)
    · exact hfalse.elim
    · exact meets_bind.2 (meets_of_ok hrun herror)

end Step

/-! ## Texts -/

open Assembly Step

/-- Two texts with the same essential tokens mean the same. -/
theorem meaning_eq_of_essentialTokens_eq {source source' : String}
    (h : essentialTokens source = essentialTokens source') : meaning source = meaning source' := by
  have hboth := both_programAt (ofString source') (ofString source) h rfl
  cases hrule' : Nonterminal.program.rule (ofString source') with
  | error e' b' =>
    obtain ⟨e, b, hrule, hsame⟩ := (hboth.of_error hrule').exists_error
    rw [meaning, meaning, parse_of_rule_eq_error hrule, parse_of_rule_eq_error hrule']
    exact congrArg Except.error hsame
  | ok matched' b' =>
    obtain ⟨matched, b, hrule, hsame⟩ := (hboth.of_ok hrule').exists_ok
    obtain ⟨t, hstack, -⟩ := (meets_programRule source').of_ok hrule'
    rw [meaning, meaning, parse_of_rule_eq_ok hrule (hsame.trans hstack),
      parse_of_rule_eq_ok hrule' hstack]

/-- Layout does not matter.  Texts with the same essential tokens mean the same, so neither blank
lines nor comments in front of a line end nor blanks between tokens change what a text means. -/
theorem layout_irrelevant :
    (∀ source source', essentialTokens source = essentialTokens source' →
      meaning source = meaning source') ∧
    (∀ line back, sourceTokens line = [] → meaning (line ++ "\n" ++ back) = meaning back) ∧
    (∀ front line back, sourceTokens line = [] →
      meaning (front ++ "\n" ++ line ++ "\n" ++ back) = meaning (front ++ "\n" ++ back)) ∧
    (∀ front words back, front.toList.getLast? ≠ some '/' → '\n' ∉ words.toList →
      meaning (front ++ "//" ++ words ++ "\n" ++ back) = meaning (front ++ "\n" ++ back)) ∧
    ∀ front blanks back, Lexeme.IsBlanks blanks.toList →
      sourceTokens (front ++ back) = sourceTokens front ++ sourceTokens back →
      meaning (front ++ blanks ++ back) = meaning (front ++ back) := by
  refine ⟨fun _ _ h => meaning_eq_of_essentialTokens_eq h, ?_, ?_, ?_, ?_⟩
  · intro line back hline
    apply meaning_eq_of_essentialTokens_eq
    rw [essentialTokens, sourceTokens_line, hline]
    rfl
  · intro front line back hline
    apply meaning_eq_of_essentialTokens_eq
    rw [essentialTokens, sourceTokens_line, sourceTokens_line, hline, essentialTokens,
      sourceTokens_line, List.append_assoc]
    exact collapsed_dropWhile_eq (collapsed_append_lineEnd _ _)
  · intro front words back hfront hwords
    apply meaning_eq_of_essentialTokens_eq
    rw [essentialTokens, sourceTokens_line, sourceTokens_comment hfront hwords, essentialTokens,
      sourceTokens_line]
  · intro front blanks back hblanks hbetween
    apply meaning_eq_of_essentialTokens_eq
    rw [essentialTokens, sourceTokens_blanks hblanks hbetween, essentialTokens]

/-- The same command in several layouts, and one that fails in the same way in two of them. -/
theorem layout_irrelevant_forward :
    meaning "\n\nforward 1\n\n" = meaning "forward 1\n" ∧
    meaning "// ahead\nforward 1\n" = meaning "forward 1\n" ∧
    meaning "penup\n\t\nforward 1\n" = meaning "penup\nforward 1\n" ∧
    meaning "forward // far\nhome\n" = .error (.grammar .noDistance 0 [.leaf (.keyword "forward")]) ∧
    meaning "forward(  1)\n" = meaning "forward(1)\n" := by
  obtain ⟨htokens, hleading, hblank, hcomment, hblanks⟩ := layout_irrelevant
  refine ⟨htokens _ _ (by decide +kernel), ?_, ?_, ?_, ?_⟩
  · simpa using hleading "// ahead" "forward 1\n" (by decide +kernel)
  · simpa using hblank "penup" "\t" "forward 1\n" (by decide +kernel)
  · have hsame : meaning "forward // far\nhome\n" = meaning "forward \nhome\n" := by
      simpa using hcomment "forward " " far" "home\n" (by decide) (by decide)
    rw [hsame]
    decide +kernel
  · simpa using hblanks "forward(" "  " "1)\n" (by decide) (by decide +kernel)

end Logo
