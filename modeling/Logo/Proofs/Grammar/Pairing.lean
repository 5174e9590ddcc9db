import Logo.Proofs.Grammar.Derivation
import Logo.Proofs.Grammar.Yielding

/-!
# Two runs of a rule

Some properties of the grammar compare two runs: two texts that begin alike, two texts that differ in
their line ends only.  What they have in common is that every rule does the same on both sides as long
as every token it looks at is answered in the same way.  `Pairing` is a relation between the two
sides, and `Paired` says of two versions of a step that they keep it; it is composed along the
constructs of a `do` block, one lemma for each.

The two versions may differ in the limits of their repetitions.  These do not matter because a rule
consumes at most the tokens there are: that is what the bound `k` in `Pairing.related` and the
functions `j` of `Paired` keep track of.

* `Pairing.Reads` is what has to be shown of a pairing: its sides agree at single tokens and at line
  ends.
* `paired_programAt` and `paired_scriptAt`: then the rule of scripts does the same on both sides, and
  so does the part of it behind the line ends in front of a script.
-/

namespace Logo

namespace Step

open Assembly Grammar

variable {α β : Type} {k m : Nat}

/-! ## Pairings -/

/-- The step never adds to the tokens to come. -/
def Shrinks (S : Step α) : Prop :=
  ∀ a : Assembly, Meets S a (fun _ b => b.tokens.length ≤ a.tokens.length)
    fun _ b => b.tokens.length ≤ a.tokens.length

/-- How two assemblies that are read side by side are compared. -/
structure Pairing where
  /-- They look the same to the rules, and fewer tokens than the number are left to be consumed. -/
  related : Nat → Assembly → Assembly → Prop
  /-- The first one has come to a place from which on the second one may do something else. -/
  passed : Assembly → Prop
  /-- The two may fail with these errors. -/
  errors : ParseError → ParseError → Prop
  /-- By how much the first one may have more tokens than can be consumed. -/
  slack : Nat
  /-- By how much the second one may have more tokens than can be consumed. -/
  slack' : Nat
  related_mono {k m : Nat} {a a' : Assembly} : related k a a' → k ≤ m → related m a a'
  not_related_zero {a a' : Assembly} : ¬ related 0 a a'
  stack_eq {k : Nat} {a a' : Assembly} : related k a a' → a'.stack = a.stack
  tokens_eq_nil_iff {k : Nat} {a a' : Assembly} : related k a a' → (a'.tokens = [] ↔ a.tokens = [])
  restack {k : Nat} {a a' : Assembly} (stack : List (Tree Token)) :
    related k a a' → related k { a with stack } { a' with stack }
  passed_of_le {a b : Assembly} : passed a → b.tokens.length ≤ a.tokens.length → passed b
  errors_grammar (fault : Fault) (l l' : Nat) (trees : List (Tree Token)) :
    errors (.grammar fault l trees) (.grammar fault l' trees)

variable {P : Pairing}

/-- The limits leave room for all the tokens that there are if `k` of them can be consumed. -/
def Pairing.Fits (P : Pairing) (k limit limit' : Nat) : Prop :=
  0 < k → k + P.slack ≤ limit ∧ k + P.slack' ≤ limit'

/-- From related assemblies, the first step comes to where the second side no longer matters, or both
steps give the same answer and leave related assemblies, or both fail in the same way. -/
structure Paired (P : Pairing) (k : Nat) (S S' : Step α) (j : α → Nat) : Prop where
  shrinks : Shrinks S
  both : ∀ a a', P.related k a a' →
    Meets S a
      (fun v b => P.passed b ∨
        Meets S' a' (fun v' b' => v' = v ∧ P.related (j v) b b') fun _ _ => False)
      fun e b => P.passed b ∨ Meets S' a' (fun _ _ => False) fun e' _ => P.errors e e'

namespace Pairing.Fits

variable {limit limit' : Nat}

lemma of_le (h : P.Fits k limit limit') (hle : m ≤ k) : P.Fits m limit limit' := by
  intro hm
  have hk := h (Nat.lt_of_lt_of_le hm hle)
  omega

lemma succ (h : P.Fits k limit limit') : P.Fits k (limit + 1) (limit' + 1) := by
  intro hk
  have hroom := h hk
  omega

/-- What stands inside a rule is read with limits lower by one, when a token has been consumed. -/
lemma pred (h : P.Fits k (limit + 1) (limit' + 1)) : P.Fits (k - 1) limit limit' := by
  intro hk
  have hroom := h (by omega)
  omega

lemma le (h : P.Fits k limit limit') : k ≤ limit ∧ k ≤ limit' := by
  by_cases hk : 0 < k
  · have hroom := h hk
    omega
  · omega

/-- A repetition inside a rule has room for all the tokens that can still be consumed. -/
lemma le_of_le_pred (h : P.Fits k (limit + 1) (limit' + 1)) (hm : m ≤ k - 1) :
    m ≤ limit ∧ m ≤ limit' := (h.pred.of_le hm).le

end Pairing.Fits

/-! ## Steps in sequence -/

section Sequences

variable {S S' : Step α} {f f' : α → Step β} {j : α → Nat} {i : β → Nat}

/-- Once the second side does not matter, it never does again. -/
lemma Shrinks.passed (h : Shrinks S) {b : Assembly} (hb : P.passed b) {Q : α → Assembly → Prop}
    {E : ParseError → Assembly → Prop} :
    Meets S b (fun v d => P.passed d ∨ Q v d) fun e d => P.passed d ∨ E e d :=
  (h b).mono (fun _ _ hd => .inl (P.passed_of_le hb hd)) fun _ _ hd => .inl (P.passed_of_le hb hd)

lemma Shrinks.bind (hS : Shrinks S) (hf : ∀ v, Shrinks (f v)) : Shrinks (S >>= f) := fun a =>
  (hS a).bind (fun _ _ he => he) fun v b hb =>
    (hf v b).mono (fun _ _ hd => Nat.le_trans hd hb) fun _ _ hd => Nat.le_trans hd hb

/-- Where nothing can be related. -/
lemma Shrinks.paired_zero (h : Shrinks S) : Paired P 0 S S' j where
  shrinks := h
  both _ _ hrelated := absurd hrelated P.not_related_zero

lemma paired_pure {v : α} (hk : k ≤ j v) : Paired P k (pure v) (pure v) j where
  shrinks _ := Nat.le_refl _
  both _ _ h := .inr ⟨rfl, P.related_mono h hk⟩

theorem Paired.bind (hS : Paired P k S S' j) (hf : ∀ v, Paired P (j v) (f v) (f' v) i) :
    Paired P k (S >>= f) (S' >>= f') i where
  shrinks := hS.shrinks.bind fun v => (hf v).shrinks
  both a a' h := by
    refine (hS.both a a' h).bind ?_ ?_
    · rintro e b (hpassed | herror)
      · exact .inl hpassed
      · exact .inr (herror.bind (fun _ _ he => he) fun _ _ hfalse => hfalse.elim)
    · rintro v b (hpassed | hok)
      · exact (hf v).shrinks.passed hpassed
      · obtain ⟨v', b', hrun, rfl, hb⟩ := hok.exists_ok
        refine ((hf v').both b b' hb).mono ?_ ?_
        · exact fun w d hd => hd.imp_right fun hd => meets_bind.2 (meets_of_ok hrun hd)
        · exact fun e d hd => hd.imp_right fun hd => meets_bind.2 (meets_of_ok hrun hd)

lemma Paired.mono {j' : α → Nat} (h : Paired P k S S' j) (hle : ∀ v, j v ≤ j' v) :
    Paired P k S S' j' where
  shrinks := h.shrinks
  both a a' hrelated := by
    refine (h.both a a' hrelated).mono ?_ fun _ _ he => he
    exact fun v b hb => hb.imp_right fun hb =>
      hb.mono (fun v' b' ⟨heq, hb'⟩ => ⟨heq, P.related_mono hb' (hle v)⟩) fun _ _ hfalse => hfalse

lemma Paired.discard (h : Paired P k S S' j) (hle : ∀ v, j v ≤ k) :
    Paired P k (discard S : Step Unit) (discard S') fun _ => k where
  shrinks a := meets_discard.2 (h.shrinks a)
  both a a' hrelated := by
    refine meets_discard.2 (((h.mono hle).both a a' hrelated).mono ?_ ?_)
    · exact fun v b hb => hb.imp_right fun hb =>
        meets_discard.2 (hb.mono (fun v' b' hb' => ⟨rfl, hb'.2⟩) fun _ _ hfalse => hfalse)
    · exact fun e b hb => hb.imp_right meets_discard.2

end Sequences

/-! ## Trees -/

/-- A step that only works on the stack, and on both sides in the same way. -/
lemma paired_of_stack {S : Step α}
    (h : ∀ a : Assembly, (∃ v st, ∀ s, S ⟨s, a.stack⟩ = .ok v ⟨s, st⟩) ∨
      ∃ fault st, ∀ s, S ⟨s, a.stack⟩ = fail fault ⟨s, st⟩) : Paired P k S S fun _ => k where
  shrinks a := by
    rcases h a with ⟨v, st, hok⟩ | ⟨fault, st, hfail⟩
    · exact meets_of_ok (hok a.stream) (Nat.le_refl _)
    · exact meets_of_error (hfail a.stream) (Nat.le_refl _)
  both a a' hrelated := by
    have hstack := P.stack_eq hrelated
    rcases h a with ⟨v, st, hok⟩ | ⟨fault, st, hfail⟩
    · have hok' := hok a'.stream
      rw [← hstack] at hok'
      exact meets_of_ok (hok a.stream) (.inr (meets_of_ok hok' ⟨rfl, P.restack st hrelated⟩))
    · have hfail' := hfail a'.stream
      rw [← hstack] at hfail'
      exact meets_of_error (hfail a.stream)
        (.inr (meets_of_error hfail' (P.errors_grammar fault _ _ _)))

lemma paired_fail (fault : Fault) : Paired P k (fail fault : Step α) (fail fault) fun _ => k :=
  paired_of_stack fun a => .inr ⟨fault, a.stack, fun _ => rfl⟩

lemma paired_push (t : Tree Token) : Paired P k (push t) (push t) fun _ => k :=
  paired_of_stack fun a => .inl ⟨(), t :: a.stack, fun _ => rfl⟩

lemma paired_discard_pop : Paired P k (discard pop) (discard pop : Step Unit) fun _ => k :=
  paired_of_stack fun a => .inl ⟨(), a.stack.tail, fun _ => rfl⟩

lemma paired_combine (root : Nat) (children : List Nat) :
    Paired P k (combine root children) (combine root children) fun _ => k := by
  refine paired_of_stack fun a => ?_
  simp only [combine, bind_apply, get_apply]
  by_cases hfull : (a.stack.take (children.length + 1)).length < children.length + 1
  · simp only [if_pos hfull]
    exact .inr ⟨_, a.stack, fun s => rfl⟩
  · simp only [if_neg hfull]
    cases hroot : takeEntry? ((a.stack.take (children.length + 1)).map some).toArray root with
    | none => exact .inr ⟨_, _, fun s => rfl⟩
    | some entry =>
      simp only [bind_apply, set_apply]
      cases hchildren : takeEntries entry.2 children with
      | error position => exact .inr ⟨_, a.stack.drop (children.length + 1), fun s => rfl⟩
      | ok ts => exact .inl ⟨(), entry.1.addChildren ts :: a.stack.drop _, fun s => rfl⟩

lemma paired_combineUnder (word : String) (count : Nat) :
    Paired P k (combineUnder word count) (combineUnder word count) fun _ => k :=
  (paired_push _).bind fun _ => paired_combine _ _

/-! ## Rules -/

/-- How many tokens can still be consumed after an answer: a rule that matches consumes one. -/
def left (k : Nat) (matched : Bool) : Nat := if matched then k - 1 else k

/-- Two versions of a rule are paired for all bounds up to `k`. -/
def PairedRule (P : Pairing) (k : Nat) (R R' : Rule) : Prop := ∀ m ≤ k, Paired P m R R' (left m)

section Rules

variable {R R' body body' : Rule} {rules rules' : List Rule} {limit limit' : Nat}

lemma Shrinks.pairedRule_zero (h : Shrinks R) : PairedRule P 0 R R' := by
  intro m hm
  obtain rfl := Nat.le_zero.1 hm
  exact h.paired_zero

lemma PairedRule.of_le (h : PairedRule P k R R') (hle : m ≤ k) : PairedRule P m R R' :=
  fun n hn => h n (Nat.le_trans hn hle)

/-- A rule that goes on once another one has matched, which consumed a token. -/
lemma PairedRule.guard (h : PairedRule P k R R')
    (hbody : ∀ m ≤ k - 1, Paired P m body body' fun _ => m) :
    PairedRule P k (R >>= fun matched => if matched = true then body else pure false)
      (R' >>= fun matched => if matched = true then body' else pure false) := by
  intro m hm
  refine (h m hm).bind ?_
  rintro (_ | _)
  · exact paired_pure (Nat.le_refl _)
  · refine (hbody (m - 1) (Nat.sub_le_sub_right hm 1)).mono fun v => ?_
    cases v
    · exact Nat.sub_le m 1
    · exact Nat.le_refl _

lemma PairedRule.skip (h : PairedRule P k R R') : PairedRule P k (skip R) (skip R') :=
  h.guard fun _ _ => paired_discard_pop.bind fun _ => paired_pure (Nat.le_refl _)

lemma PairedRule.require (h : PairedRule P k R R') (fault : Fault) (hm : m ≤ k) :
    Paired P m (require R fault) (require R' fault) fun _ => m := by
  refine (h m hm).bind ?_
  rintro (_ | _)
  · exact paired_fail fault
  · exact paired_pure (Nat.sub_le m 1)

lemma pairedRule_firstOf (h : List.Forall₂ (PairedRule P k) rules rules') :
    PairedRule P k (firstOf rules) (firstOf rules') := by
  induction h with
  | nil => exact fun m _ => paired_pure (Nat.le_refl _)
  | cons hR _ ih =>
    intro m hm
    refine (hR m hm).bind ?_
    rintro (_ | _)
    · exact ih m hm
    · exact paired_pure (Nat.le_refl _)

lemma pairedRule_self_firstOf (h : ∀ R ∈ rules, PairedRule P k R R) :
    PairedRule P k (firstOf rules) (firstOf rules) := by
  refine pairedRule_firstOf ?_
  induction rules with
  | nil => exact .nil
  | cons R rules ih =>
    exact .cons (h R (by simp)) (ih fun R' hR' => h R' (List.mem_cons_of_mem _ hR'))

lemma shrinks_countMatches (h : Shrinks R) (n limit : Nat) : Shrinks (countMatches R n limit) := by
  induction limit generalizing n with
  | zero => exact fun a => Nat.le_refl _
  | succ limit ih =>
    refine h.bind ?_
    rintro (_ | _)
    · exact fun a => Nat.le_refl _
    · exact ih (n + 1)

/-- The repetitions end on both sides before their limits do. -/
theorem PairedRule.countMatches (h : PairedRule P k R R') (n : Nat) (hm : m ≤ k)
    (hlimit : m ≤ limit ∧ m ≤ limit') :
    Paired P m (countMatches R n limit) (countMatches R' n limit') fun _ => m := by
  induction limit generalizing n m limit' with
  | zero =>
    obtain rfl := Nat.le_zero.1 hlimit.1
    exact (shrinks_countMatches (h 0 hm).shrinks n 0).paired_zero
  | succ limit ih =>
    cases limit' with
    | zero =>
      obtain rfl := Nat.le_zero.1 hlimit.2
      exact (shrinks_countMatches (h 0 hm).shrinks n _).paired_zero
    | succ limit' =>
      refine (h m hm).bind ?_
      rintro (_ | _)
      · exact paired_pure (Nat.le_refl _)
      · refine (ih (n + 1) ?_ ⟨?_, ?_⟩).mono fun _ => Nat.sub_le m 1
        · exact Nat.le_trans (Nat.sub_le m 1) hm
        · exact Nat.sub_le_of_le_add hlimit.1
        · exact Nat.sub_le_of_le_add hlimit.2

/-- Rules whose limits exceed the bound, tied at both limits.  Where the bound is 0 there is nothing
to show but that the rule never adds tokens. -/
lemma pairedRule_of_succ {R : Nat → Rule} (hzero : Shrinks (R 0))
    (hsucc : ∀ k limit limit', P.Fits k (limit + 1) (limit' + 1) →
      PairedRule P (k - 1) (R limit) (R limit') →
      PairedRule P k (R (limit + 1)) (R (limit' + 1)))
    (hfits : P.Fits k limit limit') : PairedRule P k (R limit) (R limit') := by
  have hnothing (limit : Nat) : PairedRule P 0 (R limit) (R limit) := by
    induction limit with
    | zero => exact hzero.pairedRule_zero
    | succ limit ih => exact hsucc 0 limit limit (fun hk => absurd hk (Nat.lt_irrefl 0)) ih
  have hshrinks (limit : Nat) : Shrinks (R limit) := (hnothing limit 0 (Nat.le_refl 0)).shrinks
  induction k generalizing limit limit' with
  | zero => exact (hshrinks limit).pairedRule_zero
  | succ k ih =>
    have hroom := hfits (Nat.succ_pos k)
    obtain ⟨limit, rfl⟩ : ∃ n, limit = n + 1 := Nat.exists_eq_succ_of_ne_zero (by omega)
    obtain ⟨limit', rfl⟩ : ∃ n, limit' = n + 1 := Nat.exists_eq_succ_of_ne_zero (by omega)
    refine hsucc (k + 1) limit limit' hfits (ih fun _ => ?_)
    omega

end Rules

/-! ## Tokens -/

/-- What a rule does to a token depends on nothing behind it. -/
lemma accept_cases (kind : TokenKind) (text? : Option String) (t : Token) :
    (t.kind = .malformed ∧ ∀ a ts, Assembly.tokens a = t :: ts →
      ∃ l b, accept kind text? a = .error (.literal t.text l) b ∧ b.tokens = ts) ∨
    (t.kind ≠ .malformed ∧ Wanted kind text? t ∧ ∀ a ts, Assembly.tokens a = t :: ts →
      ∃ b, accept kind text? a = .ok true b ∧ b.tokens = ts ∧ b.stack = .leaf t :: a.stack) ∨
    (t.kind ≠ .malformed ∧ ¬ Wanted kind text? t ∧ ∀ a ts, Assembly.tokens a = t :: ts →
      ∃ b, accept kind text? a = .ok false b ∧ b.tokens = t :: ts ∧ b.stack = a.stack) := by
  by_cases hkind : t.kind = .malformed
  · refine .inl ⟨hkind, fun a ts ha => ?_⟩
    obtain ⟨l, rest, hahead, rfl⟩ := ahead_of_tokens ha
    obtain ⟨b, hb, hrest, -⟩ := accept_of_malformed kind text? hahead hkind
    exact ⟨l, b, hb, congrArg _ hrest⟩
  · by_cases hwanted : Wanted kind text? t
    · refine .inr (.inl ⟨hkind, hwanted, fun a ts ha => ?_⟩)
      obtain ⟨l, rest, hahead, rfl⟩ := ahead_of_tokens ha
      obtain ⟨b, hb, hrest, -, hstack⟩ := accept_of_wanted hahead hwanted hkind
      exact ⟨b, hb, congrArg _ hrest, hstack⟩
    · refine .inr (.inr ⟨hkind, hwanted, fun a ts ha => ?_⟩)
      obtain ⟨l, rest, hahead, -⟩ := ahead_of_tokens ha
      obtain ⟨b, hb, hsame, -, hstack⟩ := accept_of_unwanted hahead hwanted hkind
      exact ⟨b, hb, (congrArg (List.map Prod.fst) hsame).trans ha, hstack⟩

lemma shrinks_accept (kind : TokenKind) (text? : Option String) : Shrinks (accept kind text?) := by
  intro a
  cases htokens : a.tokens with
  | nil =>
    have hnil : a.ahead = [] := List.map_eq_nil_iff.1 htokens
    exact meets_of_ok (accept_of_nil hnil) (Nat.le_of_eq (by rw [htokens]))
  | cons t ts =>
    rcases accept_cases kind text? t with ⟨-, h⟩ | ⟨-, -, h⟩ | ⟨-, -, h⟩
    · obtain ⟨l, b, hb, hts⟩ := h a ts htokens
      exact meets_of_error hb (by rw [hts]; exact Nat.le_succ _)
    · obtain ⟨b, hb, hts, -⟩ := h a ts htokens
      exact meets_of_ok hb (by rw [hts]; exact Nat.le_succ _)
    · obtain ⟨b, hb, hts, -⟩ := h a ts htokens
      exact meets_of_ok hb (Nat.le_of_eq (by rw [hts]))

lemma pairedRule_lineEnd_of_accept {limit limit' : Nat}
    (h : PairedRule P k (accept .eol none) (accept .eol none))
    (hfits : P.Fits k (limit + 1) (limit' + 1)) :
    PairedRule P k (lineEnd limit) (lineEnd limit') := by
  refine h.skip.guard fun m hm => ?_
  have hmany := h.skip.countMatches 0 (Nat.le_trans hm (Nat.sub_le k 1)) (hfits.le_of_le_pred hm)
  exact (hmany.discard fun _ => Nat.le_refl m).bind fun _ => paired_pure (Nat.le_refl m)

/-! ## Reading -/

/-- The two sides agree at every token but a line end, and at every row of line ends. -/
class Pairing.Reads (P : Pairing) : Prop where
  accept {kind : TokenKind} (hkind : kind ≠ .eol) (text? : Option String) (k : Nat) :
    Paired P k (accept kind text?) (accept kind text?) (left k)
  lineEnd {k limit limit' : Nat} (hfits : P.Fits k (limit + 1) (limit' + 1)) :
    Paired P k (lineEnd limit) (lineEnd limit') (left k)

variable [P.Reads]

section Tokens

lemma pairedRule_keyword (word : String) (k : Nat) :
    PairedRule P k (keyword word) (keyword word) := fun m _ =>
  Pairing.Reads.accept (by simp) (some word) m

lemma pairedRule_symbol (text : String) (k : Nat) : PairedRule P k (symbol text) (symbol text) :=
  fun m _ => Pairing.Reads.accept (by simp) (some text) m

lemma pairedRule_name (k : Nat) : PairedRule P k name name := fun m _ =>
  Pairing.Reads.accept (by simp) none m

lemma pairedRule_number (k : Nat) : PairedRule P k number number := fun m _ =>
  Pairing.Reads.accept (by simp) none m

lemma pairedRule_symbols (texts : List String) (k : Nat) :
    PairedRule P k (firstOf (texts.map symbol)) (firstOf (texts.map symbol)) := by
  refine pairedRule_self_firstOf fun R hR => ?_
  obtain ⟨text, -, rfl⟩ := List.mem_map.1 hR
  exact pairedRule_symbol text k

lemma pairedRule_lineEnd {limit limit' : Nat} (hfits : P.Fits k (limit + 1) (limit' + 1)) :
    PairedRule P k (lineEnd limit) (lineEnd limit') := fun _ hm =>
  Pairing.Reads.lineEnd (hfits.of_le hm)

end Tokens

/-! ## Expressions -/

section Expressions

variable {inner inner' first first' operator operand operand' : Rule} {fault : Fault}
variable {limit limit' : Nat}

omit [P.Reads] in
lemma pairedRule_chain (hfirst : PairedRule P k first first')
    (hoperator : PairedRule P k operator operator) (hoperand : PairedRule P k operand operand')
    (hfits : P.Fits k (limit + 1) (limit' + 1)) :
    PairedRule P k (chain limit first operator operand fault)
      (chain limit' first' operator operand' fault) := by
  have hlink : PairedRule P k (link operator operand fault) (link operator operand' fault) :=
    hoperator.guard fun m hm => (hoperand.require fault (by omega)).bind fun _ =>
      (paired_combine _ _).bind fun _ => paired_pure (Nat.le_refl _)
  refine hfirst.guard fun m hm => ?_
  refine ((hlink.countMatches 0 (by omega) (hfits.le_of_le_pred hm)).discard fun _ => Nat.le_refl m).bind ?_
  exact fun _ => paired_pure (Nat.le_refl _)

lemma pairedRule_unsignedFactor (h : PairedRule P (k - 1) inner inner') :
    PairedRule P k (unsignedFactor inner) (unsignedFactor inner') := by
  have hoperand : PairedRule P k (firstOf [name, number, keyword "getX", keyword "getY"])
      (firstOf [name, number, keyword "getX", keyword "getY"]) :=
    pairedRule_firstOf (.cons (pairedRule_name k) (.cons (pairedRule_number k)
      (.cons (pairedRule_keyword _ k) (.cons (pairedRule_keyword _ k) .nil))))
  have hparentheses : PairedRule P k
      (skip (symbol "(") >>= fun matched => if matched = true then (do
        require inner .emptyParentheses
        require (skip (symbol ")")) .unclosedParentheses
        return true) else pure false)
      (skip (symbol "(") >>= fun matched => if matched = true then (do
        require inner' .emptyParentheses
        require (skip (symbol ")")) .unclosedParentheses
        return true) else pure false) := by
    refine (pairedRule_symbol _ k).skip.guard fun m hm => (h.require _ hm).bind fun _ => ?_
    refine ((pairedRule_symbol ")" m).skip.require _ (Nat.le_refl m)).bind fun _ => ?_
    exact paired_pure (Nat.le_refl _)
  intro m hm
  refine (hoperand m hm).bind ?_
  rintro (_ | _)
  · exact hparentheses m hm
  · exact paired_pure (Nat.le_refl _)

lemma pairedRule_factor (h : PairedRule P (k - 1) inner inner') :
    PairedRule P k (factor inner) (factor inner') := by
  intro m hm
  refine (pairedRule_symbols additive k m hm).bind fun signed => ?_
  have hle : left m signed ≤ k := by
    cases signed
    · exact hm
    · exact Nat.le_trans (Nat.sub_le m 1) hm
  refine (pairedRule_unsignedFactor h (left m signed) hle).bind ?_
  rintro (_ | _) <;> cases signed
  · exact paired_pure (Nat.le_refl _)
  · exact (paired_fail _).bind fun _ : Unit => paired_pure (Nat.sub_le m 1)
  · exact paired_pure (Nat.le_refl _)
  · exact (paired_combine 2 [1]).bind fun _ => paired_pure (Nat.sub_le _ 1)

lemma pairedRule_sum (h : PairedRule P (k - 1) inner inner')
    (hfits : P.Fits k (limit + 1) (limit' + 1)) :
    PairedRule P k (sum inner limit) (sum inner' limit') := by
  have hfactor := pairedRule_factor h
  have hunsigned := pairedRule_unsignedFactor h
  have hmultiply : PairedRule P k multiplyOperator multiplyOperator :=
    pairedRule_symbols multiplicative k
  have hterm : PairedRule P k (term inner limit) (term inner' limit') :=
    pairedRule_chain hfactor hmultiply hfactor hfits
  have hunsignedTerm : PairedRule P k (unsignedTerm inner limit) (unsignedTerm inner' limit') :=
    pairedRule_chain hunsigned hmultiply hunsigned hfits
  exact pairedRule_chain hterm (pairedRule_symbols additive k) hunsignedTerm hfits

theorem pairedRule_expressionAt (hfits : P.Fits k limit limit') :
    PairedRule P k (expressionAt limit) (expressionAt limit') :=
  pairedRule_of_succ (fun _ => Nat.le_refl _) (fun _ _ _ hfits h => pairedRule_sum h hfits) hfits

end Expressions

/-! ## Commands -/

section Commands

variable {expression expression' command command' R R' : Rule} {limit limit' : Nat}
variable {f f' : Unit → Rule} {fault : Fault}

section Parts

omit [P.Reads]

/-- One part of a command, which has to match. -/
lemma PairedRule.part (h : PairedRule P k R R') (hm : m ≤ k)
    (hthen : ∀ u, Paired P m (f u) (f' u) fun _ => m) :
    Paired P m (Step.require R fault >>= f) (Step.require R' fault >>= f') fun _ => m :=
  (h.require fault hm).bind hthen

/-- The combination of the parts of a command. -/
lemma paired_combine_bind (root : Nat) (children : List Nat)
    (hthen : ∀ u, Paired P m (f u) (f' u) fun _ => m) :
    Paired P m (combine root children >>= f) (combine root children >>= f') fun _ => m :=
  (paired_combine root children).bind hthen

end Parts

/-- The end of a command that ends its line. -/
lemma paired_line (hfits : P.Fits k (limit + 1) (limit' + 1)) (hm : m ≤ k) :
    Paired P m (require (lineEnd limit) fault >>= fun _ => pure true)
      (require (lineEnd limit') fault >>= fun _ => pure true) fun _ => m :=
  (pairedRule_lineEnd hfits).part hm fun _ => paired_pure (Nat.le_refl _)

lemma pairedRule_block (h : PairedRule P (k - 1) command command')
    (hfits : P.Fits k (limit + 1) (limit' + 1)) :
    PairedRule P k (block command limit) (block command' limit') := by
  have hline := pairedRule_lineEnd hfits
  refine (pairedRule_symbol _ k).skip.guard fun m hm => ?_
  refine hline.part (by omega) fun _ => ?_
  refine (h.countMatches 0 hm (hfits.le_of_le_pred hm)).bind fun count => ?_
  refine (pairedRule_symbol _ m).skip.part (Nat.le_refl m) fun _ => ?_
  refine hline.part (by omega) fun _ => ?_
  exact (paired_combineUnder "block" count).bind fun _ => paired_pure (Nat.le_refl _)

lemma pairedRule_condition (h : PairedRule P k expression expression') :
    PairedRule P k (condition expression) (condition expression') := by
  refine h.guard fun m hm => ?_
  refine (pairedRule_symbols comparators m).part (Nat.le_refl m) fun _ => ?_
  refine h.part (by omega) fun _ => ?_
  exact paired_combine_bind _ _ fun _ => paired_pure (Nat.le_refl _)

lemma pairedRule_namedColor (k : Nat) :
    PairedRule P k (namedColor Rgb.named) (namedColor Rgb.named) := by
  rw [namedColor_eq]
  refine pairedRule_self_firstOf fun R hR => ?_
  obtain ⟨color, -, rfl⟩ := List.mem_map.1 hR
  exact (pairedRule_keyword color.1 k).skip.guard fun m _ =>
    (paired_push _).bind fun _ => paired_pure (Nat.le_refl _)

section Forms

variable (h : PairedRule P (k - 1) expression expression')

include h

lemma pairedRule_color : PairedRule P k (color expression) (color expression') := by
  have hcolor : PairedRule P k (keyword "color" >>= fun matched => if matched = true then (do
        require expression (.noComponent 0)
        require expression (.noComponent 1)
        require expression (.noComponent 2)
        combine 4 [3, 2, 1]
        return true) else pure false)
      (keyword "color" >>= fun matched => if matched = true then (do
        require expression' (.noComponent 0)
        require expression' (.noComponent 1)
        require expression' (.noComponent 2)
        combine 4 [3, 2, 1]
        return true) else pure false) := by
    refine (pairedRule_keyword _ k).guard fun m hm => ?_
    refine h.part hm fun _ => h.part hm fun _ => h.part hm fun _ => ?_
    exact paired_combine_bind _ _ fun _ => paired_pure (Nat.le_refl _)
  intro m hm
  refine (pairedRule_namedColor k m hm).bind ?_
  rintro (_ | _)
  · exact hcolor m hm
  · exact paired_pure (Nat.le_refl _)

variable (hfits : P.Fits k (limit + 1) (limit' + 1))

include hfits

lemma pairedRule_move : PairedRule P k (move expression limit) (move expression' limit') := by
  have hwords : PairedRule P k moveWord moveWord := pairedRule_self_firstOf fun R hR => by
    obtain ⟨word, -, rfl⟩ := List.mem_map.1 (show R ∈ moveWords.map keyword from hR)
    exact pairedRule_keyword word k
  refine hwords.guard fun m hm => h.part hm fun _ => ?_
  exact paired_combine_bind _ _ fun _ => paired_line hfits (by omega)

lemma pairedRule_colorLine :
    PairedRule P k (colorLine expression limit) (colorLine expression' limit') :=
  (pairedRule_color h).guard fun m hm => paired_line hfits (by omega)

lemma pairedRule_jump : PairedRule P k (jump expression limit) (jump expression' limit') := by
  refine (pairedRule_keyword _ k).guard fun m hm => h.part hm fun _ => h.part hm fun _ => ?_
  exact paired_combine_bind _ _ fun _ => paired_line hfits (by omega)

lemma pairedRule_assignment :
    PairedRule P k (assignment expression limit) (assignment expression' limit') := by
  refine (pairedRule_keyword _ k).guard fun m hm => ?_
  refine (pairedRule_name m).part (Nat.le_refl m) fun _ => h.part hm fun _ => ?_
  exact paired_combine_bind _ _ fun _ => paired_line hfits (by omega)

lemma pairedRule_call : PairedRule P k (call expression limit) (call expression' limit') := by
  refine (pairedRule_keyword _ k).guard fun m hm => ?_
  refine (pairedRule_name m).part (Nat.le_refl m) fun _ => ?_
  refine (h.countMatches 0 hm (hfits.le_of_le_pred hm)).bind fun count => ?_
  refine (paired_combineUnder "list" count).bind fun _ => ?_
  exact paired_combine_bind _ _ fun _ => paired_line hfits (by omega)

variable (hcommand : PairedRule P (k - 1) command command')

include hcommand

lemma pairedRule_repetition :
    PairedRule P k (repetition expression command limit)
      (repetition expression' command' limit') := by
  refine (pairedRule_keyword _ k).guard fun m hm => h.part hm fun _ => ?_
  refine (pairedRule_block hcommand hfits).part (by omega) fun _ => ?_
  exact paired_combine_bind _ _ fun _ => paired_pure (Nat.le_refl _)

lemma pairedRule_whileLoop :
    PairedRule P k (whileLoop expression command limit)
      (whileLoop expression' command' limit') := by
  refine (pairedRule_keyword _ k).guard fun m hm => (pairedRule_condition h).part hm fun _ => ?_
  refine (pairedRule_block hcommand hfits).part (by omega) fun _ => ?_
  exact paired_combine_bind _ _ fun _ => paired_pure (Nat.le_refl _)

lemma pairedRule_choice :
    PairedRule P k (choice expression command limit) (choice expression' command' limit') := by
  have hblock := pairedRule_block hcommand hfits
  refine (pairedRule_keyword _ k).guard fun m hm => (pairedRule_condition h).part hm fun _ => ?_
  refine hblock.part (by omega) fun _ => ?_
  refine ((pairedRule_keyword "else" m).skip m (Nat.le_refl m)).bind fun matched => ?_
  cases matched with
  | false => exact paired_combine_bind _ _ fun _ => paired_pure (Nat.le_refl m)
  | true =>
    have hsecond : Paired P (m - 1)
        (require (block command limit) .noElseBlock >>= fun _ => combine 4 [3, 2, 1] >>= fun _ =>
          pure true)
        (require (block command' limit') .noElseBlock >>= fun _ => combine 4 [3, 2, 1] >>= fun _ =>
          pure true) fun _ => m - 1 :=
      hblock.part (by omega) fun _ => paired_combine_bind _ _ fun _ => paired_pure (Nat.le_refl _)
    exact hsecond.mono fun _ => Nat.sub_le m 1

lemma pairedRule_anyCommand :
    PairedRule P k (anyCommand expression command limit)
      (anyCommand expression' command' limit') := by
  have hbare (word : String) : PairedRule P k (bareCommand limit word) (bareCommand limit' word) :=
    (pairedRule_keyword word k).guard fun m hm => paired_line hfits (by omega)
  exact pairedRule_firstOf (.cons (pairedRule_move h hfits) (.cons (pairedRule_colorLine h hfits)
    (.cons (hbare _) (.cons (hbare _) (.cons (hbare _) (.cons (pairedRule_jump h hfits)
      (.cons (pairedRule_assignment h hfits) (.cons (pairedRule_repetition h hfits hcommand)
        (.cons (pairedRule_whileLoop h hfits hcommand) (.cons (pairedRule_choice h hfits hcommand)
          (.cons (pairedRule_call h hfits) .nil)))))))))))

end Forms

theorem pairedRule_commandAt (hfits : P.Fits k limit limit') :
    PairedRule P k (commandAt limit) (commandAt limit') :=
  pairedRule_of_succ (fun _ => Nat.le_refl _)
    (fun _ _ _ hfits h => pairedRule_anyCommand (pairedRule_expressionAt hfits.pred) hfits h) hfits

end Commands

/-! ## Scripts -/

section Scripts

variable {command command' : Rule} {limit limit' : Nat}

lemma pairedRule_procedure (h : PairedRule P (k - 1) command command')
    (hfits : P.Fits k (limit + 1) (limit' + 1)) :
    PairedRule P k (procedure command limit) (procedure command' limit') := by
  refine (pairedRule_keyword _ k).guard fun m hm => ?_
  refine (pairedRule_name m).part (Nat.le_refl m) fun _ => ?_
  refine ((pairedRule_name m).countMatches 0 (Nat.le_refl m) (hfits.le_of_le_pred hm)).bind fun count => ?_
  refine (paired_combineUnder "list" count).bind fun _ => (paired_push _).bind fun _ => ?_
  refine paired_combine_bind _ _ fun _ => ?_
  refine (pairedRule_block h hfits).part (by omega) fun _ => ?_
  exact paired_combine_bind _ _ fun _ => paired_pure (Nat.le_refl _)

/-- Nothing may follow a script. -/
def endOfScript : Rule := do
  if (← get).stream.hasNext then fail .trailingInput
  return true

lemma endOfScript_apply (a : Assembly) :
    endOfScript a = if a.tokens = [] then .ok true a else fail .trailingInput a := by
  have hnext : a.stream.hasNext = false ↔ a.tokens = [] := by
    rw [TokenStream.hasNext_eq_false_iff, tokens, List.map_eq_nil_iff]
    rfl
  simp only [endOfScript, bind_apply, get_apply]
  by_cases hnil : a.tokens = []
  · rw [if_pos hnil, hnext.2 hnil]
    rfl
  · have hsome : a.stream.hasNext = true := by
      rw [← Bool.not_eq_false]
      exact fun hfalse => hnil (hnext.1 hfalse)
    rw [if_neg hnil, hsome]
    rfl

omit [P.Reads] in
lemma paired_endOfScript : Paired P m endOfScript endOfScript fun _ => m where
  shrinks a := by
    by_cases hnil : a.tokens = []
    · exact meets_of_ok ((endOfScript_apply a).trans (if_pos hnil)) (Nat.le_refl _)
    · exact meets_of_error ((endOfScript_apply a).trans (if_neg hnil)) (Nat.le_refl _)
  both a a' h := by
    have hiff := P.tokens_eq_nil_iff h
    by_cases hnil : a.tokens = []
    · have hok := (endOfScript_apply a).trans (if_pos hnil)
      have hok' := (endOfScript_apply a').trans (if_pos (hiff.2 hnil))
      exact meets_of_ok hok (.inr (meets_of_ok hok' ⟨rfl, h⟩))
    · have hfail := (endOfScript_apply a).trans (if_neg hnil)
      have hfail' := (endOfScript_apply a').trans (if_neg fun hnil' => hnil (hiff.1 hnil'))
      refine meets_of_error hfail (.inr (meets_of_error hfail' ?_))
      rw [P.stack_eq h]
      exact P.errors_grammar _ _ _ _

/-- The rule of scripts behind the line ends in front of a script. -/
def script (command : Rule) (limit : Nat) : Rule := do
  require command .noFirstCommand
  let commands ← countMatches command 1 limit
  combineUnder "block" commands
  let procedures ← many (procedure command limit) limit
  combineUnder "list" procedures
  push (.leaf (.keyword "program"))
  combine 1 [3, 2]
  endOfScript

lemma program_eq (command : Rule) (limit : Nat) :
    program command limit = discard (lineEnd limit) >>= fun _ => script command limit := rfl

/-- Behind the line ends in front of a script the rule does the same on both sides. -/
theorem paired_scriptAt (hfits : P.Fits k limit limit') :
    Paired P k (script (commandAt limit) limit) (script (commandAt limit') limit') fun _ => k := by
  have hcommand : PairedRule P k (commandAt limit) (commandAt limit') := pairedRule_commandAt hfits
  have hprocedure := pairedRule_procedure (hcommand.of_le (Nat.sub_le k 1)) hfits.succ
  refine hcommand.part (Nat.le_refl k) fun _ => ?_
  refine (hcommand.countMatches 1 (Nat.le_refl k) hfits.le).bind fun count => ?_
  refine (paired_combineUnder "block" count).bind fun _ => ?_
  refine (hprocedure.countMatches 0 (Nat.le_refl k) hfits.le).bind fun count => ?_
  refine (paired_combineUnder "list" count).bind fun _ => (paired_push _).bind fun _ => ?_
  exact paired_combine_bind _ _ fun _ => paired_endOfScript

/-- The rule of scripts does the same on both sides. -/
theorem paired_programAt (hfits : P.Fits k limit limit') :
    Paired P k (program (commandAt limit) limit) (program (commandAt limit') limit')
      fun _ => k := by
  rw [program_eq, program_eq]
  refine ((pairedRule_lineEnd hfits.succ k (Nat.le_refl k)).discard fun matched => ?_).bind
    fun _ => paired_scriptAt hfits
  cases matched
  · exact Nat.le_refl k
  · exact Nat.sub_le k 1

end Scripts

end Step

end Logo
