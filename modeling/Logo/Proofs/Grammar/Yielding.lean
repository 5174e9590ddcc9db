import Logo.Proofs.Grammar.Step

/-!
# What a step certainly does

`Step.Yields S x v y` says that from every assembly with the view `x`, its tokens to come and its
stack, the step `S` succeeds with the answer `v` and leaves the view `y`.  Lines play no part in it,
and neither does the way in which the stream stores its tokens.

`Misses R ts` is the special case of a rule that does not match in front of `ts` and leaves
everything as it was.

Both are composed along the constructs of a `do` block, one lemma for each.
-/

namespace Logo

/-- The tokens to come and the trees built so far. -/
abbrev View : Type := List Token × List (Tree Token)

/-- What there is to see of an assembly. -/
def Assembly.view (a : Assembly) : View := (a.tokens, a.stack)

lemma Assembly.view_eq_iff {a : Assembly} {ts : List Token} {st : List (Tree Token)} :
    a.view = (ts, st) ↔ a.tokens = ts ∧ a.stack = st := Prod.mk.injEq _ _ _ _ ▸ Iff.rfl

namespace Step

open Assembly

variable {α β : Type}

/-- From every assembly with the first view the step answers `v` and leaves the second one. -/
def Yields (S : Step α) (x : View) (v : α) (y : View) : Prop :=
  ∀ a : Assembly, a.view = x → Meets S a (fun w b => w = v ∧ b.view = y) fun _ _ => False

/-- The rule does not match in front of these tokens. -/
def Misses (R : Rule) (ts : List Token) : Prop := ∀ st, Yields R (ts, st) false (ts, st)

/-! ## Sequences of steps -/

section Sequences

variable {S : Step α} {f : α → Step β} {x y z : View} {v : α} {w : β}

lemma yields_pure (v : α) (x : View) : Yields (pure v : Step α) x v x := fun _ ha => ⟨rfl, ha⟩

lemma Yields.bind (hS : Yields S x v y) (hf : Yields (f v) y w z) : Yields (S >>= f) x w z := by
  intro a ha
  refine (hS a ha).bind (fun _ _ he => he) ?_
  rintro _ b ⟨rfl, hb⟩
  exact hf b hb

lemma Yields.discard (hS : Yields S x v y) : Yields (discard S : Step PUnit) x () y := by
  intro a ha
  exact meets_discard.2 ((hS a ha).mono (fun _ _ hb => ⟨rfl, hb.2⟩) fun _ _ he => he)

lemma yields_of_ok (h : ∀ a : Assembly, a.view = x → ∃ b, S a = .ok v b ∧ b.view = y) :
    Yields S x v y := by
  intro a ha
  obtain ⟨b, hok, hb⟩ := h a ha
  exact meets_of_ok hok ⟨rfl, hb⟩

end Sequences

/-! ## Tokens and trees -/

section Tokens

variable {kind : TokenKind} {text? : Option String} {t : Token} {ts : List Token}
variable {st : List (Tree Token)}

lemma ahead_of_tokens {a : Assembly} (h : a.tokens = t :: ts) :
    ∃ l rest, a.ahead = (t, l) :: rest ∧ rest.map Prod.fst = ts := by
  obtain ⟨⟨t', l⟩, rest, hahead, rfl, hrest⟩ := List.map_eq_cons_iff.1 h
  exact ⟨l, rest, hahead, hrest⟩

theorem yields_accept (hwanted : Wanted kind text? t) (hkind : kind ≠ .malformed) :
    Yields (accept kind text?) (t :: ts, st) true (ts, .leaf t :: st) := by
  refine yields_of_ok fun a ha => ?_
  obtain ⟨htokens, hstack⟩ := view_eq_iff.1 ha
  obtain ⟨l, rest, hahead, hrest⟩ := ahead_of_tokens htokens
  obtain ⟨b, hb, hb', -, hbstack⟩ := accept_of_wanted hahead hwanted (hwanted.1 ▸ hkind)
  exact ⟨b, hb, by rw [view, tokens, hb', hbstack, hrest, hstack]⟩

theorem misses_accept (h : ∀ x ∈ ts.head?, x.kind ≠ .malformed ∧ ¬ Wanted kind text? x) :
    Misses (accept kind text?) ts := by
  intro st
  refine yields_of_ok fun a ha => ?_
  cases ts with
  | nil =>
    have hnil : a.ahead = [] := List.map_eq_nil_iff.1 (congrArg Prod.fst ha)
    exact ⟨a, accept_of_nil hnil, ha⟩
  | cons t ts =>
    obtain ⟨hkind, hunwanted⟩ := h t rfl
    obtain ⟨l, rest, hahead, hrest⟩ := ahead_of_tokens (congrArg Prod.fst ha)
    obtain ⟨b, hb, hb', -, hbstack⟩ := accept_of_unwanted hahead hunwanted hkind
    exact ⟨b, hb, by rw [← ha, view, tokens, hb', hbstack]; rfl⟩

lemma yields_push (t : Tree Token) (ts : List Token) (st : List (Tree Token)) :
    Yields (push t) (ts, st) () (ts, t :: st) := by
  intro a ha
  obtain ⟨htokens, hstack⟩ := view_eq_iff.1 ha
  exact meets_push.2 ⟨rfl, view_eq_iff.2 ⟨htokens, by rw [hstack]⟩⟩

/-- A step that only works on the stack. -/
lemma yields_of_stack {S : Step Unit} {ts : List Token} {st st' : List (Tree Token)}
    (h : ∀ a : Assembly, a.stack = st → S a = .ok () { a with stack := st' }) :
    Yields S (ts, st) () (ts, st') := by
  refine yields_of_ok fun a ha => ?_
  obtain ⟨htokens, hstack⟩ := view_eq_iff.1 ha
  exact ⟨_, h a hstack, view_eq_iff.2 ⟨htokens, rfl⟩⟩

end Tokens

/-! ## Rules -/

section Rules

variable {R : Rule} {rules after : List Rule} {body : Rule} {ts ts' : List Token}
variable {st st' : List (Tree Token)} {x y z : View} {t : Tree Token} {fault : Fault}

lemma Yields.guard {v : Bool} (hR : Yields R x true y) (hbody : Yields body y v z) :
    Yields (R >>= fun matched => if matched = true then body else pure false) x v z :=
  hR.bind hbody

lemma Misses.guard (h : Misses R ts) :
    Misses (R >>= fun matched => if matched = true then body else pure false) ts :=
  fun st => (h st).bind (yields_pure false _)

lemma Yields.require (h : Yields R x true y) : Yields (require R fault) x () y :=
  h.bind (yields_pure () _)

lemma Yields.skip (h : Yields R (ts, st) true (ts', t :: st)) :
    Yields (skip R) (ts, st) true (ts', st) := by
  refine h.guard ?_
  intro a ha
  obtain ⟨htokens, hstack⟩ := view_eq_iff.1 ha
  refine meets_bind.2 (meets_discard_pop.2 ⟨rfl, view_eq_iff.2 ⟨htokens, ?_⟩⟩)
  rw [hstack, List.tail_cons]

lemma Misses.skip (h : Misses R ts) : Misses (skip R) ts := h.guard

lemma misses_firstOf (h : ∀ R ∈ rules, Misses R ts) : Misses (firstOf rules) ts := by
  intro st
  induction rules with
  | nil => exact yields_pure false _
  | cons R rules ih =>
    exact (h R (by simp) st).bind (ih fun R' hR' => h R' (List.mem_cons_of_mem _ hR'))

/-- The first rule that matches, behind rules that do not. -/
lemma yields_firstOf (before : List Rule) (hbefore : ∀ R' ∈ before, Misses R' ts)
    (hR : Yields R (ts, st) true (ts', st')) :
    Yields (firstOf (before ++ R :: after)) (ts, st) true (ts', st') := by
  induction before with
  | nil => exact hR.bind (yields_pure true _)
  | cons R' before ih =>
    exact (hbefore R' (by simp) st).bind (ih fun R'' hR'' =>
      hbefore R'' (List.mem_cons_of_mem _ hR''))

lemma yields_countMatches_done (h : Misses R ts) (n : Nat) {limit : Nat} (hlimit : 0 < limit) :
    Yields (countMatches R n limit) (ts, st) n (ts, st) := by
  obtain ⟨limit, rfl⟩ := Nat.exists_eq_succ_of_ne_zero (Nat.pos_iff_ne_zero.1 hlimit)
  exact (h st).bind (yields_pure n _)

lemma yields_countMatches_next {n m limit : Nat} (hR : Yields R x true y)
    (hrest : Yields (countMatches R (n + 1) limit) y m z) :
    Yields (countMatches R n (limit + 1)) x m z := hR.bind hrest

end Rules

end Step

end Logo
