import Logo.Proofs.Grammar.Derivation
import Logo.Proofs.Grammar.Step

/-!
# What it means that a rule reads a phrase

A rule answers in one of three ways, and `Step.Reads R bound P V` says for each what is the case
afterwards.

* It matched: tokens were consumed and trees were built that satisfy `P`.
* It did not match: nothing was consumed, but the next token was looked at.
* It failed (`Strays a V e b`): the tokens of `a` split into a part `p` that satisfies `V` and the
  rest, and the error `e` belongs to the head of that rest (`Placed`).

`V p` will be "some phrase begins with `p`", so the third part says that the error comes no earlier
and no later than it must.  The bound is on the number of tokens to come; every limit of the
grammar exceeds it, which is why repetitions never end for want of fuel.
-/

namespace Logo

namespace Step

open Assembly Grammar

/-! ## Where an error belongs -/

/-- Whether an error belongs to the head of `rest`: a malformed literal is reported as such, on its
line; any other token is where the grammar was left, and is still to come.  Without a next token,
the error is on the line of the last one. -/
def Placed (e : ParseError) (rest : List (Token × Nat)) (endLine : Nat) (b : Assembly) : Prop :=
  match rest with
  | [] => ∃ fault trees, e = .grammar fault endLine trees
  | (t, l) :: _ =>
    if t.kind = .malformed then e = .literal t.text l
    else b.ahead = rest ∧ ∃ fault trees, e = .grammar fault l trees

/-- Whether the error that left `b` belongs behind tokens of `a` that satisfy `V`. -/
def Strays (a : Assembly) (V : List Token → Prop) (e : ParseError) (b : Assembly) : Prop :=
  ∃ p rest, a.ahead = p ++ rest ∧ V (p.map Prod.fst) ∧ Placed e rest a.endLine b

lemma placed_of_peeked {a : Assembly} (h : a.Peeked) (fault : Fault) (trees : List (Tree Token)) :
    Placed (.grammar fault a.line trees) a.ahead a.endLine a := by
  unfold Placed
  split
  · rename_i hnil
    exact ⟨fault, trees, by simp [endLine, hnil]⟩
  · rename_i t l rest hcons
    obtain ⟨hkind, hline⟩ := h (t, l) (by simp [hcons])
    rw [if_neg hkind]
    exact ⟨rfl, fault, trees, by rw [hline]⟩

/-- A rule that fails behind some tokens fails behind those and the ones before them. -/
lemma Strays.shift {a b d : Assembly} {c : List (Token × Nat)} {trees : List (Tree Token)}
    {V V' : List Token → Prop} {e : ParseError} (hs : Strays b V' e d) (h : Advanced a c trees b)
    (hV : ∀ p, p <+: b.tokens → V' p → V (c.map Prod.fst ++ p)) : Strays a V e d := by
  obtain ⟨p, rest, hahead, hp, hplaced⟩ := hs
  refine ⟨c ++ p, rest, by rw [h.ahead, hahead, List.append_assoc], ?_, h.endLine ▸ hplaced⟩
  have hbegins : p.map Prod.fst <+: b.tokens := ⟨rest.map Prod.fst, by simp [tokens, hahead]⟩
  rw [List.map_append]
  exact hV _ hbegins hp

/-- A failure right here. -/
lemma strays_of_peeked {a : Assembly} {V : List Token → Prop} (h : a.Peeked) (hV : V [])
    (fault : Fault) (trees : List (Tree Token)) : Strays a V (.grammar fault a.line trees) a :=
  ⟨[], a.ahead, rfl, hV, placed_of_peeked h fault trees⟩

/-! ## Rules -/

/-- What an answer of a rule says: whether tokens were consumed that satisfy `P` together with the
tokens to come and the trees built. -/
def Answers (a : Assembly) (P : List Token → List Token → List (Tree Token) → Prop)
    (matched : Bool) (b : Assembly) : Prop :=
  if matched then ∃ c trees, Advanced a c trees b ∧ c ≠ [] ∧ P (c.map Prod.fst) b.tokens trees
  else Advanced a [] [] b ∧ b.Peeked

/-- What a rule does to an assembly with fewer tokens to come than the bound. -/
def Reads (R : Rule) (bound : Nat) (P : List Token → List Token → List (Tree Token) → Prop)
    (V : List Token → Prop) : Prop :=
  ∀ a : Assembly, a.ahead.length < bound → Meets R a (Answers a P) (Strays a V)

section Reads

variable {R : Rule} {bound : Nat} {P P' : List Token → List Token → List (Tree Token) → Prop}
variable {V V' : List Token → Prop}

lemma Reads.mono (h : Reads R bound P V) (hP : ∀ c rest trees, P c rest trees → P' c rest trees)
    (hV : ∀ p, V p → V' p) : Reads R bound P' V' := by
  intro a ha
  refine (h a ha).mono ?_ ?_
  · rintro (_ | _) b hb
    · exact hb
    · obtain ⟨c, trees, hadv, hne, hread⟩ := hb
      exact ⟨c, trees, hadv, hne, hP _ _ _ hread⟩
  · rintro e b ⟨p, rest, hahead, hp, hplaced⟩
    exact ⟨p, rest, hahead, hV _ hp, hplaced⟩

lemma Reads.of_le {more : Nat} (h : Reads R more P V) (hle : bound ≤ more) :
    Reads R bound P V := fun a ha => h a (Nat.lt_of_lt_of_le ha hle)

/-! ## Single tokens -/

lemma advanced_of_eq {a b : Assembly} {l : Nat} (hahead : b.ahead = a.ahead)
    (hstack : b.stack = a.stack) (hline : b.line = l) {t : Token} {rest : List (Token × Nat)}
    (hcons : a.ahead = (t, l) :: rest) (ht : t.kind ≠ .malformed) :
    Advanced a [] [] b ∧ b.Peeked := by
  refine ⟨⟨hahead.symm, hstack, ?_⟩, ?_⟩
  · simp [endLine, hahead, hcons, List.getLast?_cons]
  · intro x hx
    rw [hahead, hcons, List.head?_cons, Option.mem_some_iff] at hx
    subst hx
    exact ⟨ht, hline⟩

lemma advanced_of_cons {a b : Assembly} {t : Token} {l : Nat} {rest : List (Token × Nat)}
    (hcons : a.ahead = (t, l) :: rest) (hahead : b.ahead = rest) (hline : b.line = l)
    (hstack : b.stack = .leaf t :: a.stack) : Advanced a [(t, l)] [.leaf t] b where
  ahead := by rw [hcons, hahead]; rfl
  stack := hstack
  endLine := by
    cases rest with
    | nil => simp [endLine, hahead, hcons, hline]
    | cons x rest => simp [endLine, hahead, hcons, List.getLast?_cons]

/-- Looking for a token finds it, finds another one, or stumbles over a malformed literal. -/
theorem meets_accept (kind : TokenKind) (text? : Option String) (a : Assembly) (hV : V []) :
    Meets (accept kind text?) a
      (fun matched b =>
        if matched then ∃ t l, Wanted kind text? t ∧ Advanced a [(t, l)] [.leaf t] b
        else Advanced a [] [] b ∧ b.Peeked ∧ ∀ x ∈ b.tokens.head?, ¬ Wanted kind text? x)
      (Strays a V) := by
  cases hahead : a.ahead with
  | nil =>
    refine meets_of_ok (accept_of_nil hahead) ⟨Advanced.refl a, ?_, ?_⟩
    · simp [Peeked, hahead]
    · simp [tokens, hahead]
  | cons x rest =>
    obtain ⟨t, l⟩ := x
    by_cases hkind : t.kind = .malformed
    · obtain ⟨b, hb, -, -⟩ := accept_of_malformed kind text? hahead hkind
      refine meets_of_error hb ⟨[], a.ahead, rfl, hV, ?_⟩
      simp [hahead, Placed, hkind]
    · by_cases hwanted : Wanted kind text? t
      · obtain ⟨b, hb, hrest, hline, hstack⟩ := accept_of_wanted hahead hwanted hkind
        exact meets_of_ok hb ⟨t, l, hwanted, advanced_of_cons hahead hrest hline hstack⟩
      · obtain ⟨b, hb, hsame, hline, hstack⟩ := accept_of_unwanted hahead hwanted hkind
        obtain ⟨hadv, hpeeked⟩ := advanced_of_eq hsame hstack hline hahead hkind
        refine meets_of_ok hb ⟨hadv, hpeeked, ?_⟩
        simpa [tokens, hsame, hahead] using hwanted

theorem reads_accept (kind : TokenKind) (text? : Option String) (hV : V []) :
    Reads (accept kind text?) bound
      (fun c _ trees => ∃ t, Wanted kind text? t ∧ c = [t] ∧ trees = [.leaf t]) V := by
  intro a _
  refine (meets_accept kind text? a hV).mono ?_ (fun _ _ h => h)
  rintro (_ | _) b hb
  · exact ⟨hb.1, hb.2.1⟩
  · obtain ⟨t, l, hwanted, hadv⟩ := hb
    exact ⟨_, _, hadv, by simp, t, hwanted, rfl, rfl⟩

/-! ## Combinations of rules -/

/-- A rule that is tried where another one did not match reads as if it had been tried first. -/
lemma Reads.after (h : Reads R bound P V) {a b : Assembly} (hadv : Advanced a [] [] b)
    (ha : a.ahead.length < bound) :
    Meets R b (Answers a P) (Strays a V) := by
  refine (h b (Nat.lt_of_le_of_lt hadv.length_le ha)).mono ?_ ?_
  · rintro (_ | _) d hd
    · exact ⟨hadv.trans hd.1, hd.2⟩
    · obtain ⟨c, trees, hd, hne, hread⟩ := hd
      exact ⟨c, trees, by simpa using hadv.trans hd, hne, hread⟩
  · intro e _ he
    exact he.shift hadv fun p _ hp => hp

/-- The first rule of several that matches, when all of them read the same. -/
theorem reads_firstOf {rules : List Rule} (hne : rules ≠ [])
    (h : ∀ R ∈ rules, Reads R bound P V) : Reads (firstOf rules) bound P V := by
  induction rules with
  | nil => exact absurd rfl hne
  | cons R rules ih =>
    intro a ha
    refine (h R (by simp) a ha).bind (fun _ _ he => he) ?_
    rintro (_ | _) b hb
    · cases rules with
      | nil => exact hb
      | cons R' rules =>
        have hrest := ih (by simp) fun R hR => h R (List.mem_cons_of_mem _ hR)
        exact hrest.after hb.1 ha
    · exact hb

/-- A rule that goes on once another one has matched. -/
theorem Reads.guard {body : Rule} (h : Reads R bound P' V)
    (hbody : ∀ a b c trees, Advanced a c trees b → P' (c.map Prod.fst) b.tokens trees → c ≠ [] →
      b.ahead.length + 1 < bound → Meets body b (Answers a P) (Strays a V)) :
    Reads (R >>= fun matched => if matched = true then body else pure false) bound P V := by
  intro a ha
  refine (h a ha).bind (fun _ _ he => he) ?_
  rintro (_ | _) b hb
  · exact hb
  · obtain ⟨c, trees, hadv, hne, hread⟩ := hb
    have hless := hadv.length_lt hne
    exact hbody a b c trees hadv hread hne (by omega)

/-- A rule whose tree is dropped. -/
theorem Reads.skip (h : Reads R bound P V)
    (hone : ∀ c rest trees, P c rest trees → ∃ t, trees = [t]) :
    Reads (skip R) bound (fun c rest trees => trees = [] ∧ ∃ t, P c rest [t]) V := by
  intro a ha
  refine (h a ha).bind (fun _ _ he => he) ?_
  rintro (_ | _) b hb
  · exact hb
  · obtain ⟨c, trees, hadv, hne, hread⟩ := hb
    obtain ⟨t, rfl⟩ := hone _ _ _ hread
    refine ⟨c, [], ⟨hadv.ahead, ?_, hadv.endLine⟩, hne, rfl, t, hread⟩
    simp [hadv.stack]

/-- A rule that has to match.  Where it does not, the error is placed on the token that the rule
looked at. -/
theorem Reads.require (h : Reads R bound P V) (hV : V []) (fault : Fault) {a : Assembly}
    (ha : a.ahead.length < bound) :
    Meets (require R fault) a
      (fun _ b => ∃ c trees, Advanced a c trees b ∧ c ≠ [] ∧ P (c.map Prod.fst) b.tokens trees)
      (Strays a V) := by
  refine (h a ha).bind (fun _ _ he => he) ?_
  rintro (_ | _) b hb
  · obtain ⟨hadv, hpeeked⟩ := hb
    refine (strays_of_peeked hpeeked hV fault _).shift hadv fun p _ hp => ?_
    simpa using hp
  · exact hb

/-- A rule that has to match behind the tokens `c`, with more steps behind it.  Its failure is one
behind `c` and what it consumed itself. -/
theorem Reads.require_then {β : Type} {f : Unit → Step β} {Q : β → Assembly → Prop}
    {W : List Token → Prop} (h : Reads R bound P V) (hV : V []) {fault : Fault} {a b : Assembly}
    {c : List (Token × Nat)} {trees : List (Tree Token)} (hadv : Advanced a c trees b)
    (hb : b.ahead.length < bound)
    (hfail : ∀ p, p <+: b.tokens → V p → W (c.map Prod.fst ++ p))
    (hthen : ∀ c' new d, Advanced a (c ++ c') (new ++ trees) d → P (c'.map Prod.fst) d.tokens new →
      d.ahead.length < b.ahead.length → Meets (f ()) d Q (Strays a W)) :
    Meets (Step.require R fault >>= f) b Q (Strays a W) := by
  refine (h.require hV fault hb).bind (fun e _ he => he.shift hadv hfail) ?_
  rintro _ d ⟨c', new, hd, hne, hread⟩
  exact hthen c' new d (hadv.trans hd) hread (hd.length_lt hne)

/-- A rule that may match any number of times, followed through an invariant on the number of
matches, the tokens consumed, the tokens to come and the trees built. -/
theorem Reads.countMatches {I : Nat → List Token → List Token → List (Tree Token) → Prop}
    (h : Reads R bound P V)
    (hstep : ∀ n c c' rest trees new, I n c (c' ++ rest) trees → P c' rest new →
      I (n + 1) (c ++ c') rest (new ++ trees))
    (hV : ∀ n c rest trees p, I n c rest trees → p <+: rest → V p → V' (c ++ p))
    {a : Assembly} (n limit : Nat) {b : Assembly} {c : List (Token × Nat)}
    {trees : List (Tree Token)} (hadv : Advanced a c trees b)
    (hI : I n (c.map Prod.fst) b.tokens trees) (hb : b.ahead.length < bound)
    (hlimit : b.ahead.length < limit) :
    Meets (countMatches R n limit) b
      (fun m d => ∃ c' trees', Advanced a c' trees' d ∧ I m (c'.map Prod.fst) d.tokens trees' ∧
        d.Peeked ∧ d.ahead.length ≤ b.ahead.length)
      (Strays a V') := by
  induction limit generalizing n b c trees with
  | zero => omega
  | succ limit ih =>
    refine (h b hb).bind (fun e _ he => he.shift hadv fun p hp => hV _ _ _ _ p hI hp) ?_
    rintro (_ | _) d hd
    · obtain ⟨hd, hpeeked⟩ := hd
      have htokens : d.tokens = b.tokens := by simpa using hd.tokens.symm
      exact ⟨c, trees, by simpa using hadv.trans hd, htokens ▸ hI, hpeeked, hd.length_le⟩
    · obtain ⟨c', new, hd, hne, hread⟩ := hd
      have hless := hd.length_lt hne
      rw [hd.tokens] at hI
      have hI' : I (n + 1) ((c ++ c').map Prod.fst) d.tokens (new ++ trees) := by
        rw [List.map_append]
        exact hstep _ _ _ _ _ _ hI hread
      refine (ih (n + 1) (hadv.trans hd) hI' (by omega) (by omega)).mono ?_ (fun _ _ he => he)
      rintro m d' ⟨c'', trees', hadv', hI'', hpeeked, hle⟩
      exact ⟨c'', trees', hadv', hI'', hpeeked, by omega⟩

end Reads

end Step

end Logo
