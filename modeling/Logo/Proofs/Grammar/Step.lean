import Logo.Grammar.Program
import Logo.Proofs.Contract
import Logo.Proofs.Token.Ahead

/-!
# Steps of an assembly, seen from outside

A rule of the grammar is a `Step`, built with `do` from `Step.accept` and the operations on the
stack, and proofs give its contract with `Meets`.  Most contracts speak of `Advanced a c trees b`,
which says how far `b` has come from `a`: the tokens `c` were consumed and the `trees` stand on top
of the stack.

The rest are the four things that can happen when a rule looks at the next token
(`accept_of_nil`, `accept_of_malformed`, `accept_of_wanted`, `accept_of_unwanted`) and what the
combinations of trees that occur in the rules do to a stack.
-/

namespace Logo

namespace Assembly

/-- The tokens to come with their lines. -/
def ahead (a : Assembly) : List (Token × Nat) := a.stream.ahead

/-- The tokens to come. -/
def tokens (a : Assembly) : List Token := a.ahead.map Prod.fst

/-- The line that an error would be placed on. -/
def line (a : Assembly) : Nat := a.stream.recentLine

/-- The line of the last token there is, or the current one if none is left. -/
def endLine (a : Assembly) : Nat := (a.ahead.getLast?.map Prod.snd).getD a.line

/-- Whether the next token has been looked at: it is well formed and errors are placed on its line.
-/
def Peeked (a : Assembly) : Prop := ∀ x ∈ a.ahead.head?, x.1.kind ≠ .malformed ∧ a.line = x.2

theorem length_ahead_lt_budget (a : Assembly) : a.ahead.length < a.budget :=
  Nat.lt_succ_of_le a.stream.length_ahead_le_pending

lemma length_tokens (a : Assembly) : a.tokens.length = a.ahead.length := by simp [tokens]

/-- From `a` the tokens `c` were consumed and the trees were built, newest first. -/
structure Advanced (a : Assembly) (c : List (Token × Nat)) (trees : List (Tree Token))
    (b : Assembly) : Prop where
  ahead : a.ahead = c ++ b.ahead
  stack : b.stack = trees ++ a.stack
  endLine : b.endLine = a.endLine

namespace Advanced

variable {a b d : Assembly} {c c' : List (Token × Nat)} {trees trees' : List (Tree Token)}

lemma refl (a : Assembly) : Advanced a [] [] a := ⟨rfl, rfl, rfl⟩

lemma trans (h : Advanced a c trees b) (h' : Advanced b c' trees' d) :
    Advanced a (c ++ c') (trees' ++ trees) d where
  ahead := by rw [h.ahead, h'.ahead, List.append_assoc]
  stack := by rw [h'.stack, h.stack, List.append_assoc]
  endLine := h'.endLine.trans h.endLine

lemma tokens (h : Advanced a c trees b) : a.tokens = c.map Prod.fst ++ b.tokens := by
  rw [Assembly.tokens, h.ahead, List.map_append]
  rfl

/-- What was consumed in between. -/
lemma tokens_between (h : Advanced a c trees b) (h' : Advanced a (c ++ c') trees' d) :
    b.tokens = c'.map Prod.fst ++ d.tokens := by
  have heq := h.tokens.symm.trans h'.tokens
  rwa [List.map_append, List.append_assoc, List.append_cancel_left_eq] at heq

lemma length_le (h : Advanced a c trees b) : b.ahead.length ≤ a.ahead.length := by
  simp [h.ahead]

lemma length_lt (h : Advanced a c trees b) (hc : c ≠ []) : b.ahead.length < a.ahead.length := by
  have hpos := List.length_pos_iff.2 hc
  rw [h.ahead, List.length_append]
  omega

/-- Work on the stack alone. -/
lemma withStack (h : Advanced a c trees b) {stack : List (Tree Token)}
    (hstack : stack = trees' ++ a.stack) : Advanced a c trees' { b with stack } :=
  ⟨h.ahead, hstack, h.endLine⟩

end Advanced

end Assembly

namespace Step

open Assembly

variable {α β : Type}

/-! ## Contracts of single steps -/

section Contracts

variable {a : Assembly} {E : ParseError → Assembly → Prop}

lemma meets_fail {fault : Fault} {Q : α → Assembly → Prop} :
    Meets (fail fault) a Q E ↔ E (.grammar fault a.line a.stack.reverse) a := Iff.rfl

lemma meets_push {t : Tree Token} {Q : Unit → Assembly → Prop} :
    Meets (push t) a Q E ↔ Q () { a with stack := t :: a.stack } := Iff.rfl

lemma meets_discard_pop {Q : Unit → Assembly → Prop} :
    Meets (discard pop) a Q E ↔ Q () { a with stack := a.stack.tail } := Iff.rfl

end Contracts

/-! ## Looking at the next token -/

/-- Whether a token is of the kind and, if one is given, has the text that a rule looks for. -/
def Wanted (kind : TokenKind) (text? : Option String) (t : Token) : Prop :=
  t.kind = kind ∧ text?.all (· = t.text)

instance (kind : TokenKind) (text? : Option String) (t : Token) :
    Decidable (Wanted kind text? t) := inferInstanceAs (Decidable (_ ∧ _))

section Accept

variable {kind : TokenKind} {text? : Option String} {a : Assembly} {t : Token} {l : Nat}
variable {rest : List (Token × Nat)}

theorem accept_of_nil (h : a.ahead = []) : accept kind text? a = .ok false a := by
  have hnext := TokenStream.next?_eq_none_iff.2 h
  simp only [accept, bind_apply, get_apply, hnext]
  rfl

/-- A malformed literal fails whatever was wanted, and is gone. -/
theorem accept_of_malformed (kind : TokenKind) (text? : Option String)
    (h : a.ahead = (t, l) :: rest) (ht : t.kind = .malformed) :
    ∃ b, accept kind text? a = .error (.literal t.text l) b ∧ b.ahead = rest ∧
      b.stack = a.stack := by
  obtain ⟨s, hnext, hrest, hline⟩ := TokenStream.exists_next? h
  refine ⟨{ a with stream := s }, ?_, hrest, rfl⟩
  simp only [accept, bind_apply, get_apply, hnext, set_apply, ht, ← hline]
  rfl

/-- A token that was wanted is consumed and becomes a leaf. -/
theorem accept_of_wanted (h : a.ahead = (t, l) :: rest) (hwanted : Wanted kind text? t)
    (ht : t.kind ≠ .malformed) :
    ∃ b, accept kind text? a = .ok true b ∧ b.ahead = rest ∧ b.line = l ∧
      b.stack = .leaf t :: a.stack := by
  obtain ⟨s, hnext, hrest, hline⟩ := TokenStream.exists_next? h
  refine ⟨⟨s, .leaf t :: a.stack⟩, ?_, hrest, hline, rfl⟩
  unfold Wanted at hwanted
  simp only [accept, bind_apply, get_apply, hnext, set_apply, ht, if_false, if_pos hwanted]
  rfl

/-- A token that was not wanted comes next again; only the line has been noticed. -/
theorem accept_of_unwanted (h : a.ahead = (t, l) :: rest) (hwanted : ¬ Wanted kind text? t)
    (ht : t.kind ≠ .malformed) :
    ∃ b, accept kind text? a = .ok false b ∧ b.ahead = a.ahead ∧ b.line = l ∧
      b.stack = a.stack := by
  obtain ⟨s, hnext, hrest, hline⟩ := TokenStream.exists_next? h
  obtain ⟨s', hback, hahead, hline'⟩ := TokenStream.exists_pushBack hnext
  refine ⟨⟨s', a.stack⟩, ?_, hahead, hline'.trans hline, rfl⟩
  unfold Wanted at hwanted
  simp only [accept, bind_apply, get_apply, hnext, set_apply, ht, if_false, if_neg hwanted,
    pushBack, hback]
  rfl

end Accept

/-! ## Combining trees -/

section Combine

variable {a : Assembly} {x y z : Tree Token} {stack : List (Tree Token)}

/-- What a combination does when all the trees it looks for are there, the root being a leaf. -/
theorem combine_apply {root : Nat} {children : List Nat} (top : List (Tree Token))
    {o : Token} {ts : List (Tree Token)} {entries : Array (Option (Tree Token))} (h : a.stack = top ++ stack)
    (hlength : top.length = children.length + 1)
    (hroot : takeEntry? (top.map some).toArray root = some (.leaf o, entries))
    (hchildren : takeEntries entries children = .ok ts) :
    combine root children a = .ok () { a with stack := .node o ts :: stack } := by
  have htake : a.stack.take (children.length + 1) = top := by
    rw [h, List.take_left' hlength]
  have hdrop : a.stack.drop (children.length + 1) = stack := by
    rw [h, List.drop_left' hlength]
  have hfull : ¬ top.length < children.length + 1 := by omega
  simp only [combine, bind_apply, get_apply, htake, hdrop, set_apply, if_neg hfull, hroot,
    hchildren]
  rfl

/-- An operator behind its operands. -/
lemma combine_operation {o : Token} (h : a.stack = y :: .leaf o :: x :: stack) :
    combine 2 [3, 1] a = .ok () { a with stack := .node o [x, y] :: stack } :=
  combine_apply [y, .leaf o, x] h rfl rfl rfl

/-- A word or sign behind which its operand stands. -/
lemma combine_one {o : Token} (h : a.stack = x :: .leaf o :: stack) :
    combine 2 [1] a = .ok () { a with stack := .node o [x] :: stack } :=
  combine_apply [x, .leaf o] h rfl rfl rfl

lemma combine_two {o : Token} (h : a.stack = y :: x :: .leaf o :: stack) :
    combine 3 [2, 1] a = .ok () { a with stack := .node o [x, y] :: stack } :=
  combine_apply [y, x, .leaf o] h rfl rfl rfl

lemma combine_three {o : Token} (h : a.stack = z :: y :: x :: .leaf o :: stack) :
    combine 4 [3, 2, 1] a = .ok () { a with stack := .node o [x, y, z] :: stack } :=
  combine_apply [z, y, x, .leaf o] h rfl rfl rfl

/-- A root pushed last over the two trees below it. -/
lemma combine_below {o : Token} (h : a.stack = .leaf o :: y :: x :: stack) :
    combine 1 [3, 2] a = .ok () { a with stack := .node o [x, y] :: stack } :=
  combine_apply [.leaf o, y, x] h rfl rfl rfl

/-- The entries in a row are taken one by one from the far end, whatever stands around them. -/
lemma takeEntries_range (ts : List (Tree Token)) (before after : List (Option (Tree Token))) :
    takeEntries (before ++ ts.reverse.map some ++ after).toArray
      ((List.range ts.length).map (· + (before.length + 1))).reverse = .ok ts := by
  induction ts generalizing after with
  | nil => rfl
  | cons t ts ih =>
    have hpositions : ((List.range (t :: ts).length).map (· + (before.length + 1))).reverse =
        (ts.length + before.length + 1) ::
          ((List.range ts.length).map (· + (before.length + 1))).reverse := by
      simp [List.range_succ, Nat.add_assoc]
    have hget : (before ++ (t :: ts).reverse.map some ++ after).toArray[
        ts.length + before.length]? = some (some t) := by
      simp [List.getElem?_append]
    have hset : (before ++ (t :: ts).reverse.map some ++ after).toArray.setIfInBounds
        (ts.length + before.length) none =
          (before ++ ts.reverse.map some ++ (none :: after)).toArray := by
      simp
    rw [hpositions, takeEntries, takeEntry?]
    simp only [hget, hset, ih (none :: after)]
    rfl

/-- The newest trees become the children of a new root, oldest first. -/
theorem combineUnder_apply {ts : List (Tree Token)} (word : String)
    (h : a.stack = ts.reverse ++ stack) :
    combineUnder word ts.length a =
      .ok () { a with stack := .node (.keyword word) ts :: stack } := by
  have hentries : takeEntries (none :: ts.reverse.map some).toArray
      ((List.range ts.length).map (· + 2)).reverse = .ok ts := by
    simpa using takeEntries_range ts [none] []
  rw [combineUnder, bind_apply, push, modify_apply]
  have hstack : Tree.leaf (.keyword word) :: a.stack =
      (.leaf (.keyword word) :: ts.reverse) ++ stack := by
    rw [h]
    rfl
  have hroot : takeEntry? ((Tree.leaf (.keyword word) :: ts.reverse).map some).toArray 1 =
      some (.leaf (.keyword word), (none :: ts.reverse.map some).toArray) := by
    simp [ takeEntry?]
  exact combine_apply (.leaf (.keyword word) :: ts.reverse) hstack (by simp) hroot hentries

end Combine

/-! ## Named colors -/

/-- The rule of one named color. -/
def colorName (color : String × Rgb) : Rule := do
  if ← skip (keyword color.1) then
    push (.node (.keyword "color") (color.2.components.map fun c => .leaf (.number (toString c.toNat))))
    return true
  return false

/-- The names of colors are tried one after the other. -/
theorem namedColor_eq (colors : List (String × Rgb)) :
    namedColor colors = firstOf (colors.map colorName) := by
  induction colors with
  | nil => rfl
  | cons color colors ih =>
    funext a
    simp only [namedColor, List.map_cons, firstOf, colorName, bind_apply, ← ih]
    cases skip (keyword color.1) a with
    | error e b => rfl
    | ok matched b => cases matched <;> rfl

end Step

end Logo
