import Logo.Proofs.Grammar.Combining

/-!
# The discipline of the stack

All rules work on one stack of trees, and each takes the trees below its own for granted.  That goes
well because every rule keeps a discipline (`Step.Disciplined`): a rule that matches takes a token and
leaves one new tree on the trees it found, a rule that does not match leaves trees and tokens as they
were, and a rule that fails has at least not touched the trees it found.

Inside a rule the trees come and go.  `Step.Lifts m S n` follows them: from `m` trees on top of any
others, the step `S` leaves `n`.  It is composed along the constructs of a `do` block, one lemma for
each, and the numbers say that every combination of trees finds the trees it asks for.  Limits play no
part in it: a rule whose limit is reached stops in good order too.

The result is `Step.disciplined_rules`.
-/

namespace Logo

/-! ## Faults of scripts -/

/-- Whether a fault is one of the text, and not of a combination of trees that are not there. -/
def Fault.OfText : Fault → Prop
  | .tooFewTrees _ _ => False
  | .noRootAt _ => False
  | .noChildAt _ => False
  | _ => True

/-- Whether an error is one of the text, and not of the way in which rules handle trees and tokens. -/
def ParseError.OfText : ParseError → Prop
  | .grammar fault _ _ => fault.OfText
  | .literal _ _ => True
  | .stream _ => False

/-- The number of trees that a match leaves: none for line ends, and one for everything else. -/
def Nonterminal.trees : Nonterminal → Nat
  | .lineEnd => 0
  | _ => 1

namespace Assembly

/-- The stack holds a number of trees on top of the given ones. -/
def Above (base : List (Tree Token)) (count : Nat) (a : Assembly) : Prop :=
  ∃ trees, trees.length = count ∧ a.stack = trees ++ base

end Assembly

namespace Step

open Assembly

variable {α β : Type} {base : List (Tree Token)} {k m t : Nat}

/-! ## Disciplined rules -/

/-- How a step may fail that found the given trees: they are still there, and the error is one of the
text. -/
def Orderly (base : List (Tree Token)) (e : ParseError) (b : Assembly) : Prop :=
  base <:+ b.stack ∧ e.OfText

/-- If the rule matches, it takes at least one token and leaves the given number of trees on those it
found.  If it does not match, tokens and trees are as before.  If it fails, it fails in good order. -/
def Disciplined (count : Nat) (R : Rule) : Prop :=
  ∀ a : Assembly, Meets R a
    (fun matched b =>
      if matched then (∃ c ≠ [], a.ahead = c ++ b.ahead) ∧ b.Above a.stack count
      else b.ahead = a.ahead ∧ b.stack = a.stack)
    (Orderly a.stack)

/-- From `m` trees on top of any others, the step leaves `n` of them there and puts no token back. -/
def Lifts (m : Nat) (S : Step α) (n : α → Nat) : Prop :=
  ∀ base (a : Assembly), a.Above base m →
    Meets S a (fun v b => b.Above base (n v) ∧ b.ahead <:+ a.ahead) (Orderly base)

/-- As `Lifts`, for the end of a rule that has matched. -/
def Closes (m : Nat) (S : Rule) (n : Nat) : Prop :=
  ∀ base (a : Assembly), a.Above base m →
    Meets S a (fun matched b => matched = true ∧ b.Above base n ∧ b.ahead <:+ a.ahead) (Orderly base)

section Sequences

variable {S : Step α} {f : α → Step β} {n : α → Nat} {i : β → Nat}

lemma lifts_pure (v : α) : Lifts (n v) (pure v) n := fun _ _ ha => ⟨ha, List.suffix_rfl⟩

lemma closes_true : Closes m (pure true) m := fun _ _ ha => ⟨rfl, ha, List.suffix_rfl⟩

lemma meets_orderly_fail {fault : Fault} (hfault : fault.OfText) {a : Assembly} (ha : a.Above base m)
    {Q : α → Assembly → Prop} : Meets (fail fault) a Q (Orderly base) := by
  obtain ⟨trees, -, hstack⟩ := ha
  exact meets_fail.2 ⟨⟨trees, hstack.symm⟩, hfault⟩

lemma lifts_fail {fault : Fault} (hfault : fault.OfText) : Lifts m (fail fault) n :=
  fun _ _ ha => meets_orderly_fail hfault ha

lemma Lifts.bind (hS : Lifts m S n) (hf : ∀ v, Lifts (n v) (f v) i) : Lifts m (S >>= f) i := by
  intro base a ha
  refine (hS base a ha).bind (fun _ _ he => he) ?_
  rintro v b ⟨hb, hle⟩
  exact (hf v base b hb).mono (fun _ _ hd => ⟨hd.1, hd.2.trans hle⟩) fun _ _ he => he

lemma Lifts.closes {f : α → Rule} (hS : Lifts m S n) (hf : ∀ v, Closes (n v) (f v) t) :
    Closes m (S >>= f) t := by
  intro base a ha
  refine (hS base a ha).bind (fun _ _ he => he) ?_
  rintro v b ⟨hb, hle⟩
  exact (hf v base b hb).mono (fun _ _ hd => ⟨hd.1, hd.2.1, hd.2.2.trans hle⟩) fun _ _ he => he

/-- A step of which the answer is not used, and whose height does not depend on it. -/
lemma Lifts.discard {n : Nat} (hS : Lifts m S fun _ => n) :
    Lifts m (discard S : Step Unit) fun _ => n :=
  fun base a ha => meets_discard.2 (hS base a ha)

end Sequences

/-! ## Trees -/

lemma lifts_push (t : Tree Token) : Lifts m (push t) fun _ => m + 1 := by
  rintro base a ⟨trees, hlength, hstack⟩
  exact meets_push.2 ⟨⟨t :: trees, by simp [hlength], by simp [hstack]⟩, List.suffix_rfl⟩

lemma lifts_discard_pop : Lifts (m + 1) (discard pop : Step Unit) fun _ => m := by
  rintro base a ⟨trees, hlength, hstack⟩
  obtain ⟨t, trees, rfl⟩ := List.exists_cons_of_length_eq_add_one hlength
  refine meets_discard_pop.2 ⟨⟨trees, by simpa using hlength, ?_⟩, List.suffix_rfl⟩
  simp [hstack]

section Combine

variable {children : List Nat} {root : Nat}

/-- The trees at positions that fit become one tree. -/
theorem lifts_combine (below : Nat) (h : Fits root children) :
    Lifts (below + (children.length + 1)) (combine root children) fun _ => below + 1 := by
  rintro base a ⟨trees, hlength, hstack⟩
  have hle : children.length + 1 ≤ a.stack.length := by
    rw [hstack, List.length_append]
    omega
  obtain ⟨t, ts, hroot, hchildren, -⟩ := h.exists_trees hle
  refine meets_of_ok (combine_of_fits h hle hroot hchildren)
    ⟨⟨t.addChildren ts :: trees.drop (children.length + 1), ?_, ?_⟩, List.suffix_rfl⟩
  · simp [hlength]
  · rw [hstack, List.drop_append_of_le_length (by omega)]
    rfl

lemma fits_range (count : Nat) : Fits 1 ((List.range count).map (· + 2)).reverse := by
  constructor
  · refine List.nodup_cons.2 ⟨by simp, (List.reverse_perm _).nodup_iff.2 ?_⟩
    exact List.Pairwise.map _ (fun x y hne heq => hne (Nat.add_right_cancel heq)) List.nodup_range
  · intro p hp
    simp only [List.mem_cons, List.mem_reverse, List.mem_map, List.mem_range, List.length_reverse,
      List.length_map, List.length_range] at hp ⊢
    rcases hp with rfl | ⟨q, hq, rfl⟩ <;> omega

lemma lifts_combineUnder (below : Nat) (word : String) (count : Nat) :
    Lifts (below + count) (combineUnder word count) fun _ => below + 1 := by
  have hcombine := lifts_combine below (fits_range count)
  rw [List.length_reverse, List.length_map, List.length_range] at hcombine
  exact (lifts_push _).bind fun _ => hcombine

end Combine

/-! ## Tokens -/

/-- Looking for a token keeps the discipline, whatever is looked for. -/
theorem disciplined_accept (kind : TokenKind) (text? : Option String) :
    Disciplined 1 (accept kind text?) := by
  intro a
  cases hahead : a.ahead with
  | nil => exact meets_of_ok (accept_of_nil hahead) ⟨hahead, rfl⟩
  | cons x rest =>
    obtain ⟨t, l⟩ := x
    by_cases hkind : t.kind = .malformed
    · obtain ⟨b, hb, -, hstack⟩ := accept_of_malformed kind text? hahead hkind
      exact meets_of_error hb ⟨hstack ▸ List.suffix_rfl, trivial⟩
    · by_cases hwanted : Wanted kind text? t
      · obtain ⟨b, hb, hrest, -, hstack⟩ := accept_of_wanted hahead hwanted hkind
        exact meets_of_ok hb ⟨⟨[(t, l)], List.cons_ne_nil _ _, by rw [hrest]; rfl⟩,
          [.leaf t], rfl, hstack⟩
      · obtain ⟨b, hb, hsame, -, hstack⟩ := accept_of_unwanted hahead hwanted hkind
        exact meets_of_ok hb ⟨hsame.trans hahead, hstack⟩

lemma disciplined_keyword (word : String) : Disciplined 1 (keyword word) :=
  disciplined_accept _ _

lemma disciplined_symbol (text : String) : Disciplined 1 (symbol text) := disciplined_accept _ _

lemma disciplined_name : Disciplined 1 name := disciplined_accept _ _

/-! ## Combinations of rules -/

section Rules

variable {R S body : Rule} {rules : List Rule} {fault : Fault} {limit : Nat}

/-- The number of trees after a rule that leaves `k` of them if it matches. -/
def height (m k : Nat) (matched : Bool) : Nat := if matched then m + k else m

/-- A disciplined rule may be used on any number of trees. -/
lemma Disciplined.meets (h : Disciplined k R) {a : Assembly} (ha : a.Above base m) :
    Meets R a
      (fun matched b => b.Above base (height m k matched) ∧
        if matched then ∃ c ≠ [], a.ahead = c ++ b.ahead else b.ahead = a.ahead)
      (Orderly base) := by
  obtain ⟨trees, hlength, hstack⟩ := ha
  refine (h a).mono ?_ ?_
  · rintro (_ | _) b hb
    · exact ⟨⟨trees, hlength, hb.2.trans hstack⟩, hb.1⟩
    · obtain ⟨hahead, new, hnew, hb⟩ := hb
      refine ⟨⟨new ++ trees, ?_, ?_⟩, hahead⟩
      · rw [List.length_append, hnew, hlength, Nat.add_comm]
        rfl
      · rw [hb, hstack, List.append_assoc]
  · rintro e b ⟨hsuffix, he⟩
    exact ⟨(hstack ▸ List.suffix_append trees base).trans hsuffix, he⟩

lemma Disciplined.lifts (h : Disciplined k R) (m : Nat) : Lifts m R (height m k) := by
  intro base a ha
  refine (h.meets ha).mono ?_ fun _ _ he => he
  rintro (_ | _) b ⟨hb, hahead⟩
  · exact ⟨hb, hahead ▸ List.suffix_rfl⟩
  · obtain ⟨c, -, hahead⟩ := hahead
    exact ⟨hb, c, hahead.symm⟩

/-- A rule that leaves no tree does not change the height. -/
lemma Disciplined.lifts_self (h : Disciplined 0 R) (m : Nat) : Lifts m R fun _ => m := by
  have hheight : height m 0 = fun _ => m := funext fun matched => by cases matched <;> rfl
  exact hheight ▸ h.lifts m

/-- A rule that does not match, and another one that is tried instead. -/
lemma Disciplined.orElse (hR : Disciplined k R) (hS : Disciplined k S) :
    Disciplined k (R >>= fun matched => if matched = true then pure true else S) := by
  intro a
  refine (hR a).bind (fun _ _ he => he) ?_
  rintro (_ | _) b hb
  · obtain ⟨hahead, hstack⟩ := hb
    have hthen := hS b
    rw [hahead, hstack] at hthen
    exact hthen
  · exact hb

lemma disciplined_firstOf (h : ∀ R ∈ rules, Disciplined k R) : Disciplined k (firstOf rules) := by
  induction rules with
  | nil => exact fun _ => ⟨rfl, rfl⟩
  | cons R rules ih =>
    exact (h R (by simp)).orElse (ih fun S hS => h S (List.mem_cons_of_mem _ hS))

/-- A rule that goes on once another one has matched. -/
theorem Disciplined.guard (h : Disciplined k R) (hbody : Closes k body t) :
    Disciplined t (R >>= fun matched => if matched = true then body else pure false) := by
  intro a
  refine (h a).bind (fun _ _ he => he) ?_
  rintro (_ | _) b hb
  · exact hb
  · obtain ⟨⟨c, hne, hahead⟩, habove⟩ := hb
    refine (hbody a.stack b habove).mono ?_ fun _ _ he => he
    rintro _ d ⟨rfl, hd, c', hahead'⟩
    exact ⟨⟨c ++ c', by simp [hne], by rw [hahead, ← hahead', List.append_assoc]⟩, hd⟩

lemma Disciplined.skip (h : Disciplined 1 R) : Disciplined 0 (skip R) :=
  h.guard (lifts_discard_pop.closes fun _ => closes_true)

lemma Disciplined.require (h : Disciplined k R) (hfault : fault.OfText) (m : Nat) :
    Lifts m (require R fault) fun _ => m + k := by
  refine (h.lifts m).bind ?_
  rintro (_ | _)
  · exact lifts_fail hfault
  · exact lifts_pure (n := fun _ => m + k) ()

/-- One part of a rule, which has to match. -/
lemma Disciplined.part {f : Unit → Rule} (h : Disciplined k R) (hfault : fault.OfText)
    (hthen : ∀ u, Closes (m + k) (f u) t) : Closes m (Step.require R fault >>= f) t :=
  (h.require hfault m).closes hthen

/-- A combination of the trees on top, with more steps behind it. -/
lemma closes_combine {root : Nat} {children : List Nat} {f : Unit → Rule} (below : Nat)
    (hm : m = below + (children.length + 1)) (hfits : Fits root children)
    (hthen : ∀ u, Closes (below + 1) (f u) t) : Closes m (combine root children >>= f) t := by
  subst hm
  exact (lifts_combine below hfits).closes hthen

/-- A repetition, the height being a function of the number of matches. -/
lemma lifts_countMatches {f : Nat → Nat}
    (h : ∀ n, Lifts (f n) R fun matched => if matched then f (n + 1) else f n) (n limit : Nat) :
    Lifts (f n) (countMatches R n limit) f := by
  induction limit generalizing n with
  | zero => exact lifts_pure n
  | succ limit ih =>
    refine (h n).bind ?_
    rintro (_ | _)
    · exact lifts_pure n
    · exact ih (n + 1)

/-- Every match of a repeated rule leaves a tree. -/
lemma Disciplined.countMatches (h : Disciplined 1 R) (m n limit : Nat) :
    Lifts (m + n) (countMatches R n limit) (m + ·) :=
  lifts_countMatches (fun n => h.lifts (m + n)) n limit

end Rules

/-! ## Expressions -/

section Expressions

variable {inner first operator operand : Rule} {fault : Fault} {limit : Nat}

lemma disciplined_symbols (texts : List String) : Disciplined 1 (firstOf (texts.map symbol)) := by
  refine disciplined_firstOf fun R hR => ?_
  obtain ⟨text, -, rfl⟩ := List.mem_map.1 hR
  exact disciplined_symbol text

lemma disciplined_addOperator : Disciplined 1 addOperator := disciplined_symbols ["+", "-"]

lemma disciplined_multiplyOperator : Disciplined 1 multiplyOperator :=
  disciplined_symbols ["*", "/"]

lemma disciplined_comparator : Disciplined 1 comparator := disciplined_symbols ["<", "=", ">"]

/-- A link of a chain takes the tree of its left operand and leaves its own. -/
lemma lifts_link (hoperator : Disciplined 1 operator) (hoperand : Disciplined 1 operand)
    (hfault : fault.OfText) : Lifts 1 (link operator operand fault) fun _ => 1 := by
  refine (hoperator.lifts 1).bind ?_
  rintro (_ | _)
  · exact lifts_pure false
  · have hfits : Fits 2 [3, 1] := by decide
    refine (hoperand.require hfault 2).bind fun _ => ?_
    exact (lifts_combine 0 hfits).bind fun _ => lifts_pure (n := fun _ => 1) true

lemma disciplined_chain (hfirst : Disciplined 1 first) (hoperator : Disciplined 1 operator)
    (hoperand : Disciplined 1 operand) (hfault : fault.OfText) :
    Disciplined 1 (chain limit first operator operand fault) := by
  have hlinks : Lifts 1 (many (link operator operand fault) limit) fun _ => 1 :=
    lifts_countMatches (f := fun _ => 1)
      (fun _ => by simpa using lifts_link hoperator hoperand hfault) 0 limit
  exact hfirst.guard (hlinks.discard.closes fun _ => closes_true)

lemma disciplined_unsignedFactor (h : Disciplined 1 inner) :
    Disciplined 1 (unsignedFactor inner) := by
  have hoperand : Disciplined 1 (firstOf [name, number, keyword "getX", keyword "getY"]) := by
    refine disciplined_firstOf fun R hR => ?_
    simp only [List.mem_cons, List.not_mem_nil, or_false] at hR
    rcases hR with rfl | rfl | rfl | rfl <;> exact disciplined_accept _ _
  refine hoperand.orElse ((disciplined_symbol "(").skip.guard ?_)
  refine h.part trivial fun _ => ?_
  exact (disciplined_symbol ")").skip.part trivial fun _ => closes_true

lemma disciplined_factor (h : Disciplined 1 inner) : Disciplined 1 (factor inner) := by
  have hoperand := disciplined_unsignedFactor h
  intro a
  refine (disciplined_addOperator a).bind (fun _ _ he => he) ?_
  rintro (_ | _) b hb
  · -- without a sign the factor is its operand
    obtain ⟨hahead, hstack⟩ := hb
    have hthen := hoperand b
    rw [hahead, hstack] at hthen
    refine hthen.bind (fun _ _ he => he) ?_
    rintro (_ | _) d hd
    · exact hd
    · exact hd
  · obtain ⟨⟨c, hne, hahead⟩, habove⟩ := hb
    refine (hoperand.lifts 1 a.stack b habove).bind (fun _ _ he => he) ?_
    rintro (_ | _) d ⟨hd, hle⟩
    · refine meets_bind.2 (meets_orderly_fail ?_ hd)
      trivial
    · have hfits : Fits 2 [1] := by decide
      refine (lifts_combine 0 hfits a.stack d hd).bind (fun _ _ he => he) ?_
      rintro _ d' ⟨hd', hle'⟩
      obtain ⟨c', hahead'⟩ := hle'.trans hle
      exact ⟨⟨c ++ c', by simp [hne], by rw [hahead, ← hahead', List.append_assoc]⟩, hd'⟩

lemma disciplined_term (h : Disciplined 1 inner) : Disciplined 1 (term inner limit) :=
  disciplined_chain (disciplined_factor h) disciplined_multiplyOperator (disciplined_factor h) trivial

lemma disciplined_unsignedTerm (h : Disciplined 1 inner) : Disciplined 1 (unsignedTerm inner limit) :=
  disciplined_chain (disciplined_unsignedFactor h) disciplined_multiplyOperator
    (disciplined_unsignedFactor h) trivial

theorem disciplined_expressionAt (limit : Nat) : Disciplined 1 (expressionAt limit) := by
  induction limit with
  | zero => exact fun _ => ⟨rfl, rfl⟩
  | succ limit ih =>
    exact disciplined_chain (disciplined_term ih) disciplined_addOperator
      (disciplined_unsignedTerm ih) trivial

lemma disciplined_condition (h : Disciplined 1 inner) : Disciplined 1 (condition inner) := by
  refine h.guard (disciplined_comparator.part trivial fun _ => h.part trivial fun _ => ?_)
  exact closes_combine 0 rfl (by decide) fun _ => closes_true

end Expressions

/-! ## Commands -/

section Commands

variable {expression command : Rule} {limit : Nat} {fault : Fault}

lemma disciplined_lineEnd (limit : Nat) : Disciplined 0 (lineEnd limit) := by
  have hone : Disciplined 0 (skip (accept .eol none)) := (disciplined_accept _ _).skip
  have hmore : Lifts 0 (many (skip (accept .eol none)) limit) fun _ => 0 :=
    lifts_countMatches (f := fun _ => 0) (fun _ => by simpa using hone.lifts_self 0) 0 limit
  exact hone.guard (hmore.discard.closes fun _ => closes_true)

/-- The end of a command that ends its line. -/
lemma closes_line (hfault : fault.OfText) :
    Closes 1 (require (lineEnd limit) fault >>= fun _ => pure true) 1 :=
  (disciplined_lineEnd limit).part hfault fun _ => closes_true

lemma disciplined_block (h : Disciplined 1 command) : Disciplined 1 (block command limit) := by
  have hline := disciplined_lineEnd limit
  refine (disciplined_symbol _).skip.guard (hline.part trivial fun _ => ?_)
  refine (h.countMatches 0 0 limit).closes fun count => ?_
  refine (disciplined_symbol _).skip.part trivial fun _ => hline.part trivial fun _ => ?_
  exact (lifts_combineUnder 0 "block" count).closes fun _ => closes_true

lemma disciplined_moveWord : Disciplined 1 moveWord := by
  refine disciplined_firstOf fun R hR => ?_
  simp only [List.mem_cons, List.not_mem_nil, or_false] at hR
  rcases hR with rfl | rfl | rfl | rfl <;> exact disciplined_keyword _

lemma disciplined_namedColor (colors : List (String × Rgb)) : Disciplined 1 (namedColor colors) := by
  rw [namedColor_eq]
  refine disciplined_firstOf fun R hR => ?_
  obtain ⟨color, -, rfl⟩ := List.mem_map.1 hR
  exact (disciplined_keyword color.1).skip.guard ((lifts_push _).closes fun _ => closes_true)

lemma disciplined_bareCommand (word : String) : Disciplined 1 (bareCommand limit word) :=
  (disciplined_keyword word).guard (closes_line trivial)

section Forms

variable (h : Disciplined 1 expression)

include h

lemma disciplined_move : Disciplined 1 (move expression limit) := by
  refine disciplined_moveWord.guard (h.part trivial fun _ => ?_)
  exact closes_combine 0 rfl (by decide) fun _ => closes_line trivial

lemma disciplined_color : Disciplined 1 (color expression) := by
  refine (disciplined_namedColor _).orElse ((disciplined_keyword "color").guard ?_)
  refine h.part trivial fun _ => h.part trivial fun _ => h.part trivial fun _ => ?_
  exact closes_combine 0 rfl (by decide) fun _ => closes_true

lemma disciplined_colorLine : Disciplined 1 (colorLine expression limit) :=
  (disciplined_color h).guard (closes_line trivial)

lemma disciplined_jump : Disciplined 1 (jump expression limit) := by
  refine (disciplined_keyword _).guard (h.part trivial fun _ => h.part trivial fun _ => ?_)
  exact closes_combine 0 rfl (by decide) fun _ => closes_line trivial

lemma disciplined_assignment : Disciplined 1 (assignment expression limit) := by
  refine (disciplined_keyword _).guard (disciplined_name.part trivial fun _ => ?_)
  refine h.part trivial fun _ => ?_
  exact closes_combine 0 rfl (by decide) fun _ => closes_line trivial

/-- The arguments become a list, and the list the second child of the call. -/
lemma disciplined_call : Disciplined 1 (call expression limit) := by
  refine (disciplined_keyword _).guard (disciplined_name.part trivial fun _ => ?_)
  refine (h.countMatches 2 0 limit).closes fun count => ?_
  refine (lifts_combineUnder 2 "list" count).closes fun _ => ?_
  exact closes_combine 0 rfl (by decide) fun _ => closes_line trivial

variable (hcommand : Disciplined 1 command)

include hcommand

lemma disciplined_repetition : Disciplined 1 (repetition expression command limit) := by
  refine (disciplined_keyword _).guard (h.part trivial fun _ => ?_)
  refine (disciplined_block hcommand).part trivial fun _ => ?_
  exact closes_combine 0 rfl (by decide) fun _ => closes_true

lemma disciplined_whileLoop : Disciplined 1 (whileLoop expression command limit) := by
  refine (disciplined_keyword _).guard ((disciplined_condition h).part trivial fun _ => ?_)
  refine (disciplined_block hcommand).part trivial fun _ => ?_
  exact closes_combine 0 rfl (by decide) fun _ => closes_true

lemma disciplined_choice : Disciplined 1 (choice expression command limit) := by
  have hblock : Disciplined 1 (block command limit) := disciplined_block hcommand
  refine (disciplined_keyword _).guard ((disciplined_condition h).part trivial fun _ => ?_)
  refine hblock.part trivial fun _ => ?_
  refine ((disciplined_keyword "else").skip.lifts 3).closes ?_
  rintro (_ | _)
  · exact closes_combine 0 rfl (by decide) fun _ => closes_true
  · refine hblock.part trivial fun _ => ?_
    exact closes_combine 0 rfl (by decide) fun _ => closes_true

lemma disciplined_anyCommand : Disciplined 1 (anyCommand expression command limit) := by
  refine disciplined_firstOf fun R hR => ?_
  simp only [List.mem_cons, List.not_mem_nil, or_false] at hR
  rcases hR with rfl | rfl | rfl | rfl | rfl | rfl | rfl | rfl | rfl | rfl | rfl
  · exact disciplined_move h
  · exact disciplined_colorLine h
  · exact disciplined_bareCommand _
  · exact disciplined_bareCommand _
  · exact disciplined_bareCommand _
  · exact disciplined_jump h
  · exact disciplined_assignment h
  · exact disciplined_repetition h hcommand
  · exact disciplined_whileLoop h hcommand
  · exact disciplined_choice h hcommand
  · exact disciplined_call h

end Forms

theorem disciplined_commandAt (limit : Nat) : Disciplined 1 (commandAt limit) := by
  induction limit with
  | zero => exact fun _ => ⟨rfl, rfl⟩
  | succ limit ih => exact disciplined_anyCommand (disciplined_expressionAt limit) ih

/-! ## Programs -/

/-- The header takes the name and the parameters, so that it and the block remain for the definition. -/
lemma disciplined_procedure (h : Disciplined 1 command) : Disciplined 1 (procedure command limit) := by
  refine (disciplined_keyword _).guard (disciplined_name.part trivial fun _ => ?_)
  refine (disciplined_name.countMatches 2 0 limit).closes fun count => ?_
  refine (lifts_combineUnder 2 "list" count).closes fun _ => (lifts_push _).closes fun _ => ?_
  refine closes_combine 1 rfl (by decide) fun _ => ?_
  refine (disciplined_block h).part trivial fun _ => ?_
  exact closes_combine 0 rfl (by decide) fun _ => closes_true

/-- Nothing may follow a script. -/
lemma closes_end :
    Closes 1 (do
      if (← get).stream.hasNext then fail .trailingInput
      return true) 1 := by
  intro base a ha
  refine meets_bind.2 (meets_get.2 ?_)
  cases a.stream.hasNext with
  | true =>
    refine meets_bind.2 (meets_orderly_fail ?_ ha)
    trivial
  | false => exact closes_true base a ha

/-- Line ends may come first, but the first command takes a token of its own. -/
lemma disciplined_program (h : Disciplined 1 command) : Disciplined 1 (program command limit) := by
  have hrest (u : Unit) : Closes 1 (countMatches command 1 limit >>= fun commands => do
      combineUnder "block" commands
      let procedures ← many (procedure command limit) limit
      combineUnder "list" procedures
      push (.leaf (.keyword "program"))
      combine 1 [3, 2]
      if (← get).stream.hasNext then fail .trailingInput
      return true) 1 := by
    refine (h.countMatches 0 1 limit).closes fun count => ?_
    refine (lifts_combineUnder 0 "block" count).closes fun _ => ?_
    refine ((disciplined_procedure h).countMatches 1 0 limit).closes fun count => ?_
    refine (lifts_combineUnder 1 "list" count).closes fun _ => (lifts_push _).closes fun _ => ?_
    exact closes_combine 0 rfl (by decide) fun _ => closes_end
  intro a
  refine (((disciplined_lineEnd limit).lifts_self 0).discard a.stack a ⟨[], rfl, rfl⟩).bind
    (fun _ _ he => he) ?_
  rintro _ b ⟨hb, c, hahead⟩
  refine meets_bind.2 ((h.meets hb).bind (fun _ _ he => he) ?_)
  rintro (_ | _) d ⟨hd, htaken⟩
  · refine meets_orderly_fail ?_ hd
    trivial
  · obtain ⟨c', hne, hahead'⟩ := htaken
    refine (hrest () a.stack d hd).mono ?_ fun _ _ he => he
    rintro _ d' ⟨rfl, hd', c'', hahead''⟩
    refine ⟨⟨c ++ (c' ++ c''), by simp [hne], ?_⟩, hd'⟩
    rw [← hahead, hahead', ← hahead'', List.append_assoc, List.append_assoc]

end Commands

/-! ## All rules -/

lemma disciplined_ruleAt (limit : Nat) (n : Nonterminal) : Disciplined n.trees (ruleAt limit n) := by
  have hexpression := disciplined_expressionAt limit
  have hcommand := disciplined_commandAt limit
  cases n with
  | expression => exact hexpression
  | term => exact disciplined_term hexpression
  | unsignedTerm => exact disciplined_unsignedTerm hexpression
  | factor => exact disciplined_factor hexpression
  | unsignedFactor => exact disciplined_unsignedFactor hexpression
  | condition => exact disciplined_condition hexpression
  | comparator => exact disciplined_comparator
  | addOperator => exact disciplined_addOperator
  | multiplyOperator => exact disciplined_multiplyOperator
  | block => exact disciplined_block hcommand
  | procedure => exact disciplined_procedure hcommand
  | program => exact disciplined_program hcommand
  | command => exact hcommand
  | move => exact disciplined_moveWord
  | color => exact disciplined_color hexpression
  | jump => exact disciplined_jump hexpression
  | assignment => exact disciplined_assignment hexpression
  | repetition => exact disciplined_repetition hexpression hcommand
  | whileLoop => exact disciplined_whileLoop hexpression hcommand
  | choice => exact disciplined_choice hexpression hcommand
  | call => exact disciplined_call hexpression
  | name => exact disciplined_name
  | number => exact disciplined_accept _ _
  | lineEnd => exact disciplined_lineEnd limit

lemma disciplined_rule (n : Nonterminal) : Disciplined n.trees n.rule := fun a =>
  meets_bind.2 (meets_get.2 (disciplined_ruleAt a.budget n a))

/-- Every rule keeps the discipline of the stack, on every assembly: the rules of the nonterminals, and
looking for a token of any sort. -/
theorem disciplined_rules :
    (∀ n : Nonterminal, Disciplined n.trees n.rule) ∧
      (∀ kind text?, Disciplined 1 (accept kind text?)) ∧
      (∀ word, Disciplined 1 (keyword word)) ∧ ∀ text, Disciplined 1 (symbol text) :=
  ⟨disciplined_rule, disciplined_accept, disciplined_keyword, disciplined_symbol⟩

end Step

end Logo
