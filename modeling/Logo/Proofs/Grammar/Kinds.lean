import Logo.Proofs.Grammar.Printing
import Logo.Proofs.Machine.Callers
import Logo.Proofs.Token.Layout
import Logo.Proofs.Tree.Description

/-!
# The kinds that texts have

Tokens agree when their texts do, and a description shows nothing but texts.  Names may be chosen
that are also the texts of nodes the parser makes up, so a text alone does not tell its kind.  In
the tree of a script, the text and the place in the tree do.

* `typed`: the tree of tokens that a tree of texts stands for at a place.
* `fixed_of_shaped`: so the tree of a script is found again from its texts.
* `isValue_of_shaped`: no text of a script has blanks or parentheses in it, so a description shows
  all texts.
* `tree_eq_of_sameTexts`: scripts that read alike are alike, and are run alike.
-/

namespace Logo

/-! ## Agreement of trees -/

namespace Tree

mutual

/-- Whether two trees have the same shape, and tokens that agree. -/
def Agrees : Tree Token → Tree Token → Prop
  | .node x cs, .node y ds => x.Agrees y ∧ AllAgree cs ds

/-- `Agrees` for trees in a row. -/
def AllAgree : List (Tree Token) → List (Tree Token) → Prop
  | [], [] => True
  | s :: ss, t :: ts => Agrees s t ∧ AllAgree ss ts
  | _, _ => False

end

mutual

/-- Trees agree if they are the same without the kinds of their tokens. -/
lemma agrees_iff : (s t : Tree Token) → (s.Agrees t ↔ s.map Token.text = t.map Token.text)
  | .node x cs, .node y ds => by
    rw [Agrees, map, map, Tree.node.injEq, allAgree_iff cs ds, Token.Agrees]

lemma allAgree_iff : (ss ts : List (Tree Token)) →
    (AllAgree ss ts ↔ mapList Token.text ss = mapList Token.text ts)
  | [], [] => by simp [AllAgree]
  | s :: ss, [] => by simp [AllAgree, mapList]
  | [], t :: ts => by simp [AllAgree, mapList]
  | s :: ss, t :: ts => by
    rw [AllAgree, mapList, mapList, List.cons.injEq, agrees_iff s t, allAgree_iff ss ts]

end

section Map

variable {α β : Type} (f : α → β)

lemma map_node (x : α) (cs : List (Tree α)) :
    (node x cs).map f = node (f x) (cs.map (map f)) := by
  rw [map, mapList_eq_map]

mutual

lemma values_map : (t : Tree α) → (t.map f).values = t.values.map f
  | .node x cs => by rw [map, values_node, values_node, List.map_cons, values_mapList cs]

lemma values_mapList : (ts : List (Tree α)) →
    (mapList f ts).flatMap values = (ts.flatMap values).map f
  | [] => rfl
  | t :: ts => by
    rw [mapList, List.flatMap_cons, List.flatMap_cons, List.map_append, values_map t,
      values_mapList ts]

end

end Map

/-- A description shows all texts if there are no blanks or parentheses in them. -/
lemma map_eq_of_describeTokens {s t : Tree Token} (hs : ∀ x ∈ s.values, IsValue x.text)
    (ht : ∀ x ∈ t.values, IsValue x.text) (h : s.describeTokens = t.describeTokens) :
    s.map Token.text = t.map Token.text := by
  have hread {r : Tree Token} (hr : ∀ x ∈ r.values, IsValue x.text) :
      ofDescription r.describeTokens = .ok (r.map Token.text) := by
    refine (ofDescription_eq_ok_iff _ _).2 (describes_describe ?_)
    rw [values_map]
    exact List.forall_mem_map.2 hr
  have hsame := hread hs
  rw [h, hread ht] at hsame
  exact (Except.ok.inj hsame).symm

end Tree

namespace Grammar

open Lexeme

/-! ## Kinds by text and place -/

/-- The places in the tree of a script. -/
inductive Place where
  /-- Where a part of the script stands. -/
  | part (p : Part)
  /-- Where a name stands that is no operand. -/
  | name
  /-- Where the name and the parameters of a definition stand. -/
  | header
  /-- Where any number of things stand in a row, each at the same place. -/
  | row (each : Place)

namespace Place

/-- The place of a child, by the text of its parent and its index. -/
def child : Place → String → Nat → Place
  | .part .script, _, 0 => .part .block
  | .part .script, _, _ => .row (.part .definition)
  | .part .definition, _, 0 => .header
  | .part .definition, _, _ => .part .block
  | .header, _, 0 => .name
  | .header, _, _ => .row .name
  | .part .block, _, _ => .part .command
  | .part .command, "set", 0 => .name
  | .part .command, "do", 0 => .name
  | .part .command, "do", _ => .row (.part .expression)
  | .part .command, "repeat", _ + 1 => .part .block
  | .part .command, "while", 0 => .part .condition
  | .part .command, "while", _ => .part .block
  | .part .command, "if", 0 => .part .condition
  | .part .command, "if", _ => .part .block
  | .row each, _, _ => each
  | _, _, _ => .part .expression

/-- The kind of a token, by its text and by whether it has no children.  An operand by itself has
the kind that it is scanned with, any other token that of its place. -/
def kind : Place → String → Bool → TokenKind
  | .part .expression, text, true => (sourceTokens text).head?.elim .eol Token.kind
  | .part .expression, _, false => .symbol
  | .part .condition, _, _ => .symbol
  | .name, _, _ => .name
  | _, _, _ => .keyword

end Place

mutual

/-- The tree of tokens that a tree of texts stands for at a place. -/
def typed (place : Place) : Tree String → Tree Token
  | .node text ts => .node ⟨place.kind text ts.isEmpty, text⟩ (typedFrom place text 0 ts)

/-- `typed` for the children of a node, from an index on. -/
def typedFrom (place : Place) (text : String) (index : Nat) : List (Tree String) → List (Tree Token)
  | [] => []
  | t :: ts => typed (place.child text index) t :: typedFrom place text (index + 1) ts

end

/-! ## Kinds fixed by text and place -/

/-- Whether the place and the texts of a tree fix the kinds of its tokens. -/
def Fixed (place : Place) (t : Tree Token) : Prop := typed place (t.map Token.text) = t

/-- `Fixed` for the children of a node, from an index on. -/
def FixedFrom (place : Place) (text : String) (index : Nat) (ts : List (Tree Token)) : Prop :=
  typedFrom place text index (ts.map (Tree.map Token.text)) = ts

section Fixed

variable {place each : Place} {text : String} {index : Nat} {x : Token} {t : Tree Token}
  {ts : List (Tree Token)}

lemma fixed_node (hkind : place.kind x.text ts.isEmpty = x.kind)
    (hts : FixedFrom place x.text 0 ts) : Fixed place (.node x ts) := by
  have hempty : (ts.map (Tree.map Token.text)).isEmpty = ts.isEmpty := List.isEmpty_map
  rw [Fixed, Tree.map_node, typed, hempty, hkind, hts]

lemma fixedFrom_nil : FixedFrom place text index [] := rfl

lemma fixedFrom_cons (ht : Fixed (place.child text index) t)
    (hts : FixedFrom place text (index + 1) ts) : FixedFrom place text index (t :: ts) :=
  congrArg₂ List.cons ht hts

/-- In a row, all children stand at the same place. -/
lemma fixedFrom_row (hchild : ∀ i, place.child text i = each) (hts : ∀ t ∈ ts, Fixed each t) :
    FixedFrom place text index ts := by
  induction ts generalizing index with
  | nil => exact fixedFrom_nil
  | cons t ts ih =>
    obtain ⟨ht, hrest⟩ := List.forall_mem_cons.1 hts
    exact fixedFrom_cons (hchild index ▸ ht) (ih hrest)

lemma fixed_row (hts : ∀ t ∈ ts, Fixed each t) :
    Fixed (.row each) (.node (.keyword "list") ts) :=
  fixed_node rfl (fixedFrom_row (fun _ => rfl) hts)

lemma fixed_name (hx : x.kind = .name) : Fixed .name (.leaf x) := fixed_node hx.symm fixedFrom_nil

/-- An operand by itself is scanned again as what it is. -/
lemma fixed_operand (h : sourceTokens x.text = [x]) : Fixed (.part .expression) (.leaf x) := by
  refine fixed_node ?_ fixedFrom_nil
  rw [List.isEmpty_nil, Place.kind, h]
  rfl

/-- What is in front of operands alone is a keyword. -/
lemma fixed_plain (hw : text ∈ plainWords) (hts : ∀ t ∈ ts, Fixed (.part .expression) t) :
    Fixed (.part .command) (.node (.keyword text) ts) := by
  refine fixed_node rfl (fixedFrom_row (fun i => ?_) hts)
  have hother : ∀ word ∈ plainWords, word ∉ ["set", "do", "repeat", "while", "if"] := by decide
  have hne := hother text hw
  simp only [List.mem_cons, List.not_mem_nil, or_false, not_or] at hne
  rw [Token.keyword, Place.child]
  all_goals simp_all

end Fixed

/-- Text and place fix the kinds in a script. -/
theorem fixed_of_shaped {p : Part} {t : Tree Token} (h : Shaped p t) (ht : TreeReadable t) :
    Fixed (.part p) t := by
  induction h with
  | @name x hx =>
    have hname : IsName x.text := by simpa [Readable, hx] using ht
    obtain ⟨kind, text⟩ := x
    subst hx
    exact fixed_operand (sourceTokens_eq_name_iff.2 hname)
  | @number x hx =>
    have hnumber : sourceTokens x.text = [x] := by simpa [Readable, hx] using ht
    exact fixed_operand hnumber
  | coordinate hw =>
    have hwords : ∀ word ∈ ["getX", "getY"], sourceTokens word = [.keyword word] := by
      decide +kernel
    exact fixed_operand (hwords _ hw)
  | sign ho _ ih =>
    simp only [treeReadable_node, List.forall_mem_cons] at ht
    exact fixed_node ho.1.symm (fixedFrom_cons (ih ht.2.1) fixedFrom_nil)
  | operation ho _ _ ihl ihr | comparison ho _ _ ihl ihr =>
    simp only [treeReadable_node, List.forall_mem_cons] at ht
    exact fixed_node ho.1.symm
      (fixedFrom_cons (ihl ht.2.1) (fixedFrom_cons (ihr ht.2.2.1) fixedFrom_nil))
  | move hw _ ih =>
    simp only [treeReadable_node, List.forall_mem_cons] at ht
    have hplain : _ ∈ plainWords := List.mem_append_left _ (List.mem_append_left _ hw)
    exact fixed_plain hplain (List.forall_mem_singleton.2 (ih ht.2.1))
  | color _ _ _ ihr ihg ihb =>
    simp only [treeReadable_node, List.forall_mem_cons] at ht
    have hplain : "color" ∈ plainWords := by decide
    exact fixed_plain hplain (List.forall_mem_cons.2 ⟨ihr ht.2.1,
      List.forall_mem_cons.2 ⟨ihg ht.2.2.1, List.forall_mem_singleton.2 (ihb ht.2.2.2.1)⟩⟩)
  | bare hw =>
    have hplain : _ ∈ plainWords := List.mem_append_left _ (List.mem_append_right _ hw)
    exact fixed_plain hplain (List.forall_mem_nil _)
  | jump _ _ ihx ihy =>
    simp only [treeReadable_node, List.forall_mem_cons] at ht
    have hplain : "jump" ∈ plainWords := by decide
    exact fixed_plain hplain (List.forall_mem_cons.2 ⟨ihx ht.2.1,
      List.forall_mem_singleton.2 (ihy ht.2.2.1)⟩)
  | assignment hx _ ih =>
    simp only [treeReadable_node, List.forall_mem_cons] at ht
    exact fixed_node rfl
      (fixedFrom_cons (fixed_name hx) (fixedFrom_cons (ih ht.2.2.1) fixedFrom_nil))
  | repetition _ _ iht ihb | whileLoop _ _ iht ihb | choice _ _ iht ihb =>
    simp only [treeReadable_node, List.forall_mem_cons] at ht
    exact fixed_node rfl
      (fixedFrom_cons (iht ht.2.1) (fixedFrom_cons (ihb ht.2.2.1) fixedFrom_nil))
  | choiceElse _ _ _ iht ihb ihc =>
    simp only [treeReadable_node, List.forall_mem_cons] at ht
    exact fixed_node rfl (fixedFrom_cons (iht ht.2.1)
      (fixedFrom_cons (ihb ht.2.2.1) (fixedFrom_cons (ihc ht.2.2.2.1) fixedFrom_nil)))
  | call hx _ ih =>
    simp only [treeReadable_node, List.forall_mem_cons] at ht
    have hoperands := fixed_row fun t hmem => ih t hmem (ht.2.2.1.2 t hmem)
    exact fixed_node rfl
      (fixedFrom_cons (fixed_name hx) (fixedFrom_cons hoperands fixedFrom_nil))
  | block _ ih =>
    simp only [treeReadable_node] at ht
    exact fixed_node rfl (fixedFrom_row (fun _ => rfl) fun c hc => ih c hc (ht.2 c hc))
  | definition hx hxs _ ih =>
    simp only [treeReadable_node, List.forall_mem_cons] at ht
    have hparameters := fixed_row (List.forall_mem_map.2 fun y hy => fixed_name (hxs y hy))
    have hheader : Fixed .header (.node (.keyword "header") _) := fixed_node rfl
      (fixedFrom_cons (fixed_name hx) (fixedFrom_cons hparameters fixedFrom_nil))
    exact fixed_node rfl
      (fixedFrom_cons hheader (fixedFrom_cons (ih ht.2.2.1) fixedFrom_nil))
  | script _ _ ihb ihds =>
    simp only [treeReadable_node, List.forall_mem_cons] at ht
    have hdefinitions := fixed_row fun d hd => ihds d hd (ht.2.2.1.2 d hd)
    exact fixed_node rfl
      (fixedFrom_cons (ihb (by simpa using ht.2.1)) (fixedFrom_cons hdefinitions fixedFrom_nil))

/-! ## Texts without blanks and parentheses -/

/-- The words and operators that stand in the trees of scripts. -/
def nodeTexts : List String :=
  operators ++ comparators ++ plainWords ++ ["getX", "getY", "set", "do", "repeat", "while", "if",
    "block", "list", "header", "def", "program"]

/-- Whether all tokens of a tree are names, numbers or of those words and operators. -/
def Plain (t : Tree Token) : Prop :=
  ∀ x ∈ t.values, x.kind = .name ∨ x.kind = .number ∨ x.text ∈ nodeTexts

lemma plain_leaf {x : Token} (h : x.kind = .name ∨ x.kind = .number) : Plain (.leaf x) := by
  rw [Plain, Tree.leaf, Tree.forall_mem_values_node]
  exact ⟨or_assoc.1 (.inl h), List.forall_mem_nil _⟩

lemma plain_node {x : Token} {ts : List (Tree Token)} (hx : x.text ∈ nodeTexts)
    (hts : ∀ t ∈ ts, Plain t) : Plain (.node x ts) := by
  rw [Plain, Tree.forall_mem_values_node]
  exact ⟨.inr (.inr hx), hts⟩

/-- There are no other tokens in a script. -/
lemma plain_of_shaped {p : Part} {t : Tree Token} (h : Shaped p t) : Plain t := by
  have hadditive : additive ⊆ nodeTexts := by decide
  have hoperators : operators ⊆ nodeTexts := by decide
  have hcomparators : comparators ⊆ nodeTexts := by decide
  have hmove : moveWords ⊆ nodeTexts := by decide
  have hbare : bareWords ⊆ nodeTexts := by decide
  have hcoordinates : ["getX", "getY"] ⊆ nodeTexts := by decide
  induction h with
  | name hx => exact plain_leaf (.inl hx)
  | number hx => exact plain_leaf (.inr hx)
  | coordinate hw => exact plain_node (hcoordinates hw) (List.forall_mem_nil _)
  | sign ho _ ih => exact plain_node (hadditive ho.2) (by simpa using ih)
  | operation ho _ _ ihl ihr => exact plain_node (hoperators ho.2) (by simpa using ⟨ihl, ihr⟩)
  | comparison ho _ _ ihl ihr => exact plain_node (hcomparators ho.2) (by simpa using ⟨ihl, ihr⟩)
  | move hw _ ih => exact plain_node (hmove hw) (by simpa using ih)
  | color _ _ _ ihr ihg ihb => exact plain_node (by decide) (by simpa using ⟨ihr, ihg, ihb⟩)
  | bare hw => exact plain_node (hbare hw) (List.forall_mem_nil _)
  | jump _ _ ihx ihy => exact plain_node (by decide) (by simpa using ⟨ihx, ihy⟩)
  | assignment hx _ ih => exact plain_node (by decide) (by simpa using ⟨plain_leaf (.inl hx), ih⟩)
  | repetition _ _ iht ihb | whileLoop _ _ iht ihb | choice _ _ iht ihb =>
    exact plain_node (by decide) (by simpa using ⟨iht, ihb⟩)
  | choiceElse _ _ _ iht ihb ihc => exact plain_node (by decide) (by simpa using ⟨iht, ihb, ihc⟩)
  | call hx _ ih =>
    have hoperands : Plain (.node (.keyword "list") _) := plain_node (by decide) ih
    exact plain_node (by decide) (by simpa using ⟨plain_leaf (.inl hx), hoperands⟩)
  | block _ ih => exact plain_node (by decide) ih
  | definition hx hxs _ ih =>
    have hnames := List.forall_mem_map.2 fun y hy => plain_leaf (.inl (hxs y hy))
    have hparameters : Plain (.node (.keyword "list") _) := plain_node (by decide) hnames
    have hheader := plain_node (x := .keyword "header") (by decide)
      (List.forall_mem_cons.2 ⟨plain_leaf (.inl hx), List.forall_mem_singleton.2 hparameters⟩)
    exact plain_node (by decide) (by simpa using ⟨hheader, ih⟩)
  | script _ _ ihb ihds =>
    have hdefinitions : Plain (.node (.keyword "list") _) := plain_node (by decide) ihds
    exact plain_node (by decide) (by simpa using ⟨ihb, hdefinitions⟩)

/-- Names have no blanks or parentheses in them. -/
lemma isValue_of_isName {text : String} (h : IsName text) : Tree.IsValue text := by
  obtain ⟨hidentifier, -⟩ := h
  have hstart (c : Char) (hc : isNameStart c = true) : ¬ Tree.IsSeparator c := by
    rintro (rfl | rfl | rfl) <;> exact absurd hc (by decide)
  have hchar (c : Char) (hc : isNameChar c = true) : ¬ Tree.IsSeparator c := by
    rintro (rfl | rfl | rfl) <;> exact absurd hc (by decide)
  constructor
  · rintro rfl
    exact hidentifier
  · cases htext : text.toList with
    | nil => exact List.forall_mem_nil _
    | cons c rest =>
      rw [htext] at hidentifier
      exact List.forall_mem_cons.2
        ⟨hstart c hidentifier.1, fun d hd => hchar d (hidentifier.2 d hd)⟩

/-- Numbers have no blanks or parentheses in them. -/
lemma isValue_of_number {x : Token} (hkind : x.kind = .number) (h : sourceTokens x.text = [x]) :
    Tree.IsValue x.text := by
  have hsplit : split? Vocabulary.keywords x.text.toList = some (x, []) := by
    simpa using sourceTokens_eq_singleton_iff.1 h [] (by simp [Halts])
  constructor
  · intro hempty
    rw [hempty] at hsplit
    cases hsplit
  · intro c hc
    obtain ⟨d, rest, -, htoken⟩ := split?_eq_some_iff.1 hsplit
    obtain ⟨-, hnumber⟩ := splitNumber_of_kind hkind htoken
    have hmem : c ∈ (splitNumber (d :: rest)).1.text.toList := by rwa [hnumber]
    rintro (rfl | rfl | rfl) <;> exact absurd (mem_splitNumber hmem) (by decide)

/-- The texts of a script have no blanks or parentheses in them. -/
theorem isValue_of_shaped {p : Part} {t : Tree Token} (h : Shaped p t) (ht : TreeReadable t) :
    ∀ x ∈ t.values, Tree.IsValue x.text := by
  have hwords : ∀ word ∈ nodeTexts, Tree.IsValue word := by decide
  intro x hx
  have hreadable := ht x hx
  rcases plain_of_shaped h x hx with hname | hnumber | hword
  · exact isValue_of_isName (by simpa [Readable, hname] using hreadable)
  · exact isValue_of_number hnumber (by simpa [Readable, hnumber] using hreadable)
  · exact hwords _ hword

/-! ## Scripts that read alike -/

/-- Trees of one shape with the same texts are the same. -/
lemma eq_of_map_eq {p : Part} {s t : Tree Token} (hs : Fixed (.part p) s) (ht : Fixed (.part p) t)
    (h : s.map Token.text = t.map Token.text) : s = t :=
  calc s = typed (.part p) (s.map Token.text) := hs.symm
    _ = typed (.part p) (t.map Token.text) := by rw [h]
    _ = t := ht

lemma WellFormed.shaped {t : Tree Token} (h : WellFormed t) :
    Shaped .script t ∧ TreeReadable t := by
  cases h with
  | script hcs hds hreadable => exact ⟨.script (.block hcs) hds, hreadable⟩

/-- Scripts whose trees agree, or have the same description alone, have the same tree, with the same
kinds.  So they are run alike: the same actions are carried out, and both come as far as each other.
-/
theorem tree_eq_of_sameTexts {source source' : String} {t t' : Tree Token}
    (h : parse source = .ok t) (h' : parse source' = .ok t')
    (hsame : t.Agrees t' ∨ t.describeTokens = t'.describeTokens) :
    t = t' ∧ ∀ {A : Type} [Actuator A] (i : Interpreter A) (moves : List Move),
      (Machine.ofProgram i t).actions moves = (Machine.ofProgram i t').actions moves ∧
      (Machine.ofProgram i t).play moves = (Machine.ofProgram i t').play moves := by
  have hscript {source : String} {t : Tree Token} (h : parse source = .ok t) :
      Shaped .script t ∧ TreeReadable t :=
    (wellFormed_of_program (parse_sound h) fun _ hx => readable_of_mem hx).shaped
  obtain ⟨hshaped, hreadable⟩ := hscript h
  obtain ⟨hshaped', hreadable'⟩ := hscript h'
  have htexts : t.map Token.text = t'.map Token.text := by
    rcases hsame with hagrees | hdescription
    · exact (Tree.agrees_iff t t').1 hagrees
    · exact Tree.map_eq_of_describeTokens (isValue_of_shaped hshaped hreadable)
        (isValue_of_shaped hshaped' hreadable') hdescription
  have heq : t = t' :=
    eq_of_map_eq (fixed_of_shaped hshaped hreadable) (fixed_of_shaped hshaped' hreadable') htexts
  subst heq
  exact ⟨rfl, fun _ _ => ⟨rfl, rfl⟩⟩

/-- A variable may have the text of a node that the parser makes up.  Blanks, parentheses and
comments make no difference. -/
theorem tree_eq_of_sameTexts_list :
    ∃ t t', parse "set list 1\nforward list\n" = .ok t ∧
      parse "  set list (1) // one\nforward(list)\n" = .ok t' ∧
      t.describeTokens = "program(block(set(list 1) forward(list)) list)" ∧
      t'.describeTokens = "program(block(set(list 1) forward(list)) list)" ∧
      t = t' ∧ ∀ {A : Type} [Actuator A] (i : Interpreter A) (moves : List Move),
        (Machine.ofProgram i t).actions moves = (Machine.ofProgram i t').actions moves ∧
        (Machine.ofProgram i t).play moves = (Machine.ofProgram i t').play moves := by
  let set : Tree Token := .node (.keyword "set") [.leaf ⟨.name, "list"⟩, .leaf (.number "1")]
  let move : Tree Token := .node (.keyword "forward") [.leaf ⟨.name, "list"⟩]
  have hparse : parse "set list 1\nforward list\n" = .ok (programNode [set, move] []) := by
    decide +kernel
  have hparse' : parse "  set list (1) // one\nforward(list)\n" =
      .ok (programNode [set, move] []) := by
    decide +kernel
  have hdescription : (programNode [set, move] []).describeTokens =
      "program(block(set(list 1) forward(list)) list)" := by
    cbv
  obtain ⟨heq, hruns⟩ := tree_eq_of_sameTexts hparse hparse' (.inr rfl)
  exact ⟨_, _, hparse, hparse', hdescription, hdescription, heq, hruns⟩

end Grammar

end Logo
