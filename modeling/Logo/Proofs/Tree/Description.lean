import Logo.Tree.Description
import Mathlib.Tactic.Common

/-!
# What descriptions describe

The reader of descriptions keeps a stack of nodes whose closing parenthesis is still to come, and
the writer follows the tree.  The two meet in a grammar of pieces: a tree is a value, or a value
with trees in parentheses behind it.

* `cut_iff`: the pieces of a text are its parentheses and its longest runs of characters that are
  neither parentheses nor blanks.
* `completes_of_readPieces`: what the reader accepts derives from the grammar.  An open node waits
  for the rest of its children, its closing parenthesis, and whatever the nodes around it wait for.
* `Derives.takes`: the reader takes every derivation, on top of any open nodes.
* `ofDescription_inverts_describe`: so the reader accepts exactly the descriptions of trees, and
  reads back what was written.
-/

namespace Logo

/-- The errors that blame what was given to be read or inserted.  The others blame an index. -/
def TreeError.InvalidArgument : TreeError → Prop
  | .noChild _ _ => False
  | _ => True

namespace Tree

/-! ## Cutting a text into pieces -/

/-- Whether a character separates values. -/
def IsSeparator (c : Char) : Prop := c = ' ' ∨ c = '(' ∨ c = ')'

instance (c : Char) : Decidable (IsSeparator c) :=
  inferInstanceAs (Decidable (c = ' ' ∨ c = '(' ∨ c = ')'))

/-- Whether a value, if there was one before this text, would end here. -/
def Parted (cs : List Char) : Prop := ∀ c ∈ cs.head?, IsSeparator c

/-- The pieces of a text: its parentheses and its longest runs of characters that are neither
parentheses nor blanks. -/
inductive Cut : List Char → List Piece → Prop
  | done : Cut [] []
  | blank {cs : List Char} {ps : List Piece} (h : Cut cs ps) : Cut (' ' :: cs) ps
  | opening {cs : List Char} {ps : List Piece} (h : Cut cs ps) : Cut ('(' :: cs) (.opening :: ps)
  | closing {cs : List Char} {ps : List Piece} (h : Cut cs ps) : Cut (')' :: cs) (.closing :: ps)
  | word {run cs : List Char} {ps : List Piece} (hne : run ≠ [])
      (hrun : ∀ c ∈ run, ¬ IsSeparator c) (hend : Parted cs) (h : Cut cs ps) :
      Cut (run ++ cs) (.word (String.ofList run) :: ps)

lemma parted_cons {c : Char} {cs : List Char} (h : IsSeparator c) : Parted (c :: cs) := by
  simpa [Parted] using h

lemma parted_nil : Parted [] := by simp [Parted]

/-- Behind a run, a piece for it comes first. -/
lemma Cut.ofRun {run cs : List Char} {ps : List Piece} (hrun : ∀ c ∈ run, ¬ IsSeparator c)
    (hend : Parted cs) (h : Cut cs ps) : Cut (run.reverse ++ cs) (Piece.ofRun run ++ ps) := by
  unfold Piece.ofRun
  split
  · subst run
    exact h
  · rename_i hne
    exact .word (List.reverse_ne_nil_iff.2 hne) (by simpa using hrun) hend h

lemma cut_piecesFrom {run : List Char} (cs : List Char) (hrun : ∀ c ∈ run, ¬ IsSeparator c) :
    Cut (run.reverse ++ cs) (piecesFrom run cs) := by
  fun_induction piecesFrom run cs with
  | case1 run => simpa using Cut.done.ofRun hrun parted_nil
  | case2 run rest ih => exact (ih (by simp)).blank.ofRun hrun (parted_cons (.inl rfl))
  | case3 run rest ih => exact (ih (by simp)).opening.ofRun hrun (parted_cons (.inr (.inl rfl)))
  | case4 run rest ih => exact (ih (by simp)).closing.ofRun hrun (parted_cons (.inr (.inr rfl)))
  | case5 run c rest hblank hopen hclose ih =>
    have hc : ¬ IsSeparator c := not_or.2 ⟨hblank, not_or.2 ⟨hopen, hclose⟩⟩
    simpa using ih (List.forall_mem_cons.2 ⟨hc, hrun⟩)

lemma piecesFrom_of_parted (run : List Char) {cs : List Char} (h : Parted cs) :
    piecesFrom run cs = Piece.ofRun run ++ piecesFrom [] cs := by
  cases cs with
  | nil => simp [piecesFrom, Piece.ofRun]
  | cons c cs =>
    have hc : IsSeparator c := by simpa [Parted] using h
    rcases hc with rfl | rfl | rfl <;> simp [piecesFrom, Piece.ofRun]

lemma piecesFrom_append {run : List Char} (acc cs : List Char) (hrun : ∀ c ∈ run, ¬ IsSeparator c) :
    piecesFrom acc (run ++ cs) = piecesFrom (run.reverse ++ acc) cs := by
  induction run generalizing acc with
  | nil => rfl
  | cons c run ih =>
    obtain ⟨hc, hrun⟩ := List.forall_mem_cons.1 hrun
    obtain ⟨hblank, hparenthesis⟩ := not_or.1 hc
    obtain ⟨hopen, hclose⟩ := not_or.1 hparenthesis
    rw [List.cons_append, piecesFrom, ih _ hrun, List.reverse_cons, List.append_assoc,
      List.singleton_append]
    · exact hblank
    · exact hopen
    · exact hclose

/-- There is one way to cut a text: the way the reader does. -/
theorem cut_iff (text : String) (ps : List Piece) : Cut text.toList ps ↔ ps = pieces text := by
  unfold pieces
  generalize text.toList = cs
  constructor
  · intro h
    induction h with
    | done => rfl
    | blank _ ih => exact ih
    | opening _ ih => exact congrArg (Piece.opening :: ·) ih
    | closing _ ih => exact congrArg (Piece.closing :: ·) ih
    | @word run cs ps hne hrun hend _ ih =>
      have hne' : run.reverse ++ [] ≠ [] := by simpa using hne
      rw [piecesFrom_append [] cs hrun, piecesFrom_of_parted _ hend, ← ih, Piece.ofRun, if_neg hne',
        List.append_nil, List.reverse_reverse, List.singleton_append]
  · rintro rfl
    exact cut_piecesFrom cs (List.forall_mem_nil _)

/-! ## The grammar of descriptions -/

/-- The trees with the pieces they derive from.  A tree is a value, or a value with any number of
trees in parentheses behind it. -/
inductive Derives : List Piece → Tree String → Prop
  | value (v : String) : Derives [.word v] (leaf v)
  | parentheses (v : String) {parts : List (List Piece × Tree String)}
      (h : ∀ part ∈ parts, Derives part.1 part.2) :
      Derives (.word v :: .opening :: ((parts.map Prod.fst).flatten ++ [.closing]))
        (.node v (parts.map Prod.snd))

/-- A derivation begins with a value. -/
lemma Derives.exists_word {ps : List Piece} {t : Tree String} (h : Derives ps t) :
    ∃ v rest, ps = .word v :: rest := by
  cases h with
  | value v => exact ⟨v, [], rfl⟩
  | parentheses v _ => exact ⟨v, _, rfl⟩

/-! ## What the reader accepts -/

/-- What the open nodes wait for, with a tree at hand: the innermost node for more children and its
closing parenthesis, then the nodes around it with this node at hand.  Nothing comes behind the
outermost node. -/
def Completes : List OpenNode → Tree String → List Piece → Tree String → Prop
  | [], s, rest, t => rest = [] ∧ s = t
  | n :: above, s, rest, t =>
    ∃ (parts : List (List Piece × Tree String)) (rest' : List Piece),
      (∀ part ∈ parts, Derives part.1 part.2) ∧
      rest = (parts.map Prod.fst).flatten ++ .closing :: rest' ∧
      Completes above (.node n.value (n.done.reverse ++ s :: parts.map Prod.snd)) rest' t

/-- What the reader accepts completes the open nodes.  Without a tree at hand, one comes first. -/
theorem completes_of_readPieces (above : List OpenNode) (finished : Option (Tree String))
    (rest : List Piece) (t : Tree String) : readPieces above finished rest = .ok t →
    match finished with
    | some s => Completes above s rest t
    | none => ∃ ps s rest', Derives ps s ∧ rest = ps ++ rest' ∧ Completes above s rest' t := by
  fun_induction readPieces above finished rest with
  | case1 above v rest ih =>
    intro h
    have hleaf : Derives [.word v, .opening, .closing] (leaf v) :=
      .parentheses v (List.forall_mem_nil _)
    exact ⟨_, leaf v, rest, hleaf, rfl, ih h⟩
  | case3 above v rest _ _ ih =>
    intro h
    obtain ⟨ps, s, _, hs, rfl, parts, rest', hparts, rfl, hcompletes⟩ := ih h
    have hchildren : ∀ part ∈ (ps, s) :: parts, Derives part.1 part.2 :=
      List.forall_mem_cons.2 ⟨hs, hparts⟩
    exact ⟨_, _, rest', .parentheses v hchildren, by simp, hcompletes⟩
  | case4 above v rest _ _ _ ih => exact fun h => ⟨[.word v], leaf v, rest, .value v, rfl, ih h⟩
  | case6 s =>
    intro h
    cases h
    exact ⟨rfl, rfl⟩
  | case9 s n above rest ih =>
    intro h
    have hcompletes : Completes above (.node n.value (n.done.reverse ++ [s])) rest t := by
      simpa [OpenNode.close, OpenNode.push] using ih h
    exact ⟨[], rest, List.forall_mem_nil _, rfl, hcompletes⟩
  | case10 s n above rest _ _ ih =>
    intro h
    obtain ⟨ps, s', _, hs, rfl, parts, rest', hparts, rfl, hcompletes⟩ := ih h
    refine ⟨(ps, s') :: parts, rest', List.forall_mem_cons.2 ⟨hs, hparts⟩, by simp, ?_⟩
    simpa [OpenNode.push] using hcompletes
  | case2 | case5 | case7 | case8 => exact nofun

/-! ## What the reader takes -/

section Steps

variable (above : List OpenNode) (n : OpenNode) (s : Tree String) (v w : String) (rest : List Piece)

/-- A value is a leaf unless an opening parenthesis comes behind it. -/
lemma readPieces_value (h : rest.head? ≠ some .opening) :
    readPieces above none (.word v :: rest) = readPieces above (some (leaf v)) rest := by
  match rest, h with
  | [], _ => rw [readPieces.eq_def]
  | .word _ :: _, _ => rw [readPieces.eq_def]
  | .closing :: _, _ => rw [readPieces.eq_def]
  | .opening :: _, h => exact absurd rfl h

/-- A value with a child opens a node. -/
lemma readPieces_open :
    readPieces above none (.word v :: .opening :: .word w :: rest) =
      readPieces (⟨v, []⟩ :: above) none (.word w :: rest) := by
  rw [readPieces.eq_def]

/-- A closing parenthesis closes the innermost node. -/
lemma readPieces_closing :
    readPieces (n :: above) (some s) (.closing :: rest) =
      readPieces above (some (n.push s).close) rest := by
  rw [readPieces]

/-- A child comes behind a child. -/
lemma readPieces_next :
    readPieces (n :: above) (some s) (.word w :: rest) =
      readPieces (n.push s :: above) none (.word w :: rest) := by
  rw [readPieces.eq_def]

end Steps

/-- Whether the reader takes the pieces for the tree, on top of any open nodes, unless an opening
parenthesis comes behind them. -/
def Takes (ps : List Piece) (t : Tree String) : Prop :=
  ∀ above rest, rest.head? ≠ some .opening →
    readPieces above none (ps ++ rest) = readPieces above (some t) rest

/-- No opening parenthesis comes behind a child. -/
lemma head?_children {parts : List (List Piece × Tree String)}
    (h : ∀ part ∈ parts, Derives part.1 part.2) (rest : List Piece) :
    ((parts.map Prod.fst).flatten ++ .closing :: rest).head? ≠ some .opening := by
  cases parts with
  | nil => simp
  | cons part parts =>
    obtain ⟨w, more, hword⟩ := (h part List.mem_cons_self).exists_word
    simp [hword]

/-- More children are taken up to the closing parenthesis. -/
lemma readPieces_children {parts : List (List Piece × Tree String)}
    (hparts : ∀ part ∈ parts, Derives part.1 part.2) (htakes : ∀ part ∈ parts, Takes part.1 part.2)
    (n : OpenNode) (above : List OpenNode) (s : Tree String) (rest : List Piece) :
    readPieces (n :: above) (some s) ((parts.map Prod.fst).flatten ++ .closing :: rest) =
      readPieces above (some (.node n.value (n.done.reverse ++ s :: parts.map Prod.snd))) rest := by
  induction parts generalizing n s with
  | nil => simp [readPieces_closing, OpenNode.close, OpenNode.push]
  | cons part parts ih =>
    obtain ⟨hpart, hothers⟩ := List.forall_mem_cons.1 hparts
    obtain ⟨htake, htakeOthers⟩ := List.forall_mem_cons.1 htakes
    obtain ⟨w, more, hword⟩ := hpart.exists_word
    let behind := (parts.map Prod.fst).flatten ++ .closing :: rest
    have hbehind : behind.head? ≠ some .opening := head?_children hothers rest
    calc readPieces (n :: above) (some s)
          (((part :: parts).map Prod.fst).flatten ++ .closing :: rest)
        = readPieces (n :: above) (some s) (part.1 ++ behind) := by simp [behind]
      _ = readPieces (n.push s :: above) none (part.1 ++ behind) := by
          rw [hword, List.cons_append, readPieces_next]
      _ = readPieces (n.push s :: above) (some part.2) behind := htake _ _ hbehind
      _ = readPieces above (some (.node n.value
            (n.done.reverse ++ s :: (part :: parts).map Prod.snd))) rest := by
          rw [ih hothers htakeOthers]
          simp [OpenNode.push]

/-- The reader takes every derivation. -/
theorem Derives.takes {ps : List Piece} {t : Tree String} (h : Derives ps t) : Takes ps t := by
  induction h with
  | value v => exact fun above rest hrest => readPieces_value above v rest hrest
  | @parentheses v parts hparts ih =>
    intro above rest _
    cases parts with
    | nil => exact readPieces.eq_1 ..
    | cons part parts =>
      obtain ⟨hpart, hothers⟩ := List.forall_mem_cons.1 hparts
      obtain ⟨htake, htakeOthers⟩ := List.forall_mem_cons.1 ih
      obtain ⟨w, more, hword⟩ := hpart.exists_word
      let behind := (parts.map Prod.fst).flatten ++ .closing :: rest
      have hbehind : behind.head? ≠ some .opening := head?_children hothers rest
      calc readPieces above none
            (.word v :: .opening :: (((part :: parts).map Prod.fst).flatten ++ [.closing]) ++ rest)
          = readPieces above none (.word v :: .opening :: (part.1 ++ behind)) := by simp [behind]
        _ = readPieces (⟨v, []⟩ :: above) none (part.1 ++ behind) := by
            rw [hword, List.cons_append, readPieces_open]
        _ = readPieces (⟨v, []⟩ :: above) (some part.2) behind := htake _ _ hbehind
        _ = readPieces above (some (.node v ((part :: parts).map Prod.snd))) rest :=
            readPieces_children hothers htakeOthers _ _ _ _

/-! ## What the writer writes -/

/-- Whether a text can be the value of a described node. -/
def IsValue (v : String) : Prop := v ≠ "" ∧ ∀ c ∈ v.toList, ¬ IsSeparator c

instance (v : String) : Decidable (IsValue v) :=
  -- Otherwise all characters there are would be tried, since there are finitely many.
  have : Decidable (∀ c ∈ v.toList, ¬ IsSeparator c) := List.decidableBAll _ _
  inferInstanceAs (Decidable (v ≠ "" ∧ ∀ c ∈ v.toList, ¬ IsSeparator c))

/-- The values that are cut out of a text can be values of described nodes. -/
lemma Cut.isValue {cs : List Char} {ps : List Piece} (h : Cut cs ps) {v : String}
    (hv : .word v ∈ ps) : IsValue v := by
  induction h with
  | done => cases hv
  | blank _ ih => exact ih hv
  | opening _ ih => exact ih (by simpa using hv)
  | closing _ ih => exact ih (by simpa using hv)
  | @word run cs ps hne hrun _ _ ih =>
    rcases List.mem_cons.1 hv with hword | hmem
    · cases hword
      exact ⟨by simpa using hne, by simpa using hrun⟩
    · exact ih hmem

/-- The values of a tree are words of the description that it derives from. -/
lemma Derives.word_mem {ps : List Piece} {t : Tree String} (h : Derives ps t) :
    ∀ v ∈ t.values, .word v ∈ ps := by
  induction h with
  | value v => simp [leaf, values_node]
  | @parentheses v parts _ ih =>
    intro w hw
    rw [values_node, List.mem_cons, List.mem_flatMap] at hw
    rcases hw with rfl | ⟨t, ht, hw⟩
    · exact List.mem_cons_self
    · obtain ⟨part, hpart, rfl⟩ := List.mem_map.1 ht
      have hmem : .word w ∈ (parts.map Prod.fst).flatten :=
        List.mem_flatten.2 ⟨part.1, List.mem_map_of_mem hpart, ih part hpart w hw⟩
      simp [hmem]

/-- A value is cut out as a whole. -/
lemma Cut.value {v : String} {cs : List Char} {ps : List Piece} (hv : IsValue v) (hend : Parted cs)
    (h : Cut cs ps) : Cut (v.toList ++ cs) (.word v :: ps) := by
  have hne : v.toList ≠ [] := by simpa using hv.1
  simpa using h.word hne hv.2 hend

/-- The descriptions of further children begin with a blank. -/
lemma parted_describeMoreThen (ts : List (Tree String)) {rest : List Char} (h : Parted rest) :
    Parted (describeMoreThen ts rest) := by
  cases ts with
  | nil => exact h
  | cons t ts => exact parted_cons (.inl rfl)

mutual

/-- What is written for a tree is cut into pieces that the tree derives from. -/
lemma exists_cut_describeThen : (t : Tree String) → (∀ v ∈ t.values, IsValue v) →
    ∃ ps, Derives ps t ∧
      ∀ {rest qs}, Parted rest → Cut rest qs → Cut (describeThen t rest) (ps ++ qs)
  | .node v [], h => by
    have hv : IsValue v := h v (by simp [values_node])
    exact ⟨[.word v], .value v, fun hend hrest => hrest.value hv hend⟩
  | .node v (c :: cs), h => by
    rw [values_node, List.forall_mem_cons, List.flatMap_cons, List.forall_mem_append] at h
    obtain ⟨hv, hc, hcs⟩ := h
    obtain ⟨ps, hps, hcut⟩ := exists_cut_describeThen c hc
    obtain ⟨parts, hparts, rfl, hcuts⟩ := exists_cut_describeMoreThen cs hcs
    have hall : ∀ part ∈ (ps, c) :: parts, Derives part.1 part.2 :=
      List.forall_mem_cons.2 ⟨hps, hparts⟩
    refine ⟨_, .parentheses v hall, fun {rest qs} _ hrest => ?_⟩
    have hclose : Parted (')' :: rest) := parted_cons (.inr (.inr rfl))
    have hchildren := hcut (parted_describeMoreThen _ hclose) (hcuts hclose hrest.closing)
    simpa [describeThen] using hchildren.opening.value hv (parted_cons (.inr (.inl rfl)))

/-- What is written for further children is cut into the pieces of each of them. -/
lemma exists_cut_describeMoreThen : (ts : List (Tree String)) →
    (∀ v ∈ ts.flatMap values, IsValue v) →
    ∃ parts : List (List Piece × Tree String),
      (∀ part ∈ parts, Derives part.1 part.2) ∧ parts.map Prod.snd = ts ∧
      ∀ {rest qs}, Parted rest → Cut rest qs →
        Cut (describeMoreThen ts rest) ((parts.map Prod.fst).flatten ++ qs)
  | [], _ => ⟨[], by simp, rfl, fun _ hrest => hrest⟩
  | t :: ts, h => by
    rw [List.flatMap_cons, List.forall_mem_append] at h
    obtain ⟨ps, hps, hcut⟩ := exists_cut_describeThen t h.1
    obtain ⟨parts, hparts, rfl, hcuts⟩ := exists_cut_describeMoreThen ts h.2
    refine ⟨(ps, t) :: parts, List.forall_mem_cons.2 ⟨hps, hparts⟩, rfl, fun hend hrest => ?_⟩
    have hmore := hcut (parted_describeMoreThen _ hend) (hcuts hend hrest)
    simpa [describeMoreThen] using hmore.blank

end

/-! ## Reading and writing -/

/-- A text describes the tree that its pieces derive from. -/
def Describes (text : String) (t : Tree String) : Prop := ∃ ps, Cut text.toList ps ∧ Derives ps t

lemma ofDescription_eq_ok_iff (text : String) (t : Tree String) :
    ofDescription text = .ok t ↔ Describes text t := by
  have hcut : Cut text.toList (pieces text) := (cut_iff text _).2 rfl
  unfold ofDescription
  constructor
  · intro h
    obtain ⟨ps, s, rest, hps, hpieces, rfl, rfl⟩ := completes_of_readPieces [] none _ t h
    rw [List.append_nil] at hpieces
    exact ⟨ps, hpieces ▸ hcut, hps⟩
  · rintro ⟨ps, hps, hderives⟩
    obtain rfl := (cut_iff text ps).1 hps
    calc readPieces [] none (pieces text)
        = readPieces [] none (pieces text ++ []) := by rw [List.append_nil]
      _ = readPieces [] (some t) [] := hderives.takes [] [] (by simp)
      _ = .ok t := by rw [readPieces]

lemma invalidArgument_of_readPieces (above : List OpenNode) (finished : Option (Tree String))
    (rest : List Piece) {e : TreeError} : readPieces above finished rest = .error e →
    e.InvalidArgument := by
  fun_induction readPieces above finished rest with
  | case1 | case3 | case4 | case9 | case10 => assumption
  | case6 => exact nofun
  | case2 | case5 | case7 | case8 =>
    rintro ⟨⟩
    trivial

/-- What is written for a tree describes it. -/
lemma describes_describe {t : Tree String} (h : ∀ v ∈ t.values, IsValue v) :
    Describes t.describe t := by
  obtain ⟨ps, hps, hcut⟩ := exists_cut_describeThen t h
  refine ⟨ps, ?_, hps⟩
  simpa [describe] using hcut parted_nil .done

/-- The values of a described tree can be written down again. -/
lemma Describes.isValue {text : String} {t : Tree String} (h : Describes text t) :
    ∀ v ∈ t.values, IsValue v := by
  obtain ⟨ps, hcut, hps⟩ := h
  exact fun v hv => hcut.isValue (hps.word_mem v hv)

/-- The reader accepts exactly the descriptions of trees, with the tree that the pieces derive from,
and blames anything else.  It reads back what was written for a tree whose values can be told apart,
so for every tree that it has read. -/
theorem ofDescription_inverts_describe (text : String) :
    (∀ t, ofDescription text = .ok t ↔ Describes text t) ∧
      (∀ e, ofDescription text = .error e → e.InvalidArgument) ∧
      (∀ t : Tree String, (∀ v ∈ t.values, IsValue v) → ofDescription t.describe = .ok t) ∧
      ∀ t, ofDescription text = .ok t → ofDescription t.describe = .ok t := by
  have hwritten (t : Tree String) (h : ∀ v ∈ t.values, IsValue v) :
      ofDescription t.describe = .ok t := (ofDescription_eq_ok_iff _ t).2 (describes_describe h)
  refine ⟨ofDescription_eq_ok_iff text, fun e => invalidArgument_of_readPieces _ _ _, hwritten,
    fun t h => hwritten t ?_⟩
  exact ((ofDescription_eq_ok_iff text t).1 h).isValue

/-- Blanks do not matter, nor do parentheses around no children. -/
example : ofDescription " f ( g()  b)" = .ok (.node "f" [leaf "g", leaf "b"]) ∧
    describe (.node "f" [leaf "g", leaf "b"]) = "f(g b)" := by
  constructor <;> cbv

end Tree

end Logo
