import Logo.Tree.Outline
import Mathlib.Data.List.Basic
import Mathlib.Tactic.Common

/-!
# Trees behind their outlines

An outline shows for each node how deep it is.  Together with the pre-order this is enough to build the
tree again: the nodes below a node are the ones that follow it up to the first that is not deeper.  So
two things have to be read off the text, where a line ends and where its indent does, and both can be
unless a value holds a line end or begins with a blank.

* `outline?_eq_some_iff`: what is written, and that this goes well down to a depth of 32767.
* `eq_of_join_lines_eq`: the lines of a text, their indents and their values.
* `eq_of_levels_append_eq`: the tree behind depths and values in pre-order.
* `outline?_determines_tree`: so the outline of a tree determines it.
* `outline?_too_deep`: the first depth without an outline.
-/

namespace Logo.Tree

variable {α : Type} {depth : Nat}

/-! ## Levels -/

mutual

/-- The values of a tree in pre-order with their depths, that of the root being given. -/
def levels (depth : Nat) : Tree α → List (Nat × α)
  | .node value children => (depth, value) :: levelsList (depth + 1) children

/-- `levels` for trees in a row. -/
def levelsList (depth : Nat) : List (Tree α) → List (Nat × α)
  | [] => []
  | t :: ts => levels depth t ++ levelsList depth ts

end

mutual

/-- The values come in the order in which they always do. -/
lemma map_snd_levels (depth : Nat) : (t : Tree α) → (t.levels depth).map Prod.snd = t.values
  | .node value children => by
    rw [levels, List.map_cons, map_snd_levelsList (depth + 1) children, values_node]

lemma map_snd_levelsList (depth : Nat) :
    (ts : List (Tree α)) → (levelsList depth ts).map Prod.snd = ts.flatMap values
  | [] => rfl
  | t :: ts => by
    rw [levelsList, List.map_append, map_snd_levels depth t, map_snd_levelsList depth ts,
      List.flatMap_cons]

end

/-! ## What is written -/

/-- The line of a node. -/
def lineOf (x : Nat × String) : String := outlineLine (2 * x.1) x.2

lemma indent?_eq_some_iff {indent : Nat} :
    indent? depth = some indent ↔ depth ≤ 32767 ∧ 2 * depth = indent := by
  unfold indent? maxIndent
  split
  · rw [Option.some_inj]
    omega
  · simp only [reduceCtorEq, false_iff]
    omega

mutual

lemma outlineFrom?_eq_some_iff (depth : Nat) {lines : List String} : (t : Tree String) →
    (outlineFrom? depth t = some lines ↔
      (∀ x ∈ t.levels depth, x.1 ≤ 32767) ∧ (t.levels depth).map lineOf = lines)
  | .node value children => by
    simp only [outlineFrom?, levels, Option.bind_eq_bind, Option.bind_eq_some_iff,
      indent?_eq_some_iff, outlineListFrom?_eq_some_iff (depth + 1) children, Option.pure_def,
      Option.some_inj, List.forall_mem_cons, List.map_cons]
    constructor
    · rintro ⟨_, ⟨hdepth, rfl⟩, _, ⟨hchildren, rfl⟩, rfl⟩
      exact ⟨⟨hdepth, hchildren⟩, rfl⟩
    · rintro ⟨⟨hdepth, hchildren⟩, rfl⟩
      exact ⟨_, ⟨hdepth, rfl⟩, _, ⟨hchildren, rfl⟩, rfl⟩

lemma outlineListFrom?_eq_some_iff (depth : Nat) {lines : List String} :
    (ts : List (Tree String)) → (outlineListFrom? depth ts = some lines ↔
      (∀ x ∈ levelsList depth ts, x.1 ≤ 32767) ∧ (levelsList depth ts).map lineOf = lines)
  | [] => by simp [outlineListFrom?, levelsList]
  | t :: ts => by
    simp only [outlineListFrom?, levelsList, Option.bind_eq_bind, Option.bind_eq_some_iff,
      outlineFrom?_eq_some_iff depth t, outlineListFrom?_eq_some_iff depth ts, Option.pure_def,
      Option.some_inj, List.forall_mem_append, List.map_append]
    constructor
    · rintro ⟨_, ⟨ht, rfl⟩, _, ⟨hts, rfl⟩, rfl⟩
      exact ⟨⟨ht, hts⟩, rfl⟩
    · rintro ⟨⟨ht, hts⟩, rfl⟩
      exact ⟨_, ⟨ht, rfl⟩, _, ⟨hts, rfl⟩, rfl⟩

end

/-- A tree has an outline unless a node is too deep: its lines, one after the other. -/
theorem outline?_eq_some_iff {t : Tree String} {text : String} :
    t.outline? = some text ↔
      (∀ x ∈ t.levels 0, x.1 ≤ 32767) ∧ String.join ((t.levels 0).map lineOf) = text := by
  simp only [outline?, Option.map_eq_some_iff, outlineFrom?_eq_some_iff]
  constructor
  · rintro ⟨_, ⟨hdepths, rfl⟩, htext⟩
    exact ⟨hdepths, htext⟩
  · rintro ⟨hdepths, htext⟩
    exact ⟨_, ⟨hdepths, rfl⟩, htext⟩

/-! ## Reading lines -/

/-- Whether a value can be told from the line end behind it and the indent in front of it. -/
def StandsOut (value : String) : Prop := '\n' ∉ value.toList ∧ value.toList.head? ≠ some ' '

instance (value : String) : Decidable (StandsOut value) := inferInstanceAs (Decidable (_ ∧ _))

lemma toList_lineOf (x : Nat × String) :
    (lineOf x).toList = List.replicate (2 * x.1) ' ' ++ x.2.toList ++ ['\n'] := by
  simp [lineOf, outlineLine]

/-- An indent ends where something else than a blank comes. -/
lemma eq_of_replicate_append_eq {m n : Nat} {cs ds : List Char} (hcs : cs.head? ≠ some ' ')
    (hds : ds.head? ≠ some ' ') (h : List.replicate m ' ' ++ cs = List.replicate n ' ' ++ ds) :
    m = n ∧ cs = ds := by
  induction m generalizing n with
  | zero =>
    cases n with
    | zero => exact ⟨rfl, h⟩
    | succ n => exact absurd (congrArg List.head? h) hcs
  | succ m ih =>
    cases n with
    | zero => exact absurd (congrArg List.head? h).symm hds
    | succ n =>
      obtain ⟨rfl, hcs⟩ := ih (List.cons.inj h).2
      exact ⟨rfl, hcs⟩

/-- What stands before the first line end of a text and what stands behind it. -/
lemma eq_of_append_newline_eq {as bs cs ds : List Char} (has : '\n' ∉ as) (hbs : '\n' ∉ bs)
    (h : as ++ '\n' :: cs = bs ++ '\n' :: ds) : as = bs ∧ cs = ds := by
  induction as generalizing bs with
  | nil =>
    cases bs with
    | nil => exact ⟨rfl, (List.cons.inj h).2⟩
    | cons b bs => exact absurd (List.cons.inj h).1 (List.ne_of_not_mem_cons hbs)
  | cons a as ih =>
    cases bs with
    | nil => exact absurd (List.cons.inj h).1.symm (List.ne_of_not_mem_cons has)
    | cons b bs =>
      obtain ⟨rfl, hrest⟩ := List.cons.inj h
      obtain ⟨rfl, rfl⟩ :=
        ih (List.not_mem_of_not_mem_cons has) (List.not_mem_of_not_mem_cons hbs) hrest
      exact ⟨rfl, rfl⟩

/-- The first line of a text and the rest of it. -/
lemma eq_of_line_append_eq {x y : Nat × String} {rest rest' : List Char} (hx : StandsOut x.2)
    (hy : StandsOut y.2) (h : (lineOf x).toList ++ rest = (lineOf y).toList ++ rest') :
    x = y ∧ rest = rest' := by
  have hnot (z : Nat × String) (hz : StandsOut z.2) :
      '\n' ∉ List.replicate (2 * z.1) ' ' ++ z.2.toList := by
    simp [hz.1]
  rw [toList_lineOf, toList_lineOf, List.append_assoc _ ['\n'], List.append_assoc _ ['\n'],
    List.singleton_append, List.singleton_append] at h
  obtain ⟨hline, hrest⟩ := eq_of_append_newline_eq (hnot x hx) (hnot y hy) h
  obtain ⟨hindent, hvalue⟩ := eq_of_replicate_append_eq hx.2 hy.2 hline
  exact ⟨Prod.ext (by omega) (String.toList_inj.mp hvalue), hrest⟩

/-- The lines of a text give back depths and values. -/
theorem eq_of_join_lines_eq {xs ys : List (Nat × String)} (hxs : ∀ x ∈ xs, StandsOut x.2)
    (hys : ∀ y ∈ ys, StandsOut y.2)
    (h : String.join (xs.map lineOf) = String.join (ys.map lineOf)) : xs = ys := by
  replace h := congrArg String.toList h
  rw [String.toList_join, String.toList_join] at h
  induction xs generalizing ys with
  | nil =>
    cases ys with
    | nil => rfl
    | cons y ys => simp [toList_lineOf] at h
  | cons x xs ih =>
    cases ys with
    | nil => simp [toList_lineOf] at h
    | cons y ys =>
      rw [List.forall_mem_cons] at hxs hys
      obtain ⟨rfl, hrest⟩ := eq_of_line_append_eq hxs.1 hys.1 h
      rw [ih hxs.2 hys.2 hrest]

/-! ## Building the tree again -/

/-- What follows the nodes of trees in a row is less deep than they are. -/
def EndsAt (depth : Nat) (rest : List (Nat × α)) : Prop := ∀ x ∈ rest.head?, x.1 < depth

/-- Behind a tree comes the next one, or what comes behind the last one. -/
lemma endsAt_levelsList {rest : List (Nat × α)} (ts : List (Tree α)) (h : EndsAt depth rest) :
    EndsAt (depth + 1) (levelsList depth ts ++ rest) := by
  cases ts with
  | nil => exact fun x hx => Nat.lt_succ_of_lt (h x hx)
  | cons t ts =>
    obtain ⟨value, children⟩ := t
    rintro x ⟨⟩
    exact Nat.lt_succ_self _

mutual

/-- The nodes of a tree end where a node comes that is not deeper than its root. -/
lemma eq_of_levels_append_eq {depth : Nat} {rest rest' : List (Nat × α)} : (s t : Tree α) →
    EndsAt (depth + 1) rest → EndsAt (depth + 1) rest' →
    s.levels depth ++ rest = t.levels depth ++ rest' → s = t ∧ rest = rest'
  | .node v cs, .node w ds, hrest, hrest', h => by
    rw [levels, levels, List.cons_append, List.cons_append, List.cons_eq_cons, Prod.mk.injEq] at h
    obtain ⟨⟨-, rfl⟩, hchildren⟩ := h
    obtain ⟨rfl, rfl⟩ := eq_of_levelsList_append_eq cs ds hrest hrest' hchildren
    exact ⟨rfl, rfl⟩

lemma eq_of_levelsList_append_eq {depth : Nat} {rest rest' : List (Nat × α)} :
    (ss ts : List (Tree α)) → EndsAt depth rest → EndsAt depth rest' →
    levelsList depth ss ++ rest = levelsList depth ts ++ rest' → ss = ts ∧ rest = rest'
  | [], [], _, _, h => ⟨rfl, h⟩
  | [], .node w ds :: ts, hrest, _, h => by
    have hmem : (depth, w) ∈ rest.head? := by
      rw [show rest = _ from h]
      rfl
    exact absurd (hrest _ hmem) (Nat.lt_irrefl _)
  | .node v cs :: ss, [], _, hrest', h => by
    have hmem : (depth, v) ∈ rest'.head? := by
      rw [show rest' = _ from h.symm]
      rfl
    exact absurd (hrest' _ hmem) (Nat.lt_irrefl _)
  | s :: ss, t :: ts, hrest, hrest', h => by
    rw [levelsList, levelsList, List.append_assoc, List.append_assoc] at h
    obtain ⟨rfl, hothers⟩ := eq_of_levels_append_eq s t (endsAt_levelsList ss hrest)
      (endsAt_levelsList ts hrest') h
    obtain ⟨rfl, rfl⟩ := eq_of_levelsList_append_eq ss ts hrest hrest' hothers
    exact ⟨rfl, rfl⟩

end

/-- The outline of a tree has a line for every node in pre-order, two blanks for each level and the
value.  It exists down to a depth of 32767, and no other tree with values that stand out has it. -/
theorem outline?_determines_tree (t : Tree String) :
    (∀ text, t.outline? = some text ↔
      (∀ x ∈ t.levels 0, x.1 ≤ 32767) ∧
        text = String.join ((t.levels 0).map fun x =>
          String.ofList (List.replicate (2 * x.1) ' ') ++ x.2 ++ "\n")) ∧
      (t.levels 0).map Prod.snd = t.values ∧
      ∀ s text, (∀ v ∈ s.values, StandsOut v) → (∀ v ∈ t.values, StandsOut v) →
        s.outline? = some text → t.outline? = some text → s = t := by
  refine ⟨fun text => outline?_eq_some_iff.trans (and_congr_right' eq_comm), map_snd_levels 0 t, ?_⟩
  intro s text hs ht hsText htText
  have hvalues (u : Tree String) (hu : ∀ v ∈ u.values, StandsOut v) :
      ∀ x ∈ u.levels 0, StandsOut x.2 := by
    intro x hx
    apply hu
    rw [← map_snd_levels 0 u]
    exact List.mem_map_of_mem hx
  obtain ⟨-, hsJoin⟩ := outline?_eq_some_iff.mp hsText
  obtain ⟨-, htJoin⟩ := outline?_eq_some_iff.mp htText
  have hlevels : s.levels 0 = t.levels 0 :=
    eq_of_join_lines_eq (hvalues s hs) (hvalues t ht) (hsJoin.trans htJoin.symm)
  have hend : EndsAt (0 + 1) ([] : List (Nat × String)) := by
    rintro x ⟨⟩
  exact (eq_of_levels_append_eq s t hend hend (congrArg (· ++ []) hlevels)).1

/-- The innermost node of a chain is as deep as there are nodes above it. -/
lemma mem_levels_repeat (v w : α) (n depth : Nat) :
    (depth + n, w) ∈ (Nat.repeat (fun t => Tree.node v [t]) n (leaf w)).levels depth := by
  induction n generalizing depth with
  | zero => exact List.mem_cons_self
  | succ n ih =>
    have hbelow := ih (depth + 1)
    rw [Nat.add_assoc, Nat.add_comm 1 n] at hbelow
    exact List.mem_cons_of_mem _ (List.mem_append_left _ hbelow)

/-- A tree of depth 32768 has no outline. -/
theorem outline?_too_deep :
    (Nat.repeat (fun t => Tree.node "n" [t]) 32768 (leaf "leaf")).outline? = none := by
  refine Option.eq_none_iff_forall_ne_some.mpr fun text htext => ?_
  have hdepth := (outline?_eq_some_iff.mp htext).1 _ (mem_levels_repeat "n" "leaf" 32768 0)
  exact absurd hdepth (by decide)

end Logo.Tree
