import Logo.Tree.Cursor
import Mathlib.Data.List.Basic
import Mathlib.Tactic.Common

/-!
# Cursors among children that disappear

A cursor counts the children that are left, while whoever moves it counts the children that there were.
The two counts drift apart with every removal.  What keeps them together is that the children in front
of the cursor are those that were yielded and not removed, and that those behind it are untouched.

* `ChildCursor.Tracks`: what a cursor and the answers that it has given have in common;
  `ChildCursor.Tracks.move`: every move keeps it, whether it fails or not.
* `ChildCursor.tracks_play`: so do any number of moves.
* `ChildCursor.answers_among_children`: what a cursor answers, and what it leaves of the children.
-/

namespace Logo

/-! ## Moves and answers -/

/-- What can be asked of a cursor. -/
inductive CursorMove where
  /-- Move to the next child. -/
  | advance
  /-- Remove the child yielded last. -/
  | remove
  deriving DecidableEq

/-- The answer to a move. -/
inductive CursorAnswer (α : Type) where
  /-- The next child. -/
  | yielded (t : Tree α)
  /-- There is no next child. -/
  | ended
  /-- The child that is removed. -/
  | removed (t : Tree α)
  /-- There is no child to be removed. -/
  | refused (e : TreeError)

variable {α β : Type}

namespace CursorAnswer

/-- The child that a move yields. -/
def child? : CursorAnswer α → Option (Tree α)
  | .yielded t => some t
  | .ended | .removed _ | .refused _ => none

/-- Whether a move does what it is asked to. -/
def Succeeds : CursorAnswer α → Prop
  | .yielded _ | .removed _ => True
  | .ended | .refused _ => False

lemma eq_of_not_succeeds {a : CursorAnswer α} (h : ¬ a.Succeeds) :
    a = .ended ∨ ∃ e, a = .refused e := by
  cases a with
  | yielded t => exact absurd trivial h
  | ended => exact .inl rfl
  | removed t => exact absurd trivial h
  | refused e => exact .inr ⟨e, rfl⟩

/-- The children yielded by moves in a row. -/
def yields (history : List (CursorAnswer α)) : List (Tree α) := history.filterMap child?

/-- A child was yielded, and no later move has succeeded. -/
def LastYielded (history : List (CursorAnswer α)) (t : Tree α) : Prop :=
  ∃ before after, history = before ++ .yielded t :: after ∧ ∀ a ∈ after, ¬ a.Succeeds

/-- The places of the children removed by moves in a row, of all children from the first, when a number
of them have been yielded before. -/
def removedPlaces (yielded : Nat) : List (CursorAnswer α) → List Nat
  | [] => []
  | .yielded _ :: history => removedPlaces (yielded + 1) history
  | .removed _ :: history => (yielded - 1) :: removedPlaces yielded history
  | .ended :: history => removedPlaces yielded history
  | .refused _ :: history => removedPlaces yielded history

variable {history : List (CursorAnswer α)} {t : Tree α}

lemma yields_append (history more : List (CursorAnswer α)) :
    yields (history ++ more) = yields history ++ yields more :=
  List.filterMap_append

lemma removedPlaces_append (yielded : Nat) (history more : List (CursorAnswer α)) :
    removedPlaces yielded (history ++ more) =
      removedPlaces yielded history ++ removedPlaces (yielded + (yields history).length) more := by
  induction history generalizing yielded with
  | nil => rfl
  | cons a history ih =>
    cases a with
    | yielded t =>
      have hlength : (yields (.yielded t :: history)).length = (yields history).length + 1 := rfl
      rw [List.cons_append, removedPlaces, removedPlaces, ih, hlength]
      congr 2
      omega
    | removed t =>
      rw [List.cons_append, removedPlaces, removedPlaces, ih]
      rfl
    | ended =>
      rw [List.cons_append, removedPlaces, removedPlaces, ih]
      rfl
    | refused e =>
      rw [List.cons_append, removedPlaces, removedPlaces, ih]
      rfl

/-! ## The child yielded last -/

lemma lastYielded_yielded (history : List (CursorAnswer α)) (t : Tree α) :
    LastYielded (history ++ [.yielded t]) t :=
  ⟨history, [], rfl, nofun⟩

lemma not_lastYielded_nil : ¬ LastYielded [] t := by
  rintro ⟨before, after, hsplit, -⟩
  exact List.append_ne_nil_of_right_ne_nil before (List.cons_ne_nil _ _) hsplit.symm

/-- The last answer of a history is the last of those behind a place, or it stands there itself. -/
lemma lastYielded_snoc_iff {a : CursorAnswer α} :
    LastYielded (history ++ [a]) t ↔ a = .yielded t ∨ ¬ a.Succeeds ∧ LastYielded history t := by
  constructor
  · rintro ⟨before, after, hsplit, hafter⟩
    rcases List.eq_nil_or_concat after with rfl | ⟨after, b, rfl⟩
    · exact .inl (List.singleton_inj.mp (List.append_inj' hsplit rfl).2)
    · right
      rw [List.concat_eq_append, ← List.cons_append, ← List.append_assoc] at hsplit
      obtain ⟨rfl, hlast⟩ := List.append_inj' hsplit rfl
      obtain rfl : a = b := List.singleton_inj.mp hlast
      rw [List.concat_eq_append, List.forall_mem_append] at hafter
      exact ⟨hafter.2 a (List.mem_singleton_self a), before, after, rfl, hafter.1⟩
  · rintro (rfl | ⟨hfails, before, after, rfl, hafter⟩)
    · exact lastYielded_yielded history t
    · refine ⟨before, after ++ [a], by simp, ?_⟩
      rw [List.forall_mem_append, List.forall_mem_singleton]
      exact ⟨hafter, hfails⟩

end CursorAnswer

/-! ## Lists without some places -/

/-- The members of a list that do not stand at one of the places, in order. -/
def without (places : List Nat) (xs : List β) : List β :=
  (xs.zipIdx.filter fun x => x.2 ∉ places).map Prod.fst

section Without

variable {places : List Nat} {xs : List β}

/-- What stands behind all of the places stays. -/
lemma without_append (h : ∀ p ∈ places, p < xs.length) (ys : List β) :
    without places (xs ++ ys) = without places xs ++ ys := by
  have hbehind : (ys.zipIdx xs.length).filter (fun x => x.2 ∉ places) = ys.zipIdx xs.length := by
    rw [List.filter_eq_self]
    rintro ⟨y, place⟩ hmem
    have hplace := List.le_snd_of_mem_zipIdx hmem
    simp only [decide_eq_true_eq]
    exact fun hp => absurd (h _ hp) (Nat.not_lt.2 hplace)
  have hzip : xs.zipIdx ++ ys.zipIdx xs.length = (xs ++ ys).zipIdx := by
    rw [List.zipIdx_append, Nat.zero_add]
  rw [without, without, ← hzip, List.filter_append, List.map_append, hbehind, List.zipIdx_map_fst]

/-- The member behind all of the places goes if its own place is added to them. -/
lemma without_concat (places : List Nat) (xs : List β) (x : β) :
    without (places ++ [xs.length]) (xs ++ [x]) = without places xs := by
  have hfront : xs.zipIdx.filter (fun y => y.2 ∉ places ++ [xs.length]) =
      xs.zipIdx.filter (fun y => y.2 ∉ places) := by
    refine List.filter_congr ?_
    rintro ⟨y, place⟩ hmem
    have hplace : place < xs.length := by simpa using List.snd_lt_of_mem_zipIdx hmem
    simp [Nat.ne_of_lt hplace]
  have hzip : xs.zipIdx ++ [(x, xs.length)] = (xs ++ [x]).zipIdx := by
    rw [List.zipIdx_append, Nat.zero_add]
    rfl
  rw [without, without, ← hzip, List.filter_append, hfront]
  simp

/-- The member behind all of the places is the one that goes with its index among those that stay. -/
lemma eraseIdx_without (h : ∀ p ∈ places, p < xs.length) (x : β) (ys : List β) :
    (without places (xs ++ [x]) ++ ys).eraseIdx (without places xs).length =
      without (places ++ [xs.length]) (xs ++ [x]) ++ ys := by
  rw [without_append h, without_concat, List.append_assoc,
    List.eraseIdx_append_of_length_le (Nat.le_refl _), Nat.sub_self]
  rfl

end Without

/-! ## A cursor and its answers -/

namespace ChildCursor

open CursorAnswer

/-- Carries out a move; a removal that is refused leaves the cursor as it was. -/
def move (c : ChildCursor α) : CursorMove → CursorAnswer α × ChildCursor α
  | .advance =>
    match c.advance with
    | (some t, c') => (.yielded t, c')
    | (none, c') => (.ended, c')
  | .remove =>
    match c.remove with
    | .ok (t, c') => (.removed t, c')
    | .error e => (.refused e, c)

/-- The cursor after some moves. -/
def play (c : ChildCursor α) : List CursorMove → ChildCursor α
  | [] => c
  | x :: moves => (c.move x).2.play moves

/-- The answers to some moves. -/
def answers (c : ChildCursor α) : List CursorMove → List (CursorAnswer α)
  | [] => []
  | x :: moves => (c.move x).1 :: (c.move x).2.answers moves

/-- The child that a removal would take. -/
def removable? (c : ChildCursor α) : Option (Tree α) := c.current.map c.children.get

variable {cs : List (Tree α)} {history : List (CursorAnswer α)} {c : ChildCursor α}

lemma advance_fst (c : ChildCursor α) : c.advance.1 = c.children[c.next]? := by
  unfold advance
  split
  · next hlt => exact (List.getElem?_eq_getElem hlt).symm
  · next hnot => exact (List.getElem?_eq_none (Nat.not_lt.1 hnot)).symm

lemma exists_remove_eq_ok_iff (t : Tree α) :
    (∃ c', c.remove = .ok (t, c')) ↔ c.removable? = some t := by
  unfold remove removable?
  split
  · next hcurrent => simp [hcurrent]
  · next index hcurrent => simp [hcurrent]

/-- A move that fails changes nothing. -/
lemma move_snd_of_not_succeeds {x : CursorMove} (h : ¬ (c.move x).1.Succeeds) : (c.move x).2 = c := by
  cases x with
  | advance =>
    by_cases hnext : c.next < c.children.length
    · rw [move, advance, dif_pos hnext] at h
      exact absurd trivial h
    · rw [move, advance, dif_neg hnext]
  | remove =>
    cases hremove : c.remove with
    | ok r =>
      rw [move, hremove] at h
      exact absurd trivial h
    | error e => rw [move, hremove]

/-- The cursor is where its answers have led it to. -/
structure Tracks (cs : List (Tree α)) (history : List (CursorAnswer α)) (c : ChildCursor α) : Prop where
  /-- The children come in order. -/
  yields_prefix : yields history <+: cs
  /-- Only children that were yielded are removed. -/
  places_lt : ∀ p ∈ removedPlaces 0 history, p < (yields history).length
  /-- The others are left. -/
  children_eq : c.children =
    without (removedPlaces 0 history) (yields history) ++ cs.drop (yields history).length
  /-- The cursor stands behind those of them that were yielded. -/
  next_eq : c.next = (without (removedPlaces 0 history) (yields history)).length
  /-- The child that can be removed is the last in front of the cursor, and was not removed. -/
  of_current : ∀ i ∈ c.current,
    i.val + 1 = c.next ∧ (yields history).length - 1 ∉ removedPlaces 0 history
  /-- It is the child yielded last. -/
  removable_eq_iff : ∀ t, c.removable? = some t ↔ LastYielded history t

lemma tracks_ofChildren (cs : List (Tree α)) : Tracks cs [] (ofChildren cs) :=
  ⟨List.nil_prefix, nofun, rfl, rfl, nofun, fun _ => iff_of_false nofun not_lastYielded_nil⟩

namespace Tracks

/-- The next child is the first that was not yielded. -/
lemma getElem?_next (h : Tracks cs history c) : c.children[c.next]? = cs[(yields history).length]? := by
  rw [h.children_eq, h.next_eq, List.getElem?_append_right (Nat.le_refl _), Nat.sub_self,
    List.getElem?_drop, Nat.add_zero]

/-- A move that fails changes neither the cursor nor what is known of it. -/
lemma of_not_succeeds (h : Tracks cs history c) {a : CursorAnswer α} (ha : ¬ a.Succeeds) :
    Tracks cs (history ++ [a]) c := by
  have hyields : yields (history ++ [a]) = yields history := by
    rw [yields_append]
    rcases eq_of_not_succeeds ha with rfl | ⟨e, rfl⟩
    · exact List.append_nil _
    · exact List.append_nil _
  have hplaces : removedPlaces 0 (history ++ [a]) = removedPlaces 0 history := by
    rw [removedPlaces_append]
    rcases eq_of_not_succeeds ha with rfl | ⟨e, rfl⟩
    · exact List.append_nil _
    · exact List.append_nil _
  constructor
  · rw [hyields]
    exact h.yields_prefix
  · rw [hyields, hplaces]
    exact h.places_lt
  · rw [hyields, hplaces]
    exact h.children_eq
  · rw [hyields, hplaces]
    exact h.next_eq
  · rw [hyields, hplaces]
    exact h.of_current
  · intro t
    rw [lastYielded_snoc_iff, h.removable_eq_iff]
    constructor
    · exact fun hlast => .inr ⟨ha, hlast⟩
    · rintro (rfl | ⟨-, hlast⟩)
      · exact absurd trivial ha
      · exact hlast

/-- A child that is yielded stands behind all that were removed. -/
lemma of_yielded (h : Tracks cs history c) (hnext : c.next < c.children.length) :
    Tracks cs (history ++ [.yielded c.children[c.next]])
      ⟨c.children, c.next + 1, some ⟨c.next, hnext⟩⟩ := by
  obtain ⟨t, ht⟩ : ∃ t, c.children[c.next] = t := ⟨_, rfl⟩
  have hget : cs[(yields history).length]? = some t := by
    rw [← h.getElem?_next, List.getElem?_eq_getElem hnext, ht]
  obtain ⟨hlt, hgetElem⟩ := List.getElem?_eq_some_iff.mp hget
  have hdrop : cs.drop (yields history).length = t :: cs.drop ((yields history).length + 1) := by
    rw [List.drop_eq_getElem_cons hlt, hgetElem]
  have hyields : yields (history ++ [.yielded t]) = yields history ++ [t] := yields_append history _
  have hplaces : removedPlaces 0 (history ++ [.yielded t]) = removedPlaces 0 history := by
    rw [removedPlaces_append]
    exact List.append_nil _
  have hlength : (yields history ++ [t]).length = (yields history).length + 1 := List.length_append
  have hwithout : without (removedPlaces 0 history) (yields history ++ [t]) =
      without (removedPlaces 0 history) (yields history) ++ [t] := without_append h.places_lt [t]
  rw [ht]
  constructor
  · rw [hyields, List.prefix_iff_eq_append, hlength, List.append_assoc, List.singleton_append, ← hdrop]
    exact List.prefix_iff_eq_append.mp h.yields_prefix
  · rw [hyields, hplaces, hlength]
    exact fun p hp => Nat.lt_succ_of_lt (h.places_lt p hp)
  · rw [hyields, hplaces, hlength, hwithout, List.append_assoc, List.singleton_append, ← hdrop]
    exact h.children_eq
  · rw [hyields, hplaces, hwithout, List.length_append]
    exact congrArg (· + 1) h.next_eq
  · rintro i ⟨⟩
    rw [hyields, hplaces, hlength]
    exact ⟨rfl, fun hp => Nat.lt_irrefl _ (h.places_lt _ hp)⟩
  · intro t'
    have hremovable : removable? ⟨c.children, c.next + 1, some ⟨c.next, hnext⟩⟩ = some t :=
      congrArg some ht
    rw [hremovable, lastYielded_snoc_iff]
    simp [Succeeds]

/-- What is removed is the last of the children that were yielded and are left. -/
lemma of_removed (h : Tracks cs history c) {i : Fin c.children.length} (hcurrent : c.current = some i)
    (x : Tree α) :
    Tracks cs (history ++ [.removed x]) ⟨c.children.eraseIdx i, i, none⟩ := by
  obtain ⟨hi, hplace⟩ := h.of_current i hcurrent
  have hyields : yields (history ++ [.removed x]) = yields history := by
    rw [yields_append]
    exact List.append_nil _
  have hplaces : removedPlaces 0 (history ++ [.removed x]) =
      removedPlaces 0 history ++ [(yields history).length - 1] := by
    rw [removedPlaces_append, Nat.zero_add]
    rfl
  obtain ⟨front, t, hfront⟩ : ∃ front t, yields history = front ++ [t] := by
    rcases List.eq_nil_or_concat (yields history) with hnil | ⟨front, t, hconcat⟩
    · have hnext := h.next_eq
      rw [hnil] at hnext
      exact absurd (hi.trans hnext) (Nat.succ_ne_zero _)
    · exact ⟨front, t, hconcat.trans (List.concat_eq_append ..)⟩
  have hlength : (yields history).length = front.length + 1 := by
    rw [hfront]
    exact List.length_append
  rw [hlength, Nat.add_sub_cancel] at hplace hplaces
  have hbefore : ∀ p ∈ removedPlaces 0 history, p < front.length := by
    intro p hp
    have hle : p < front.length + 1 := hlength ▸ h.places_lt p hp
    exact Nat.lt_of_le_of_ne (Nat.le_of_lt_succ hle) fun heq => hplace (heq ▸ hp)
  have hindex : i.val = (without (removedPlaces 0 history) front).length := by
    have hnext := h.next_eq
    rw [hfront, without_append hbefore, List.length_append] at hnext
    exact Nat.succ.inj (hi.trans hnext)
  constructor
  · rw [hyields]
    exact h.yields_prefix
  · rw [hyields, hplaces, hlength]
    intro p hp
    rcases List.mem_append.mp hp with hp | hp
    · exact Nat.lt_succ_of_lt (hbefore p hp)
    · exact Nat.lt_succ_of_le (Nat.le_of_eq (List.mem_singleton.mp hp))
  · rw [hyields, hplaces]
    change c.children.eraseIdx i = _
    rw [hindex, h.children_eq, hfront, eraseIdx_without hbefore]
  · rw [hyields, hplaces, hfront, without_concat]
    exact hindex
  · nofun
  · intro t'
    rw [lastYielded_snoc_iff]
    simp [removable?, Succeeds]

/-- Every move keeps it. -/
lemma move (h : Tracks cs history c) (x : CursorMove) :
    Tracks cs (history ++ [(c.move x).1]) (c.move x).2 := by
  cases x with
  | advance =>
    by_cases hnext : c.next < c.children.length
    · rw [ChildCursor.move, advance, dif_pos hnext]
      exact h.of_yielded hnext
    · rw [ChildCursor.move, advance, dif_neg hnext]
      exact h.of_not_succeeds id
  | remove =>
    cases hcurrent : c.current with
    | some i =>
      have hremove : c.remove = .ok (c.children.get i, ⟨c.children.eraseIdx i, i, none⟩) := by
        rw [remove, hcurrent]
        rfl
      rw [ChildCursor.move, hremove]
      exact h.of_removed hcurrent (c.children.get i)
    | none =>
      have hremove : c.remove = .error (.noChild c.next c.children.length) := by
        rw [remove, hcurrent]
      rw [ChildCursor.move, hremove]
      exact h.of_not_succeeds id

end Tracks

/-- Any number of moves keep it. -/
theorem tracks_play (moves : List CursorMove) (h : Tracks cs history c) :
    Tracks cs (history ++ c.answers moves) (c.play moves) := by
  induction moves generalizing history c with
  | nil => simpa [answers, play] using h
  | cons x moves ih =>
    have hrest := ih (h.move x)
    rwa [List.append_assoc, List.singleton_append] at hrest

/-- A cursor yields the children of a node in order and each once: the next move along yields the first
that was not yielded, and nothing when all were.  It removes the child that it yielded last, unless that
has been removed already.  A move that fails changes nothing, and what is left are the children without
those that were removed, in order. -/
theorem answers_among_children (t : Tree α) (moves : List CursorMove) :
    let history := (ofChildren t.children).answers moves
    let c := (ofChildren t.children).play moves
    yields history <+: t.children ∧
      c.advance.1 = t.children[(yields history).length]? ∧
      (c.advance.1 = none ↔ yields history = t.children) ∧
      (∀ x, (∃ c', c.remove = .ok (x, c')) ↔ LastYielded history x) ∧
      (∀ x, ¬ (c.move x).1.Succeeds → (c.move x).2 = c) ∧
      c.children = without (removedPlaces 0 history) t.children := by
  intro history c
  have htracks : Tracks t.children history c := tracks_play moves (tracks_ofChildren t.children)
  have hadvance : c.advance.1 = t.children[(yields history).length]? := by
    rw [advance_fst, htracks.getElem?_next]
  refine ⟨htracks.yields_prefix, hadvance, ?_, fun x => ?_, fun _ => move_snd_of_not_succeeds, ?_⟩
  · rw [hadvance, List.getElem?_eq_none_iff]
    constructor
    · exact htracks.yields_prefix.eq_of_length_le
    · exact fun hall => Nat.le_of_eq (congrArg List.length hall).symm
  · rw [exists_remove_eq_ok_iff, htracks.removable_eq_iff]
  · rw [htracks.children_eq, ← without_append htracks.places_lt,
      List.prefix_iff_eq_append.mp htracks.yields_prefix]

/-- What was removed cannot be removed again, but the end of the children does not matter. -/
example (a b : Tree α) :
    (ofChildren [a, b]).answers [.advance, .remove, .remove, .advance, .advance, .remove] =
      [.yielded a, .removed a, .refused (.noChild 0 1), .yielded b, .ended, .removed b] := rfl

end ChildCursor

end Logo
