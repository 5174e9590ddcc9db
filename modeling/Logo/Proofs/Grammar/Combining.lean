import Logo.Proofs.Grammar.Step
import Mathlib.Data.List.Perm.Subperm
import Mathlib.Data.List.Perm.Basic

/-!
# Combinations of trees

A combination takes the entries that it joins off the stack before it looks for any of them by
position, and an entry that was taken is not there a second time.  So what decides is the list of all
positions, the root's in front: each must be one of the entries, and none may come twice
(`Step.Fits`), which for as many positions as entries makes it a rearrangement of them.

Where the positions do not fit, the entries stay off the stack.  Only a combination of more entries
than there are is refused before anything happens.

* `Step.takeEntries_eq_ok_iff`: what taking entries at several positions gives, and when.
* `Step.combine_of_fits`, `Step.combine_of_lt` and `Step.combine_of_not_fits`: the three ways in which a
  combination ends.
* `Step.combine_rearranges`: a combination is an exact rearrangement.
* `Step.stack_eq_of_combine_error_iff`: a failed one leaves the stack alone only if the stack is too low.
-/

namespace Logo

namespace Assembly

variable {a : Assembly} {position : Nat}

/-- The tree at a position of the stack, the top being position 1. -/
def entry? (a : Assembly) : Nat → Option (Tree Token)
  | 0 => none
  | index + 1 => a.stack[index]?

lemma map_entry?_range' {count : Nat} (h : count ≤ a.stack.length) :
    (List.range' 1 count).map a.entry? = (a.stack.take count).map some := by
  refine List.ext_getElem (by simp [h]) fun index hindex _ => ?_
  have hget : index < a.stack.length := by
    rw [List.length_map, List.length_range'] at hindex
    omega
  simp [Nat.add_comm 1, entry?, hget]

end Assembly

namespace Step

open Assembly

variable {a b : Assembly} {root : Nat} {children positions : List Nat}
  {entries : Array (Option (Tree Token))}

/-! ## Taking entries -/

/-- The tree that would be taken at a position. -/
def there? (entries : Array (Option (Tree Token))) (position : Nat) : Option (Tree Token) :=
  ( takeEntry? entries position).map Prod.fst

lemma takeEntry?_succ (entries : Array (Option (Tree Token))) (i : Nat) :
    takeEntry? entries (i + 1) =
      entries[i]?.join.map fun x => (x, entries.setIfInBounds i none) := by
  simp only [ takeEntry?]
  rcases entries[i]? with _ | _ | x <;> rfl

lemma there?_zero (entries : Array (Option (Tree Token))) : there? entries 0 = none := rfl

lemma there?_succ (entries : Array (Option (Tree Token))) (i : Nat) :
    there? entries (i + 1) = entries[i]?.join := by
  rw [there?, takeEntry?_succ, Option.map_map]
  exact Option.map_id'

/-- An entry that is taken is not there any more, and the others are. -/
lemma there?_rest {p q : Nat} {x : Tree Token} {rest : Array (Option (Tree Token))}
    (h : takeEntry? entries p = some (x, rest)) :
    there? rest q = if q = p then none else there? entries q := by
  cases p with
  | zero => cases h
  | succ p =>
    rw [takeEntry?_succ, Option.map_eq_some_iff] at h
    obtain ⟨_, -, heq⟩ := h
    cases heq
    cases q with
    | zero => simp [there?_zero]
    | succ q =>
      by_cases hqp : q = p
      · subst hqp
        rw [there?_succ, if_pos rfl, Array.getElem?_setIfInBounds_self]
        split <;> rfl
      · rw [there?_succ, there?_succ, Array.getElem?_setIfInBounds_ne (Ne.symm hqp), if_neg (by omega)]

/-- After an entry was taken, others are there exactly if they were before and it is none of them. -/
lemma map_there?_rest {p : Nat} {x : Tree Token} {rest : Array (Option (Tree Token))}
    {ts : List (Tree Token)} (h : takeEntry? entries p = some (x, rest)) :
    positions.map (there? rest) = ts.map some ↔
      p ∉ positions ∧ positions.map (there? entries) = ts.map some := by
  have hkept (hfresh : p ∉ positions) : positions.map (there? rest) = positions.map (there? entries) := by
    refine List.map_congr_left fun q hq => ?_
    have hqp : q ≠ p := by
      rintro rfl
      exact hfresh hq
    rw [there?_rest h, if_neg hqp]
  constructor
  · intro hrest
    have hfresh : p ∉ positions := by
      intro hp
      have hnone : none ∈ ts.map some :=
        hrest ▸ List.mem_map.2 ⟨p, hp, (there?_rest h).trans (if_pos rfl)⟩
      simp at hnone
    exact ⟨hfresh, (hkept hfresh).symm.trans hrest⟩
  · rintro ⟨hfresh, hts⟩
    exact (hkept hfresh).trans hts

lemma takeEntries_cons_eq_ok_iff {p : Nat} {x : Tree Token} {rest : Array (Option (Tree Token))}
    {ts : List (Tree Token)} (h : takeEntry? entries p = some (x, rest)) :
    takeEntries entries (p :: positions) = .ok ts ↔
      ∃ us, takeEntries rest positions = .ok us ∧ x :: us = ts := by
  simp only [takeEntries, h]
  cases takeEntries rest positions with
  | error q => simp [bind, Except.bind]
  | ok us => simp [bind, Except.bind, pure, Except.pure]

/-- Entries are taken at several positions exactly if all of them are there and no position comes
twice. -/
theorem takeEntries_eq_ok_iff {ts : List (Tree Token)} :
    takeEntries entries positions = .ok ts ↔
      positions.Nodup ∧ positions.map (there? entries) = ts.map some := by
  induction positions generalizing entries ts with
  | nil => cases ts <;> simp [takeEntries]
  | cons p positions ih =>
    cases hp : takeEntry? entries p with
    | none =>
      have hnone : there? entries p = none := by rw [there?, hp]; rfl
      rw [takeEntries, hp]
      cases ts <;> simp [hnone]
    | some taken =>
      obtain ⟨x, rest⟩ := taken
      have hx : there? entries p = some x := by rw [there?, hp]; rfl
      rw [takeEntries_cons_eq_ok_iff hp, List.nodup_cons, List.map_cons, hx]
      simp only [ih, map_there?_rest hp]
      constructor
      · rintro ⟨us, ⟨hnodup, hfresh, hus⟩, rfl⟩
        exact ⟨⟨hfresh, hnodup⟩, by rw [hus, List.map_cons]⟩
      · rintro ⟨⟨hfresh, hnodup⟩, hts⟩
        obtain ⟨y, us, rfl⟩ : ∃ y us, ts = y :: us := List.exists_cons_of_ne_nil (by rintro rfl; cases hts)
        obtain ⟨hxy, hus⟩ := List.cons.inj hts
        exact ⟨us, ⟨hnodup, hfresh, hus⟩, by rw [Option.some.inj hxy]⟩

/-! ## Positions that fit -/

/-- Whether positions are there when as many trees are combined, each of them once. -/
def Fits (root : Nat) (children : List Nat) : Prop :=
  (root :: children).Nodup ∧ ∀ p ∈ root :: children, 0 < p ∧ p ≤ children.length + 1

instance : Decidable (Fits root children) := inferInstanceAs (Decidable (_ ∧ _))

lemma fits_iff_perm :
    Fits root children ↔ (root :: children).Perm (List.range' 1 (children.length + 1)) := by
  constructor
  · rintro ⟨hnodup, hrange⟩
    have hsubset : root :: children ⊆ List.range' 1 (children.length + 1) := by
      intro p hp
      obtain ⟨hpos, hle⟩ := hrange p hp
      exact List.mem_range'_1.2 ⟨hpos, by omega⟩
    exact (List.subperm_of_subset hnodup hsubset).perm_of_length_le (by simp)
  · intro hperm
    refine ⟨hperm.nodup_iff.2 List.nodup_range', fun p hp => ?_⟩
    obtain ⟨hpos, hlt⟩ := List.mem_range'_1.1 (hperm.mem_iff.1 hp)
    exact ⟨hpos, by omega⟩

/-- The entries that are off the stack when a combination looks for them. -/
def topEntries (a : Assembly) (count : Nat) : Array (Option (Tree Token)) :=
  ((a.stack.take count).map some).toArray

/-- Of the entries off the stack, each is at the position that it had there. -/
lemma there?_topEntries {count p : Nat} (h : p ≤ count) :
    there? (topEntries a count) p = a.entry? p := by
  cases p with
  | zero => rfl
  | succ i =>
    rw [there?_succ, topEntries, List.getElem?_toArray, List.getElem?_map, List.getElem?_take,
      if_pos (Nat.lt_of_succ_le h), entry?]
    cases a.stack[i]? <;> rfl

lemma there?_topEntries_eq_none {count p : Nat} (h : count < p) :
    there? (topEntries a count) p = none := by
  cases p with
  | zero => rfl
  | succ i =>
    rw [there?_succ, topEntries, List.getElem?_toArray, List.getElem?_map, List.getElem?_take,
      if_neg (by omega)]
    rfl

/-- As many entries as there are positions can be taken at these exactly if the positions fit. -/
lemma takeEntries_topEntries_eq_ok_iff {ts : List (Tree Token)} :
    takeEntries (topEntries a (children.length + 1)) (root :: children) = .ok ts ↔
      Fits root children ∧ (root :: children).map a.entry? = ts.map some := by
  rw [takeEntries_eq_ok_iff]
  constructor
  · rintro ⟨hnodup, hts⟩
    have hthere : ∀ p ∈ root :: children,
        there? (topEntries a (children.length + 1)) p ≠ none := by
      intro p hp hnone
      have hmem : none ∈ ts.map some := hts ▸ List.mem_map.2 ⟨p, hp, hnone⟩
      simp at hmem
    have hrange : ∀ p ∈ root :: children, 0 < p ∧ p ≤ children.length + 1 := by
      intro p hp
      refine ⟨Nat.pos_of_ne_zero ?_, Nat.not_lt.1 fun hlt => hthere p hp (there?_topEntries_eq_none hlt)⟩
      rintro rfl
      exact hthere 0 hp rfl
    refine ⟨⟨hnodup, hrange⟩, ?_⟩
    rw [← hts]
    exact List.map_congr_left fun p hp => (there?_topEntries (hrange p hp).2).symm
  · rintro ⟨⟨hnodup, hrange⟩, hts⟩
    refine ⟨hnodup, ?_⟩
    rw [← hts]
    exact List.map_congr_left fun p hp => there?_topEntries (hrange p hp).2

/-- At positions that fit stand the trees on top of the stack, in another order. -/
lemma Fits.exists_trees (h : Fits root children) (hle : children.length + 1 ≤ a.stack.length) :
    ∃ t ts, a.entry? root = some t ∧ children.map a.entry? = ts.map some ∧
      (t :: ts).Perm (a.stack.take (children.length + 1)) := by
  have hperm : ((root :: children).map a.entry?).Perm
      ((a.stack.take (children.length + 1)).map some) := by
    rw [← map_entry?_range' hle]
    exact (fits_iff_perm.1 h).map a.entry?
  obtain ⟨us, hus, htrees⟩ := (congrFun₂ (List.eq_map_comp_perm some) _ _).mpr hperm
  cases us with
  | nil => cases hus
  | cons t ts =>
    obtain ⟨hroot, hchildren⟩ := List.cons.inj hus
    exact ⟨t, ts, hroot, hchildren, htrees⟩

/-! ## The three ways in which a combination ends -/

/-- More entries than there are are not even looked for. -/
theorem combine_of_lt (h : a.stack.length < children.length + 1) :
    combine root children a =
      .error (.grammar (.tooFewTrees (children.length + 1) a.stack.length) a.line a.stack.reverse) a := by
  have htop : (a.stack.take (children.length + 1)).length < children.length + 1 := by
    rw [List.length_take]
    omega
  simp only [combine, bind_apply, get_apply, if_pos htop]
  rfl

/-- The assembly once the entries are off the stack. -/
def dropped (a : Assembly) (count : Nat) : Assembly := { a with stack := a.stack.drop count }

lemma combine_of_le (hle : children.length + 1 ≤ a.stack.length) :
    combine root children a =
      match takeEntry? (topEntries a (children.length + 1)) root with
      | none => fail (.noRootAt root) (dropped a (children.length + 1))
      | some (t, entries) =>
        match takeEntries entries children with
        | .error position => fail (.noChildAt position) (dropped a (children.length + 1))
        | .ok ts => push (t.addChildren ts) (dropped a (children.length + 1)) := by
  have htop : ¬ (a.stack.take (children.length + 1)).length < children.length + 1 := by
    rw [List.length_take]
    omega
  simp only [combine, bind_apply, get_apply, if_neg htop, set_apply, topEntries, dropped]
  cases takeEntry? ((a.stack.take (children.length + 1)).map some).toArray root with
  | none => rfl
  | some taken =>
    simp only
    cases takeEntries taken.2 children <;> rfl

/-- Positions that fit are those of a rearrangement. -/
theorem combine_of_fits {t : Tree Token} {ts : List (Tree Token)} (hfits : Fits root children)
    (hle : children.length + 1 ≤ a.stack.length)
    (hroot : a.entry? root = some t) (hchildren : children.map a.entry? = ts.map some) :
    combine root children a =
      .ok () { a with stack := t.addChildren ts :: a.stack.drop (children.length + 1) } := by
  have hmap : (root :: children).map a.entry? = (t :: ts).map some := by
    rw [List.map_cons, List.map_cons, hroot, hchildren]
  have htaken := takeEntries_topEntries_eq_ok_iff.2 ⟨hfits, hmap⟩
  rw [combine_of_le hle]
  cases hx : takeEntry? (topEntries a (children.length + 1)) root with
  | none => simp [takeEntries, hx] at htaken
  | some taken =>
    obtain ⟨x, rest⟩ := taken
    obtain ⟨us, hus, heq⟩ := (takeEntries_cons_eq_ok_iff hx).1 htaken
    obtain ⟨rfl, rfl⟩ := List.cons.inj heq
    simp only [hus]
    rfl

/-- Without positions that fit, the entries are off the stack. -/
theorem combine_of_not_fits (hfits : ¬ Fits root children)
    (hle : children.length + 1 ≤ a.stack.length) :
    ∃ fault, combine root children a = fail fault (dropped a (children.length + 1)) := by
  rw [combine_of_le hle]
  cases hx : takeEntry? (topEntries a (children.length + 1)) root with
  | none => exact ⟨_, rfl⟩
  | some taken =>
    obtain ⟨x, rest⟩ := taken
    cases hts : takeEntries rest children with
    | error p => exact ⟨.noChildAt p, by simp only [hts]⟩
    | ok ts =>
      have htaken := (takeEntries_cons_eq_ok_iff hx).2 ⟨ts, hts, rfl⟩
      exact absurd (takeEntries_topEntries_eq_ok_iff.1 htaken).1 hfits

lemma exists_combine_eq_ok_iff :
    (∃ b, combine root children a = .ok () b) ↔
      children.length + 1 ≤ a.stack.length ∧ Fits root children := by
  constructor
  · rintro ⟨b, hb⟩
    have hle : children.length + 1 ≤ a.stack.length := by
      by_contra hlt
      rw [combine_of_lt (Nat.not_le.1 hlt)] at hb
      cases hb
    refine ⟨hle, ?_⟩
    by_contra hfits
    obtain ⟨fault, hfail⟩ := combine_of_not_fits hfits hle
    rw [hfail] at hb
    cases hb
  · rintro ⟨hle, hfits⟩
    obtain ⟨t, ts, hroot, hchildren, -⟩ := hfits.exists_trees hle
    exact ⟨_, combine_of_fits hfits hle hroot hchildren⟩

/-! ## Combinations under a new root -/

/-- The newest trees go under the new root, oldest first. -/
lemma combineUnder_of_le {count : Nat} (word : String) (h : count ≤ a.stack.length) :
    combineUnder word count a = .ok () { a with
      stack := .node (.keyword word) (a.stack.take count).reverse :: a.stack.drop count } := by
  have hstack : a.stack = (a.stack.take count).reverse.reverse ++ a.stack.drop count := by
    rw [List.reverse_reverse, List.take_append_drop]
  have hlength : (a.stack.take count).reverse.length = count := by
    rw [List.length_reverse, List.length_take, Nat.min_eq_left h]
  rw [← combineUnder_apply word hstack, hlength]

/-- If there are fewer, the new root has been pushed all the same. -/
lemma combineUnder_of_lt {count : Nat} (word : String) (h : a.stack.length < count) :
    combineUnder word count a =
      fail (.tooFewTrees (count + 1) (a.stack.length + 1))
        { a with stack := .leaf (.keyword word) :: a.stack } := by
  have hlength : ((List.range count).map (· + 2)).reverse.length = count := by simp
  have hlt : (Tree.leaf (Token.keyword word) :: a.stack).length <
      ((List.range count).map (· + 2)).reverse.length + 1 := by
    rw [hlength, List.length_cons]
    omega
  rw [combineUnder, bind_apply, push, modify_apply]
  refine (combine_of_lt hlt).trans ?_
  rw [hlength, List.length_cons]
  rfl

/-! ## What combinations make of a stack -/

/-- A combination succeeds exactly if there are enough entries and its positions are all those of the
top ones in some order.  The trees at the positions then make up one tree on those below: the root's,
with the others behind the children that it had.  None is lost and none comes twice.

A combination under a new root succeeds exactly if there are enough entries, and takes them oldest
first. -/
theorem combine_rearranges (a : Assembly) :
    (∀ (root : Nat) (children : List Nat),
      ((∃ b, combine root children a = .ok () b) ↔
        children.length + 1 ≤ a.stack.length ∧
          (root :: children).Perm (List.range' 1 (children.length + 1))) ∧
      ∀ b, combine root children a = .ok () b → ∃ t ts,
        a.entry? root = some t ∧ children.map a.entry? = ts.map some ∧
        (t :: ts).Perm (a.stack.take (children.length + 1)) ∧
        b = { a with
          stack := .node t.value (t.children ++ ts) :: a.stack.drop (children.length + 1) }) ∧
    ∀ (word : String) (count : Nat),
      ((∃ b, combineUnder word count a = .ok () b) ↔ count ≤ a.stack.length) ∧
      ∀ b, combineUnder word count a = .ok () b → b = { a with
        stack := .node (.keyword word) (a.stack.take count).reverse :: a.stack.drop count } := by
  constructor
  · intro root children
    refine ⟨by rw [exists_combine_eq_ok_iff, fits_iff_perm], fun b hb => ?_⟩
    obtain ⟨hle, hfits⟩ := exists_combine_eq_ok_iff.1 ⟨b, hb⟩
    obtain ⟨t, ts, hroot, hchildren, hperm⟩ := hfits.exists_trees hle
    rw [combine_of_fits hfits hle hroot hchildren] at hb
    cases hb
    exact ⟨t, ts, hroot, hchildren, hperm, rfl⟩
  · intro word count
    by_cases hle : count ≤ a.stack.length
    · rw [combineUnder_of_le word hle]
      refine ⟨iff_of_true ⟨_, rfl⟩ hle, fun b hb => ?_⟩
      cases hb
      rfl
    · rw [combineUnder_of_lt word (Nat.not_le.1 hle)]
      exact ⟨iff_of_false nofun hle, nofun⟩

/-- A tree that has a child already goes over the two below it. -/
theorem combine_rearranges_three :
    let a : Assembly := ⟨.ofString [] "",
      [.node ⟨.symbol, "+"⟩ [.leaf ⟨.name, "c"⟩], .leaf ⟨.name, "b"⟩, .leaf ⟨.name, "a"⟩]⟩
    3 ≤ a.stack.length ∧ [1, 3, 2].Perm (List.range' 1 3) ∧
      ∃ b t ts, combine 1 [3, 2] a = .ok () b ∧
        a.entry? 1 = some t ∧ [3, 2].map a.entry? = ts.map some ∧
        b.stack = [.node t.value (t.children ++ ts)] := by
  intro a
  have hheight : 3 ≤ a.stack.length := by decide
  have hperm : [1, 3, 2].Perm (List.range' 1 3) := by decide
  obtain ⟨hiff, hresult⟩ := (combine_rearranges a).1 1 [3, 2]
  obtain ⟨b, hb⟩ := hiff.2 ⟨hheight, hperm⟩
  obtain ⟨t, ts, hroot, hchildren, -, hb'⟩ := hresult b hb
  exact ⟨hheight, hperm, b, t, ts, hb, hroot, hchildren, congrArg Assembly.stack hb'⟩

/-- A combination that fails leaves the stack alone exactly if the stack is too low; else the entries
are off the stack.  One under a new root leaves the root there.  In all cases the error shows the
stack as it is then. -/
theorem stack_eq_of_combine_error_iff (a : Assembly) :
    (∀ (root : Nat) (children : List Nat) (e : ParseError) (b : Assembly),
      combine root children a = .error e b →
        (b.stack = a.stack ↔ a.stack.length < children.length + 1) ∧
        (children.length + 1 ≤ a.stack.length → b.stack = a.stack.drop (children.length + 1)) ∧
        ∃ fault, e = .grammar fault a.line b.stack.reverse) ∧
    ∀ (word : String) (count : Nat) (e : ParseError) (b : Assembly),
      combineUnder word count a = .error e b →
        b.stack = .leaf (.keyword word) :: a.stack ∧ b.stack ≠ a.stack ∧
        ∃ fault, e = .grammar fault a.line b.stack.reverse := by
  constructor
  · intro root children e b hb
    by_cases hlt : a.stack.length < children.length + 1
    · rw [combine_of_lt hlt] at hb
      cases hb
      exact ⟨iff_of_true rfl hlt, fun hle => absurd hlt (Nat.not_lt.2 hle), _, rfl⟩
    · have hle : children.length + 1 ≤ a.stack.length := Nat.not_lt.1 hlt
      have hfits : ¬ Fits root children := by
        intro hfits
        obtain ⟨b', hb'⟩ := exists_combine_eq_ok_iff.2 ⟨hle, hfits⟩
        rw [hb'] at hb
        cases hb
      obtain ⟨fault, hfail⟩ := combine_of_not_fits hfits hle
      rw [hfail] at hb
      cases hb
      have hlower : (a.stack.drop (children.length + 1)).length < a.stack.length := by
        rw [List.length_drop]
        omega
      have hne : a.stack.drop (children.length + 1) ≠ a.stack := by
        intro heq
        rw [heq] at hlower
        exact Nat.lt_irrefl _ hlower
      exact ⟨iff_of_false hne hlt, fun _ => rfl, fault, rfl⟩
  · intro word count e b hb
    have hlt : a.stack.length < count := by
      by_contra hle
      rw [combineUnder_of_le word (Nat.not_lt.1 hle)] at hb
      cases hb
    rw [combineUnder_of_lt word hlt] at hb
    cases hb
    exact ⟨rfl, List.cons_ne_self _ _, _, rfl⟩

/-- The tree on top of two is to be its own child. -/
theorem combine_drops_entries :
    let a : Assembly := ⟨.ofString [] "", [.leaf ⟨.name, "b"⟩, .leaf ⟨.name, "a"⟩]⟩
    ∃ e b, combine 1 [1] a = .error e b ∧ a.stack.length = 2 ∧ b.stack = [] :=
  ⟨_, _, rfl, rfl, rfl⟩

/-- The same combination: the stack is high enough, so the entries are gone. -/
theorem stack_eq_of_combine_error_iff_twice :
    let a : Assembly := ⟨.ofString [] "", [.leaf ⟨.name, "b"⟩, .leaf ⟨.name, "a"⟩]⟩
    ∃ e b, combine 1 [1] a = .error e b ∧ (b.stack = a.stack ↔ a.stack.length < 2) ∧
      b.stack = a.stack.drop 2 ∧ ∃ fault, e = .grammar fault a.line b.stack.reverse := by
  intro a
  obtain ⟨e, b, hb⟩ : ∃ e b, combine 1 [1] a = .error e b := ⟨_, _, rfl⟩
  obtain ⟨hiff, hdrop, herror⟩ := (stack_eq_of_combine_error_iff a).1 1 [1] e b hb
  exact ⟨e, b, hb, hiff, hdrop (by decide), herror⟩

end Step

end Logo
