import Logo.Token.Stream
import Mathlib.Tactic.Common

/-!
# What a stream will hand out

A `TokenStream` holds text, a token that may have been taken back, and two line numbers.  A reader
of tokens sees none of that: for it a stream is the list of the tokens to come with their lines,
`TokenStream.ahead`.  The three operations a reader uses are restated on that list here, and
nothing later opens a stream.

* `next?_eq_none_iff` and `ahead_of_next?`: the next token is the head of the list, and its line is
  the one the stream then reports.
* `exists_pushBack`: taking the token back restores the list but not the reported line, which stays
  that of the token looked at.
* `length_ahead_le_pending`: the bound on which every limit of the grammar rests.
-/

namespace Logo

namespace TokenStream

/-- The tokens to come with their lines. -/
def ahead (s : TokenStream) : List (Token × Nat) := s.drain.1

theorem remaining_eq_map_ahead (s : TokenStream) : s.remaining = s.ahead.map Prod.fst := rfl

lemma drain_of_next? {s s' : TokenStream} {t : Token} (h : s.next? = some (t, s')) :
    s.drain = ((t, s'.recentLine) :: s'.drain.1, s'.drain.2) := by
  rw [drain]
  split
  · rename_i hnone
    rw [hnone] at h
    simp at h
  · rename_i hsome
    rw [hsome] at h
    cases h
    rfl

lemma drain_of_next?_eq_none {s : TokenStream} (h : s.next? = none) : s.drain = ([], s) := by
  rw [drain]
  split
  · rfl
  · rename_i hsome
    rw [hsome] at h
    simp at h

/-- The next token is the head of the tokens to come, and its line is reported from then on. -/
lemma ahead_of_next? {s s' : TokenStream} {t : Token} (h : s.next? = some (t, s')) :
    s.ahead = (t, s'.recentLine) :: s'.ahead := by
  rw [ahead, drain_of_next? h]
  rfl

lemma ahead_of_next?_eq_none {s : TokenStream} (h : s.next? = none) : s.ahead = [] := by
  rw [ahead, drain_of_next?_eq_none h]

theorem next?_eq_none_iff {s : TokenStream} : s.next? = none ↔ s.ahead = [] := by
  refine ⟨ahead_of_next?_eq_none, fun hnil => ?_⟩
  cases hnext : s.next? with
  | none => rfl
  | some step =>
    have hcons := ahead_of_next? (show s.next? = some (step.1, step.2) from hnext)
    rw [hnil] at hcons
    simp at hcons

/-- A stream hands out the head of the tokens to come. -/
lemma exists_next? {s : TokenStream} {t : Token} {l : Nat} {rest : List (Token × Nat)}
    (h : s.ahead = (t, l) :: rest) :
    ∃ s', s.next? = some (t, s') ∧ s'.ahead = rest ∧ s'.recentLine = l := by
  cases hnext : s.next? with
  | none =>
    rw [ahead_of_next?_eq_none hnext] at h
    simp at h
  | some step =>
    obtain ⟨t', s'⟩ := step
    have hcons := ahead_of_next? hnext
    rw [h, List.cons.injEq, Prod.mk.injEq] at hcons
    obtain ⟨⟨ht, hl⟩, hrest⟩ := hcons
    exact ⟨s', by rw [ht], hrest.symm, hl.symm⟩

/-- A stream that hands out a token has just taken it. -/
lemma recent_of_next? {s s' : TokenStream} {t : Token} (h : s.next? = some (t, s')) :
    s'.recent = .taken t := by
  unfold next? at h
  split at h
  · cases h
    rfl
  · split at h
    · simp at h
    · cases h
      rfl

/-- The token just handed out can be taken back: it comes next again, while the line reported stays
that of the token. -/
lemma exists_pushBack {s s' : TokenStream} {t : Token} (h : s.next? = some (t, s')) :
    ∃ s'', s'.pushBack = .ok s'' ∧ s''.ahead = s.ahead ∧ s''.recentLine = s'.recentLine := by
  have hrecent := recent_of_next? h
  refine ⟨{ s' with recent := .returned t }, by simp [pushBack, hrecent], ?_, rfl⟩
  have hnext : ({ s' with recent := .returned t } : TokenStream).next? = some (t, s') := by
    simp only [next?, ← hrecent]
  rw [ahead_of_next? hnext, ahead_of_next? h]

theorem hasNext_eq_false_iff {s : TokenStream} : s.hasNext = false ↔ s.ahead = [] := by
  rw [← next?_eq_none_iff, hasNext, Option.isSome_eq_false_iff, Option.isNone_iff_eq_none]

/-- There are at most as many tokens to come as the stream's own bound says. -/
theorem length_ahead_le_pending (s : TokenStream) : s.ahead.length ≤ s.pending := by
  induction hn : s.pending using Nat.strongRecOn generalizing s with
  | _ n ih =>
    cases hnext : s.next? with
    | none => simp [ahead_of_next?_eq_none hnext]
    | some step =>
      have hless := pending_lt_of_next? (show s.next? = some (step.1, step.2) from hnext)
      have hrest := ih step.2.pending (hn ▸ hless) step.2 rfl
      rw [ahead_of_next? (show s.next? = some (step.1, step.2) from hnext), List.length_cons]
      omega

end TokenStream

end Logo
