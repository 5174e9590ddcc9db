import Logo.Proofs.Token.Layout

/-!
# A stream is a cursor over a fixed list

A `TokenStream` works its way through a text, and only as far as it is asked to.  For whoever calls
it, it is a much simpler thing: a list of tokens with their lines that is fixed from the start, the
number of tokens handed out, and whether the last of them was taken back (`Cursor`).

* `TokenStream.readAll_eq`: reading all that is left, one token at a time, never fails.
* `Tracks`: what a stream and a cursor have in common; `Tracks.call`: every call keeps it and has the
  same answer on both, whether it fails or not.
* `exists_cursor`: over any sequence of calls a stream answers like the cursor over the tokens of its
  text, whose lines are those of the text.
-/

namespace Logo

/-! ## Calls -/

/-- What can be asked of a stream. -/
inductive StreamCall where
  /-- Hand out the next token. -/
  | next
  /-- Take the last token back. -/
  | pushBack
  /-- Tell whether there is a next token. -/
  | hasNext
  /-- Tell the line of the last token. -/
  | line
  /-- Hand out all tokens that are left. -/
  | drain
  deriving DecidableEq

/-- The answer to a call. -/
inductive StreamAnswer where
  /-- A token. -/
  | token (t : Token)
  /-- Tokens in a row. -/
  | tokens (ts : List Token)
  /-- Yes or no. -/
  | flag (b : Bool)
  /-- A line. -/
  | line (n : Nat)
  /-- The call was carried out. -/
  | done
  /-- The call failed. -/
  | failed (e : StreamError)
  deriving DecidableEq

/-- The answers to calls in a row, each made on what the one before it left. -/
def answers {σ : Type} (call : σ → StreamCall → StreamAnswer × σ) : σ → List StreamCall →
    List StreamAnswer
  | _, [] => []
  | s, x :: xs => (call s x).1 :: answers call (call s x).2 xs

namespace TokenStream

lemma next_eq_ok_iff {s s' : TokenStream} {t : Token} :
    s.next = .ok (t, s') ↔ s.next? = some (t, s') := by
  unfold next
  split <;> simp [*]

/-- Reads all tokens that are left, one at a time; a failure on the way is the result. -/
def readAll (s : TokenStream) : Except StreamError (List Token × TokenStream) :=
  if s.hasNext then
    match h : s.next with
    | .ok (t, s') =>
      have := pending_lt_of_next? (next_eq_ok_iff.1 h)
      match s'.readAll with
      | .ok (ts, last) => .ok (t :: ts, last)
      | .error e => .error e
    | .error e => .error e
  else .ok ([], s)
termination_by s.pending

/-- Nothing on the way fails, for a token is asked for only if there is one. -/
theorem readAll_eq (s : TokenStream) : s.readAll = .ok (s.remaining, s.drain.2) := by
  induction hn : s.pending using Nat.strongRecOn generalizing s with
  | _ n ih =>
    cases hnext : s.next? with
    | none =>
      have hno : ¬ s.hasNext = true := by simp [hasNext, hnext]
      rw [readAll, if_neg hno, remaining, drain_of_next?_eq_none hnext, List.map_nil]
    | some step =>
      obtain ⟨t, s'⟩ := step
      have hyes : s.hasNext = true := by simp [hasNext, hnext]
      have hok : s.next = .ok (t, s') := next_eq_ok_iff.2 hnext
      have hrest := ih s'.pending (hn ▸ pending_lt_of_next? hnext) s' rfl
      rw [readAll, if_pos hyes, remaining, drain_of_next? hnext, List.map_cons]
      split
      · rename_i heq
        rw [hok] at heq
        cases heq
        rw [hrest, remaining]
      · rename_i heq
        rw [hok] at heq
        cases heq

/-- Carries out a call; one that fails leaves the stream as it was. -/
def call (s : TokenStream) : StreamCall → StreamAnswer × TokenStream
  | .next =>
    match s.next with
    | .ok (t, s') => (.token t, s')
    | .error e => (.failed e, s)
  | .pushBack =>
    match s.pushBack with
    | .ok s' => (.done, s')
    | .error e => (.failed e, s)
  | .hasNext => (.flag s.hasNext, s)
  | .line => (.line s.recentLine, s)
  | .drain =>
    match s.readAll with
    | .ok (ts, s') => (.tokens ts, s')
    | .error e => (.failed e, s)

end TokenStream

/-! ## Cursors -/

/-- A place in a list of tokens with their lines. -/
@[ext] structure Cursor (table : List (Token × Nat)) where
  /-- The number of tokens handed out. -/
  index : Nat
  /-- Whether the last of them was taken back. -/
  returned : Bool
  /-- No more tokens are handed out than there are. -/
  index_le : index ≤ table.length
  /-- Only a token that was handed out is taken back. -/
  pos_of_returned : returned = true → 0 < index

namespace Cursor

variable {table : List (Token × Nat)}

/-- The cursor in front of the first token. -/
def start (table : List (Token × Nat)) : Cursor table := ⟨0, false, Nat.zero_le _, nofun⟩

/-- Whether there is a next token. -/
def hasNext (c : Cursor table) : Bool := c.returned || c.index < table.length

/-- The place of the next token in the list. -/
def position (c : Cursor table) : Nat := if c.returned then c.index - 1 else c.index

lemma hasNext_iff {c : Cursor table} : c.hasNext = true ↔ c.position < table.length := by
  have hle := c.index_le
  cases hreturned : c.returned with
  | true =>
    have hpos := c.pos_of_returned hreturned
    simp only [hasNext, position, hreturned, Bool.true_or, if_true, true_iff]
    omega
  | false => simp [hasNext, position, hreturned]

/-- The cursor behind the next token. -/
def advance (c : Cursor table) (h : c.hasNext = true) : Cursor table :=
  ⟨c.position + 1, false, hasNext_iff.1 h, nofun⟩

/-- The next token and the cursor behind it, or the error that there is none, on the line behind all
line ends. -/
def next (c : Cursor table) : Except StreamError (Token × Cursor table) :=
  if h : c.hasNext then .ok ((table.get ⟨c.position, hasNext_iff.1 h⟩).1, c.advance h)
  else .error (.exhausted (1 + table.countP fun x => x.1.kind = .eol))

/-- Takes the last token back, unless there is none or it was taken back already. -/
def pushBack (c : Cursor table) : Except StreamError (Cursor table) :=
  if h : c.index = 0 then .error .nothingToReturn
  else if c.returned then .error .alreadyReturned
  else .ok ⟨c.index, true, c.index_le, fun _ => Nat.pos_of_ne_zero h⟩

/-- The last token handed out, with its line. -/
def last? (c : Cursor table) : Option (Token × Nat) :=
  if c.index = 0 then none else table[c.index - 1]?

/-- The line of the last token handed out, and 1 before there is one. -/
def line (c : Cursor table) : Nat := c.last?.elim 1 Prod.snd

/-- The cursor behind all tokens. -/
def atEnd (table : List (Token × Nat)) : Cursor table := ⟨table.length, false, Nat.le_refl _, nofun⟩

/-- Carries out a call; one that fails leaves the cursor as it was.  Handing out all tokens that are
left does not fail. -/
def call (c : Cursor table) : StreamCall → StreamAnswer × Cursor table
  | .next =>
    match c.next with
    | .ok (t, c') => (.token t, c')
    | .error e => (.failed e, c)
  | .pushBack =>
    match c.pushBack with
    | .ok c' => (.done, c')
    | .error e => (.failed e, c)
  | .hasNext => (.flag c.hasNext, c)
  | .line => (.line c.line, c)
  | .drain => (.tokens ((table.drop c.position).map Prod.fst), atEnd table)

lemma eq_atEnd {c : Cursor table} (h : ¬ c.hasNext = true) : c = atEnd table := by
  have hle := c.index_le
  obtain ⟨hreturned, hindex⟩ : c.returned = false ∧ ¬ c.index < table.length := by
    simpa [hasNext] using h
  exact Cursor.ext (Nat.le_antisymm hle (Nat.not_lt.1 hindex)) hreturned

/-- What a stream at this place remembers of its most recent token. -/
def recent (c : Cursor table) : Recent :=
  match c.last? with
  | none => .nothing
  | some (t, _) => if c.returned then .returned t else .taken t

lemma last?_of_pos (c : Cursor table) (h : 0 < c.index) :
    c.last? = some (table.get ⟨c.index - 1, by have := c.index_le; omega⟩) := by
  rw [last?, if_neg (Nat.ne_of_gt h), List.get_eq_getElem, List.getElem?_eq_getElem]

lemma last?_advance (c : Cursor table) (h : c.hasNext = true) :
    (c.advance h).last? = some (table.get ⟨c.position, hasNext_iff.1 h⟩) := by
  simp [last?, advance]

end Cursor

/-! ## A stream and its cursor -/

variable {table : List (Token × Nat)}

/-- The stream is at the place of the cursor: it has the same tokens ahead of it, the same most recent
token, and counts the line ends that it has passed. -/
structure Tracks (s : TokenStream) (c : Cursor table) : Prop where
  ahead : s.ahead = table.drop c.position
  recent : s.recent = c.recent
  recentLine : s.recentLine = c.line
  line : s.line = 1 + (table.take c.index).countP fun x => x.1.kind = .eol

namespace Tracks

variable {s : TokenStream} {c : Cursor table}

lemma start (keywords : List String) (source : String) :
    Tracks (.ofString keywords source) (Cursor.start (tokenize keywords source)) :=
  ⟨rfl, rfl, rfl, rfl⟩

lemma hasNext (h : Tracks s c) : s.hasNext = c.hasNext := by
  have hnone := TokenStream.hasNext_eq_false_iff (s := s)
  rw [h.ahead, List.drop_eq_nil_iff, ← Nat.not_lt, ← Cursor.hasNext_iff] at hnone
  cases hc : c.hasNext <;> simpa [hc] using hnone

/-- A token that was not taken back has been cut off the text. -/
lemma plain (h : Tracks s c) (hreturned : c.returned = false) : s.Plain := by
  intro t ht
  rw [h.recent, Cursor.recent] at ht
  split at ht <;> simp [hreturned] at ht

/-- The line ends that have been passed when the next token has been handed out. -/
lemma line_of_next? (h : Tracks s c) (hnext : c.hasNext = true) {s' : TokenStream} {t : Token}
    (hs' : s.next? = some (t, s')) (ht : t = (table.get ⟨c.position, Cursor.hasNext_iff.1 hnext⟩).1) :
    s'.line = 1 + (table.take (c.position + 1)).countP fun x => x.1.kind = .eol := by
  have hlt := Cursor.hasNext_iff.1 hnext
  cases hreturned : c.returned with
  | true =>
    have hpos := c.pos_of_returned hreturned
    have hindex : c.position + 1 = c.index := by
      simp only [Cursor.position, hreturned, if_true]
      omega
    have hrecent : ∃ u, s.recent = .returned u := by
      rw [h.recent, Cursor.recent, c.last?_of_pos hpos]
      simp [hreturned]
    obtain ⟨u, hu⟩ := hrecent
    have hline : s'.line = s.line := by
      simp only [TokenStream.next?, hu, Option.some.injEq, Prod.mk.injEq] at hs'
      rw [← hs'.2]
    rw [hline, hindex, h.line]
  | false =>
    have hposition : c.position = c.index := by simp [Cursor.position, hreturned]
    rw [TokenStream.next?_of_plain (h.plain hreturned)] at hs'
    obtain ⟨step, -, hstep⟩ := Option.map_eq_some_iff.1 hs'
    have hline : s'.line = if t.kind = .eol then s.line + 1 else s.line := by
      rw [← (Prod.mk.inj hstep).1, ← (Prod.mk.inj hstep).2]
    rw [hline, List.take_add_one, List.getElem?_eq_getElem hlt, List.countP_append, h.line,
      ← hposition, Option.toList_some, List.countP_singleton, ht, List.get_eq_getElem]
    simp only [decide_eq_true_eq]
    split <;> rfl

/-- If there is a next token, the stream hands out the one at the place of the cursor. -/
lemma next_of_hasNext (h : Tracks s c) (hnext : c.hasNext = true) :
    ∃ s', s.next = .ok ((table.get ⟨c.position, Cursor.hasNext_iff.1 hnext⟩).1, s') ∧
      Tracks s' (c.advance hnext) := by
  have hlt := Cursor.hasNext_iff.1 hnext
  have hahead : s.ahead = table.get ⟨c.position, hlt⟩ :: table.drop (c.position + 1) := by
    rw [h.ahead, List.drop_eq_getElem_cons hlt]
    rfl
  obtain ⟨s', hs', hrest, hline⟩ := TokenStream.exists_next? hahead
  refine ⟨s', TokenStream.next_eq_ok_iff.2 hs', hrest, ?_, ?_, h.line_of_next? hnext hs' rfl⟩
  · rw [TokenStream.recent_of_next? hs', Cursor.recent, c.last?_advance hnext]
    rfl
  · rw [hline, Cursor.line, c.last?_advance hnext]
    rfl

/-- If there is none, the stream tells the line behind all line ends. -/
lemma next_of_not_hasNext (h : Tracks s c) (hnext : ¬ c.hasNext = true) :
    s.next = .error (.exhausted (1 + table.countP fun x => x.1.kind = .eol)) := by
  have hnone : s.next? = none := by
    rw [TokenStream.next?_eq_none_iff, ← TokenStream.hasNext_eq_false_iff, h.hasNext]
    exact Bool.eq_false_iff.2 hnext
  have hline := h.line
  rw [Cursor.eq_atEnd hnext, Cursor.atEnd, List.take_length] at hline
  simp [TokenStream.next, hnone, hline]

/-- Taking a token back puts it in front of the tokens to come. -/
lemma pushBack (h : Tracks s c) :
    (∃ s' c', s.pushBack = .ok s' ∧ c.pushBack = .ok c' ∧ Tracks s' c') ∨
      ∃ e, s.pushBack = .error e ∧ c.pushBack = .error e := by
  have hrecent := h.recent
  unfold TokenStream.pushBack Cursor.pushBack
  by_cases hzero : c.index = 0
  · have hnothing : s.recent = .nothing := by simp [hrecent, Cursor.recent, Cursor.last?, hzero]
    exact .inr ⟨_, by rw [hnothing], dif_pos hzero⟩
  · have hlast := c.last?_of_pos (Nat.pos_of_ne_zero hzero)
    generalize hx : table.get ⟨c.index - 1, _⟩ = x at hlast
    rw [Cursor.recent, hlast] at hrecent
    rw [dif_neg hzero]
    cases hreturned : c.returned with
    | true =>
      rw [hreturned] at hrecent
      exact .inr ⟨_, by rw [hrecent]; rfl, rfl⟩
    | false =>
      rw [hreturned] at hrecent
      have htaken : s.recent = .taken x.1 := hrecent
      have hline : s.recentLine = x.2 := by
        rw [h.recentLine, Cursor.line, hlast]
        rfl
      refine .inl ⟨{ s with recent := .returned x.1 }, _, by rw [htaken], rfl, ?_, ?_, h.recentLine,
        h.line⟩
      · have hnext : ({ s with recent := .returned x.1 } : TokenStream).next? = some (x.1, s) := by
          simp only [TokenStream.next?, ← htaken]
        have hposition : c.position = c.index - 1 + 1 := by
          simp only [Cursor.position, hreturned]
          exact (Nat.sub_add_cancel (Nat.pos_of_ne_zero hzero)).symm
        rw [TokenStream.ahead_of_next? hnext, h.ahead, hline, hposition, ← hx]
        exact (List.drop_eq_getElem_cons _).symm
      · rw [Cursor.recent, show Cursor.last? ⟨c.index, true, _, _⟩ = c.last? from rfl, hlast]
        rfl

/-- Handing out all tokens that are left leads behind the last one. -/
lemma drain (h : Tracks s c) : Tracks s.drain.2 (Cursor.atEnd table) := by
  induction hn : s.pending using Nat.strongRecOn generalizing s c with
  | _ n ih =>
    by_cases hnext : c.hasNext = true
    · obtain ⟨s', hs', htracks⟩ := h.next_of_hasNext hnext
      have hs' := TokenStream.next_eq_ok_iff.1 hs'
      rw [TokenStream.drain_of_next? hs']
      exact ih s'.pending (hn ▸ TokenStream.pending_lt_of_next? hs') htracks rfl
    · have hnone : s.next? = none := by
        rw [TokenStream.next?_eq_none_iff, ← TokenStream.hasNext_eq_false_iff, h.hasNext]
        exact Bool.eq_false_iff.2 hnext
      rw [TokenStream.drain_of_next?_eq_none hnone, ← Cursor.eq_atEnd hnext]
      exact h

/-- Every call has the same answer on a stream and on its cursor, and leaves the one at the place of
the other. -/
theorem call (h : Tracks s c) (x : StreamCall) :
    (s.call x).1 = (c.call x).1 ∧ Tracks (s.call x).2 (c.call x).2 := by
  cases x with
  | next =>
    by_cases hnext : c.hasNext = true
    · obtain ⟨s', hs', htracks⟩ := h.next_of_hasNext hnext
      rw [TokenStream.call, hs', Cursor.call, Cursor.next, dif_pos hnext]
      exact ⟨rfl, htracks⟩
    · rw [TokenStream.call, h.next_of_not_hasNext hnext, Cursor.call, Cursor.next, dif_neg hnext]
      exact ⟨rfl, h⟩
  | pushBack =>
    rcases h.pushBack with ⟨s', c', hs', hc', htracks⟩ | ⟨e, hs, hc⟩
    · rw [TokenStream.call, hs', Cursor.call, hc']
      exact ⟨rfl, htracks⟩
    · rw [TokenStream.call, hs, Cursor.call, hc]
      exact ⟨rfl, h⟩
  | hasNext => exact ⟨congrArg StreamAnswer.flag h.hasNext, h⟩
  | line => exact ⟨congrArg StreamAnswer.line h.recentLine, h⟩
  | drain =>
    rw [TokenStream.call, TokenStream.readAll_eq, Cursor.call, TokenStream.remaining_eq_map_ahead,
      h.ahead]
    exact ⟨rfl, h.drain⟩

/-- So do calls in a row. -/
lemma answers_eq (h : Tracks s c) (xs : List StreamCall) :
    answers TokenStream.call s xs = answers Cursor.call c xs := by
  induction xs generalizing s c with
  | nil => rfl
  | cons x xs ih =>
    obtain ⟨hanswer, htracks⟩ := h.call x
    rw [answers, answers, hanswer, ih htracks]

end Tracks

/-- Whatever is asked of a stream, in any order and whether it fails or not, the stream answers like a
cursor over a list of tokens that are laid out in its text. -/
theorem exists_cursor (keywords : List String) (source : String) :
    ∃ table : List (Token × Nat), Laid [] source.toList table ∧
      ∀ xs : List StreamCall, answers TokenStream.call (.ofString keywords source) xs =
        answers Cursor.call (Cursor.start table) xs :=
  ⟨tokenize keywords source, laid_tokenize keywords source,
    (Tracks.start keywords source).answers_eq⟩

end Logo
