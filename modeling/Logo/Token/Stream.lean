import Logo.Token.Lexeme

/-!
# Token streams

A stream hands out the tokens of a text one at a time and can take the last one back.  It also knows
the line of the token it handed out last, which is where a reader places an error.
-/

namespace Logo

/-- What a stream did with its most recent token. -/
inductive Recent where
  /-- No token has been handed out. -/
  | nothing
  /-- The token was handed out. -/
  | taken (t : Token)
  /-- The token was handed out and taken back: it comes next again. -/
  | returned (t : Token)
  deriving DecidableEq

/-- The misuses of a token stream. -/
inductive StreamError where
  /-- A token was asked for behind the last one, which is on the given line. -/
  | exhausted (line : Nat)
  /-- There was no token to take back. -/
  | nothingToReturn
  /-- The last token had been taken back already. -/
  | alreadyReturned
  deriving DecidableEq

namespace StreamError

/-- The wording of an error. -/
def message : StreamError → String
  | .exhausted line => s!"Error on line {line}: No more tokens."
  | .nothingToReturn => "Cannot push back: no token has been read yet."
  | .alreadyReturned => "Cannot push back: the last token was already pushed back."

/-- The line an error refers to, if it refers to one. -/
def line? : StreamError → Option Nat
  | .exhausted line => some line
  | .nothingToReturn | .alreadyReturned => none

end StreamError

/-- A text that is being read token by token. -/
structure TokenStream where
  /-- The identifiers that are keywords. -/
  keywords : List String
  /-- The text behind the tokens read so far. -/
  rest : List Char
  /-- The line on which `rest` begins, counted from 1. -/
  line : Nat
  /-- The most recent token. -/
  recent : Recent
  /-- The line of the most recent token, and 1 before there is one. -/
  recentLine : Nat
  deriving DecidableEq

namespace TokenStream

/-- A stream over a text, before its first token. -/
def ofString (keywords : List String) (source : String) : TokenStream :=
  ⟨keywords, source.toList, 1, .nothing, 1⟩

/-- The next token and the stream behind it.  A line end belongs to the line that it ends. -/
def next? (s : TokenStream) : Option (Token × TokenStream) :=
  match s.recent with
  | .returned t => some (t, { s with recent := .taken t })
  | _ =>
    match Lexeme.split? s.keywords s.rest with
    | none => none
    | some (t, rest) =>
      let line := if t.kind = .eol then s.line + 1 else s.line
      some (t, { s with rest, line, recent := .taken t, recentLine := s.line })

/-- Whether there is a next token. -/
def hasNext (s : TokenStream) : Bool := s.next?.isSome

/-- The next token and the stream behind it, or the error that there is none. -/
def next (s : TokenStream) : Except StreamError (Token × TokenStream) :=
  match s.next? with
  | some step => .ok step
  | none => .error (.exhausted s.line)

/-- Takes the most recent token back, which works once for each token handed out. -/
def pushBack (s : TokenStream) : Except StreamError TokenStream :=
  match s.recent with
  | .nothing => .error .nothingToReturn
  | .returned _ => .error .alreadyReturned
  | .taken t => .ok { s with recent := .returned t }

/-- An upper bound on the number of tokens to come: each takes a character, but for one that was
taken back. -/
def pending (s : TokenStream) : Nat :=
  match s.recent with
  | .returned _ => s.rest.length + 1
  | _ => s.rest.length

/-- Handing out a token lowers the bound. -/
theorem pending_lt_of_next? {s s' : TokenStream} {t : Token} (h : s.next? = some (t, s')) :
    s'.pending < s.pending := by
  unfold next? at h
  split at h
  · rename_i eq
    cases h
    simp [pending, eq]
  · split at h
    · simp at h
    · rename_i read
      have shorter := Lexeme.length_lt_of_split? read
      cases h
      simp only [pending]
      exact shorter

/-- All tokens to come with their lines, and the stream behind the last one. -/
def drain (s : TokenStream) : List (Token × Nat) × TokenStream :=
  match h : s.next? with
  | none => ([], s)
  | some (t, s') =>
    have := pending_lt_of_next? h
    let (tokens, last) := s'.drain
    ((t, s'.recentLine) :: tokens, last)
termination_by s.pending

/-- All tokens to come. -/
def remaining (s : TokenStream) : List Token := s.drain.1.map Prod.fst

end TokenStream

/-- The tokens of a text with their lines. -/
def tokenize (keywords : List String) (source : String) : List (Token × Nat) :=
  (TokenStream.ofString keywords source).drain.1

end Logo
