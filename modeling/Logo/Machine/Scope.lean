/-!
# Scopes

The variables of a running script live in frames: one global frame for the whole run and one frame
for each active procedure call.  A name is looked up in the innermost frame and then in the global
one; the frames of callers in between are neither read nor written.
-/

namespace Logo

/-! ## Tables -/

/-- A finite map from names. -/
structure Table (α : Type) where
  /-- The entries, each name at most once if the table was built by insertion. -/
  entries : List (String × α)

namespace Table

variable {α : Type}

/-- The table without entries. -/
def empty : Table α := ⟨[]⟩

/-- The value of a name. -/
def find? (t : Table α) (name : String) : Option α := t.entries.lookup name

/-- Whether a name has a value. -/
def contains (t : Table α) (name : String) : Bool := (t.find? name).isSome

/-- The table in which a name has a value, instead of the one it may have had. -/
def insert (t : Table α) (name : String) (value : α) : Table α :=
  ⟨(name, value) :: t.entries.filter fun entry => entry.1 != name⟩

@[simp] theorem find?_empty (name : String) : (empty : Table α).find? name = none := rfl

@[simp] theorem find?_insert_self (t : Table α) (name : String) (value : α) :
    (t.insert name value).find? name = some value := by
  simp [find?, insert]

theorem lookup_filter_ne {entries : List (String × α)} {name other : String} (h : other ≠ name) :
    (entries.filter fun entry => entry.1 != name).lookup other = entries.lookup other := by
  induction entries with
  | nil => rfl
  | cons entry entries ih =>
    obtain ⟨key, value⟩ := entry
    by_cases same : key = name
    · subst same
      simp [List.lookup_cons, ih, beq_eq_false_iff_ne.2 h]
    · simp [List.lookup_cons, same, ih]

theorem find?_insert_of_ne (t : Table α) {name other : String} (value : α) (h : other ≠ name) :
    (t.insert name value).find? other = t.find? other := by
  simp [find?, insert, List.lookup_cons, beq_eq_false_iff_ne.2 h, lookup_filter_ne h]

end Table

/-! ## Frames -/

/-- The values of the variables that one frame defines. -/
abbrev Frame : Type := Table Float

/-- The frames of a run. -/
structure Scope where
  /-- The global frame. -/
  globals : Frame
  /-- The frames of the active calls, innermost first. -/
  locals : List Frame

namespace Scope

/-- The scope of a run that has done nothing yet. -/
def empty : Scope := ⟨.empty, []⟩

/-- The number of frames. -/
def depth (s : Scope) : Nat := s.locals.length + 1

/-- The innermost frame. -/
def current (s : Scope) : Frame := s.locals.head?.getD s.globals

/-- The scope with another innermost frame. -/
def withCurrent (s : Scope) (frame : Frame) : Scope :=
  match s.locals with
  | [] => { s with globals := frame }
  | _ :: callers => { s with locals := frame :: callers }

/-- The value of a global variable. -/
def global? (s : Scope) (name : String) : Option Float := s.globals.find? name

/-- The value of a variable: that of the innermost frame, else that of the global one. -/
def valueOf? (s : Scope) (name : String) : Option Float :=
  (s.current.find? name).or (s.global? name)

/-- Gives a variable a value: in the innermost frame if that defines it, else in the global frame if
that defines it, else as a new variable of the innermost frame. -/
def store (s : Scope) (name : String) (value : Float) : Scope :=
  if s.current.contains name then s.withCurrent (s.current.insert name value)
  else if s.globals.contains name then { s with globals := s.globals.insert name value }
  else s.withCurrent (s.current.insert name value)

/-- Enters a call with its frame. -/
def push (s : Scope) (frame : Frame) : Scope := { s with locals := frame :: s.locals }

/-- Leaves the innermost calls. -/
def pop (s : Scope) (calls : Nat) : Scope := { s with locals := s.locals.drop calls }

end Scope

end Logo
