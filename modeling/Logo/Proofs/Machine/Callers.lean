import Logo.Proofs.Machine.Frames

/-!
# The frames of callers are hidden

A name is looked up in the innermost frame and in the global one.  So two interpreters that differ in
the frames between these two alone do the same, whatever they execute: they are kept in step, action
by action and error by error.

What makes this hold through calls is that a frame which is innermost now lies in between during a
call, where both interpreters have the same one.  The relation of the proof is therefore about all
frames that were entered since the start (`Interpreter.Above`), and no step leaves more of them than
there are.
-/

namespace Logo

variable {A : Type}

/-! ## Interpreters that differ in frames of callers -/

namespace Interpreter

/-- The two interpreters differ at most in the frames between the global and the innermost one. -/
structure AgreesUpToCallers (i j : Interpreter A) : Prop where
  actuator : i.actuator = j.actuator
  control : i.control = j.control
  procedures : i.procedures = j.procedures
  depth : i.scope.depth = j.scope.depth
  globals : i.scope.globals = j.scope.globals
  current : i.scope.current = j.scope.current

/-- The two interpreters have the same frames, of which at least one is no global one, on top of
others.  In all that is no frame they agree. -/
inductive Above (hidden hidden' : List Frame) : Interpreter A → Interpreter A → Prop
  | intro (actuator : A) (control : RunControl) (globals frame : Frame) (frames : List Frame)
    (procedures : Table Procedure) :
    Above hidden hidden' ⟨actuator, control, ⟨globals, frame :: (frames ++ hidden)⟩, procedures⟩
      ⟨actuator, control, ⟨globals, frame :: (frames ++ hidden')⟩, procedures⟩

variable {hidden hidden' : List Frame} {i j : Interpreter A}

lemma Above.agreesUpToCallers (h : Above hidden hidden' i j)
    (hlength : hidden.length = hidden'.length) : i.AgreesUpToCallers j := by
  cases h
  exact ⟨rfl, rfl, rfl, by simp [Scope.depth, hlength], rfl, rfl⟩

/-- Outside all calls there is no frame in which the two could differ. -/
lemma AgreesUpToCallers.eq_or_above (h : i.AgreesUpToCallers j) :
    i = j ∨ ∃ hidden hidden', hidden.length = hidden'.length ∧
      i.scope.locals.length = hidden.length + 1 ∧ Above hidden hidden' i j := by
  obtain ⟨actuator, control, ⟨globals, locals⟩, procedures⟩ := i
  obtain ⟨actuator', control', ⟨globals', locals'⟩, procedures'⟩ := j
  obtain ⟨hactuator, hcontrol, hprocedures, hdepth, hglobals, hcurrent⟩ := h
  dsimp only at hactuator hcontrol hprocedures hglobals
  subst hactuator hcontrol hprocedures hglobals
  have hlength : locals.length = locals'.length := Nat.succ_inj.1 hdepth
  cases locals with
  | nil =>
    obtain rfl : locals' = [] := List.length_eq_zero_iff.1 hlength.symm
    exact .inl rfl
  | cons frame hidden =>
    obtain ⟨frame', hidden', rfl⟩ := List.exists_cons_of_length_eq_add_one hlength.symm
    obtain rfl : frame = frame' := hcurrent
    exact .inr ⟨hidden, hidden', Nat.succ_inj.1 hlength, rfl, .intro _ _ _ frame [] _⟩

/-- Calls may be left as long as one of the common frames remains. -/
lemma Above.pop (h : Above hidden hidden' i j) {calls : Nat}
    (hcalls : hidden.length + calls < i.scope.locals.length) :
    Above hidden hidden' { i with scope := i.scope.pop calls }
      { j with scope := j.scope.pop calls } := by
  obtain ⟨actuator, control, globals, frame, frames, procedures⟩ := h
  have hle : calls < (frame :: frames).length := by
    simp only [List.length_cons, List.length_append] at hcalls ⊢
    omega
  obtain ⟨frame', frames', hdrop⟩ :
      ∃ frame' frames', (frame :: frames).drop calls = frame' :: frames' :=
    List.exists_cons_of_length_pos (by rw [List.length_drop]; omega)
  have hpop (callers : List Frame) : (frame :: (frames ++ callers)).drop calls =
      frame' :: (frames' ++ callers) := by
    rw [← List.cons_append, List.drop_append_of_le_length (Nat.le_of_lt hle), hdrop,
      List.cons_append]
  simp only [Scope.pop, hpop]
  exact .intro actuator control globals frame' frames' procedures

/-- No script can tell which frames of callers there are. -/
lemma lookalikes_above [Actuator A] (hlength : hidden.length = hidden'.length) :
    Lookalikes (Above hidden hidden' : Interpreter A → Interpreter A → Prop) where
  surroundings := by rintro _ _ ⟨⟩; rfl
  find? := by rintro _ _ ⟨⟩ name; rfl
  depth h := (h.agreesUpToCallers hlength).depth
  register := by rintro _ _ ⟨⟩ name procedure; exact .intro ..
  store := by
    rintro _ _ ⟨actuator, control, globals, frame, frames, procedures⟩ name value
    obtain ⟨globals', frame', hstore, -⟩ := Scope.exists_store_eq globals frame name value
    rw [hstore, hstore]
    exact .intro ..
  push := by
    rintro _ _ ⟨actuator, control, globals, frame, frames, procedures⟩ frame'
    exact .intro actuator control globals frame' (frame :: frames) procedures
  perform := by rintro _ _ ⟨⟩ action; exact .intro ..

end Interpreter

/-! ## Runs side by side -/

namespace Machine

/-- The action that the next step has carried out, if it is a step of that sort. -/
def action? (m : Machine A) : Option Action :=
  match m.progress with
  | .working (.act action :: _) => some action
  | _ => none

variable [Actuator A]

/-- The actions that are carried out in a play, in order. -/
def actions (m : Machine A) : List Move → List Action
  | [] => []
  | .step :: moves => m.action?.toList ++ m.step.actions moves
  | .control action :: moves => (m.control action).actions moves

/-- Two machines that are related and about to carry out the same action, and that every move keeps
related, carry out the same actions throughout. -/
theorem play_related {B : Type} [Actuator B] {R : Machine A → Machine B → Prop}
    (haction : ∀ m m', R m m' → m.action? = m'.action?)
    (hstep : ∀ m m', R m m' → R m.step m'.step)
    (hcontrol : ∀ m m' action, R m m' → R (m.control action) (m'.control action))
    {m : Machine A} {m' : Machine B} (h : R m m') (moves : List Move) :
    m.actions moves = m'.actions moves ∧ R (m.play moves) (m'.play moves) := by
  induction moves generalizing m m' with
  | nil => exact ⟨rfl, h⟩
  | cons x moves ih =>
    cases x with
    | step =>
      obtain ⟨hactions, hplay⟩ := ih (hstep m m' h)
      exact ⟨by rw [actions, actions, haction m m' h, hactions], hplay⟩
    | control action => exact ih (hcontrol m m' action h)

variable {hidden hidden' : List Frame} {m m' : Machine A}

lemma above_step (hlength : hidden.length = hidden'.length) (hm : m.Nested (hidden.length + 1))
    (h : Abreast (Interpreter.Above hidden hidden') m m') :
    Abreast (Interpreter.Above hidden hidden') m.step m'.step := by
  have hcontrol : m.interpreter.control = m'.interpreter.control :=
    (h.interpreter.agreesUpToCallers hlength).control
  refine lockstep_of_popsWithin (Interpreter.lookalikes_above hlength) h ?_ ?_ ?_
  · intro i j hij hlocals calls hcalls
    refine hij.pop ?_
    rw [hlocals, hm]
    omega
  · rw [reading?, reading?, h.progress, hcontrol]
  · rw [blocked, blocked, h.progress, hcontrol]

/-- The two stay side by side, and the same actions are carried out. -/
lemma above_play (hlength : hidden.length = hidden'.length) (moves : List Move)
    (hm : m.Nested (hidden.length + 1)) (h : Abreast (Interpreter.Above hidden hidden') m m') :
    m.actions moves = m'.actions moves ∧
      Abreast (Interpreter.Above hidden hidden') (m.play moves) (m'.play moves) := by
  have hcontrol (m m' : Machine A) (action : ControlAction)
      (h : Abreast (Interpreter.Above hidden hidden') m m') :
      Abreast (Interpreter.Above hidden hidden') (m.control action) (m'.control action) := by
    obtain ⟨i, progress⟩ := m
    obtain ⟨i', progress'⟩ := m'
    refine ⟨?_, h.progress⟩
    cases h.interpreter
    exact .intro ..
  have hrelated := play_related
    (R := fun m m' => m.Nested (hidden.length + 1) ∧ Abreast (Interpreter.Above hidden hidden') m m')
    (fun _ _ h => by rw [action?, action?, h.2.progress])
    (fun m _ h => ⟨m.turn_step.nested h.1, above_step hlength h.1 h.2⟩)
    (fun m m' action h => ⟨h.1, hcontrol m m' action h.2⟩) ⟨hm, h⟩ moves
  exact ⟨hrelated.1, hrelated.2.2⟩

/-- Whatever is executed in two interpreters that differ in frames of callers alone, and whatever is
done to the flags meanwhile, the same actions are carried out, and at every moment both runs have come
as far as each other: they end alike or meet the same error, or neither ends.  The interpreters go on
to differ in those frames alone. -/
theorem agreesUpToCallers_play {i j : Interpreter A} (h : i.AgreesUpToCallers j) (node : Node)
    (moves : List Move) :
    let m := (ofNode i node).play moves
    let m' := (ofNode j node).play moves
    (ofNode i node).actions moves = (ofNode j node).actions moves ∧ m.progress = m'.progress ∧
      m.interpreter.AgreesUpToCallers m'.interpreter := by
  intro m m'
  rcases h.eq_or_above with rfl | ⟨hidden, hidden', hlength, hlocals, habove⟩
  · exact ⟨rfl, rfl, ⟨rfl, rfl, rfl, rfl, rfl, rfl⟩⟩
  · have hnested : (ofNode i node).Nested (hidden.length + 1) := hlocals
    have habreast : Abreast (Interpreter.Above hidden hidden') (ofNode i node) (ofNode j node) :=
      ⟨habove, rfl⟩
    obtain ⟨hactions, hplay⟩ := above_play hlength moves hnested habreast
    exact ⟨hactions, hplay.progress, hplay.interpreter.agreesUpToCallers hlength⟩

/-- A procedure is called that makes a variable from one of the frames in between, which it cannot
see. -/
theorem agreesUpToCallers_play_undefined :
    let call : Node := .node (.keyword "do") [.leaf ⟨.name, "p"⟩, .leaf (.keyword "list")]
    let set : Node := .node (.keyword "set") [.leaf ⟨.name, "x"⟩, .leaf ⟨.name, "y"⟩]
    let body : Node := .node (.keyword "block") [.leaf (.keyword "penup"), set]
    let interpreter (hidden : Frame) : Interpreter Walker :=
      ⟨.centered, .ofSettings {}, ⟨⟨[("z", 1)]⟩, [⟨[("x", 2)]⟩, hidden]⟩, ⟨[("p", ⟨[], body⟩)]⟩⟩
    let i := interpreter ⟨[("y", 3)]⟩
    let j := interpreter ⟨[("x", 4), ("y", 5)]⟩
    let moves : List Move := .replicate 6 .step
    i.AgreesUpToCallers j ∧ (ofNode i call).actions moves = [.penUp] ∧
      (ofNode j call).actions moves = [.penUp] ∧
      ((ofNode i call).play moves).progress = .failed (.undefinedVariable "y") ∧
      ((ofNode j call).play moves).progress = .failed (.undefinedVariable "y") ∧
      ((ofNode i call).play moves).interpreter.AgreesUpToCallers
        ((ofNode j call).play moves).interpreter := by
  intro call set body interpreter i j moves
  have hagrees : i.AgreesUpToCallers j := ⟨rfl, rfl, rfl, rfl, rfl, rfl⟩
  have hactions : (ofNode i call).actions moves = [.penUp] := by cbv
  have hprogress : ((ofNode i call).play moves).progress = .failed (.undefinedVariable "y") := by cbv
  obtain ⟨hsame, hend, hafter⟩ := agreesUpToCallers_play hagrees call moves
  exact ⟨hagrees, hactions, hsame.symm.trans hactions, hprogress, hend.symm.trans hprogress, hafter⟩

end Machine

end Logo
