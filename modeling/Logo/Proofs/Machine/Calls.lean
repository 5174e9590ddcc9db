import Logo.Proofs.Machine.Frames
import Logo.Proofs.Machine.Stopping

/-!
# Calls

A call decides everything before it enters its frame: it looks for the procedure, counts the arguments,
evaluates them in the frame of the caller and counts the active calls, in this order, and whatever fails
there fails without a trace.  What comes then is the body and nothing else, so the call goes on and ends
as the body does when it is executed by itself.

* `Table.binds_extend`: the frame that a call enters, with parameters that may be named twice.
* `Effect.call_of_none` up to `Effect.call_of_values`: what a call does at once, one lemma for each thing
  that may fail.
* `Machine.play_andThen`: tasks that stand behind those of a machine make no difference to it until it
  comes to them.
* `Machine.play_call`: a call from beginning to end.
-/

namespace Logo

variable {A : Type} {α : Type}

/-! ## Frames of parameters -/

/-- Every parameter has the value that stands at its last place, and no other name has one. -/
structure Table.Binds (t : Table α) (parameters : List String) (values : List α) : Prop where
  value : ∀ k name value, parameters[k]? = some name → values[k]? = some value →
    name ∉ parameters.drop (k + 1) → t.find? name = some value
  other : ∀ name, name ∉ parameters → t.find? name = none

namespace Table

/-- The table with further bindings, from left to right. -/
def extend (t : Table α) (bindings : List (String × α)) : Table α :=
  bindings.foldl (fun t binding => t.insert binding.1 binding.2) t

@[simp] lemma extend_nil (t : Table α) : t.extend [] = t := rfl

@[simp] lemma extend_cons (t : Table α) (name : String) (value : α) (bindings : List (String × α)) :
    t.extend ((name, value) :: bindings) = (t.insert name value).extend bindings := rfl

lemma extend_append (t : Table α) (bindings bindings' : List (String × α)) :
    t.extend (bindings ++ bindings') = (t.extend bindings).extend bindings' := by
  simp [extend]

/-- Names that are not bound keep their values. -/
lemma find?_extend_of_notMem {t : Table α} {bindings : List (String × α)} {name : String}
    (h : name ∉ bindings.map Prod.fst) : (t.extend bindings).find? name = t.find? name := by
  induction bindings generalizing t with
  | nil => rfl
  | cons binding bindings ih =>
    rw [List.map_cons, List.mem_cons, not_or] at h
    rw [extend_cons, ih h.2, find?_insert_of_ne t binding.2 h.1]

/-- The last binding of a name is the one that counts. -/
lemma find?_extend {t : Table α} {name : String} {value : α} (before after : List (String × α))
    (h : name ∉ after.map Prod.fst) :
    (t.extend (before ++ (name, value) :: after)).find? name = some value := by
  rw [extend_append, extend_cons, find?_extend_of_notMem h, find?_insert_self]

/-- Parameters are bound by a table that binds them one by one. -/
theorem binds_extend {parameters : List String} {values : List α}
    (hlength : parameters.length = values.length) :
    (empty.extend (parameters.zip values)).Binds parameters values := by
  constructor
  · intro k name value hname hvalue hlast
    have hbinding : (parameters.zip values)[k]? = some (name, value) := by
      rw [List.getElem?_zip_eq_some]
      exact ⟨hname, hvalue⟩
    obtain ⟨hk, hget⟩ := List.getElem?_eq_some_iff.1 hbinding
    rw [← List.take_append_drop k (parameters.zip values), List.drop_eq_getElem_cons hk, hget]
    refine find?_extend _ _ ?_
    rwa [List.map_drop, List.map_fst_zip (Nat.le_of_eq hlength)]
  · intro name hname
    rw [find?_extend_of_notMem, find?_empty]
    rwa [List.map_fst_zip (Nat.le_of_eq hlength)]

end Table

/-! ## What a call does at once -/

namespace Effect

variable [Actuator A] {i : Interpreter A}

lemma expression_apply (node : Node) (i : Interpreter A) :
    (expression node : Effect A Float) i =
      match i.surroundings.expression node with
      | .ok value => .ok value i
      | .error error => .error error i := by
  unfold expression
  rw [bind_apply, get_apply]
  dsimp only
  cases i.surroundings.expression node <;> rfl

/-- Arguments that have values are bound to the parameters. -/
lemma bind_of_values {arguments : List Node} {values : List Float}
    (h : List.Forall₂ (fun a v => i.surroundings.expression a = .ok v) arguments values)
    (parameters : List String) (frame : Frame) :
    Effect.bind frame (parameters.zip arguments) i = .ok (frame.extend (parameters.zip values)) i := by
  induction h generalizing parameters frame with
  | nil => simp [Effect.bind, pure, EStateM.pure]
  | @cons a v arguments values hvalue _ ih =>
    cases parameters with
    | nil => rfl
    | cons parameter parameters =>
      rw [List.zip_cons_cons, List.zip_cons_cons, Effect.bind, bind_apply, expression_apply, hvalue]
      exact ih parameters (frame.insert parameter v)

/-- The first argument without a value decides on the error. -/
lemma bind_of_error {before after : List Node} {e : Node} {error : RuntimeError}
    (hbefore : ∀ a ∈ before, ∃ v, i.surroundings.expression a = .ok v)
    (herror : i.surroundings.expression e = .error error) {parameters : List String}
    (hlength : before.length < parameters.length) (frame : Frame) :
    Effect.bind frame (parameters.zip (before ++ e :: after)) i = .error error i := by
  induction before generalizing parameters frame with
  | nil =>
    obtain ⟨parameter, parameters, rfl⟩ := List.exists_cons_of_length_pos hlength
    rw [List.nil_append, List.zip_cons_cons, Effect.bind, bind_apply, expression_apply, herror]
  | cons a before ih =>
    obtain ⟨⟨v, hvalue⟩, hbefore⟩ := List.forall_mem_cons.1 hbefore
    obtain ⟨parameter, parameters, rfl⟩ := List.exists_cons_of_length_pos (Nat.zero_lt_of_lt hlength)
    rw [List.cons_append, List.zip_cons_cons, Effect.bind, bind_apply, expression_apply, hvalue]
    exact ih hbefore (Nat.lt_of_succ_lt_succ hlength) _

section Call

variable {t : Token} {callee arguments : Node} {p : Procedure}

/-- A call, step by step: the procedure, the number of arguments, the arguments, the depth. -/
lemma call_apply (t : Token) (callee arguments : Node) (i : Interpreter A) :
    call (.node t [callee, arguments]) i =
      match i.procedures.find? callee.text with
      | none => .error (.undefinedProcedure callee.text) i
      | some p =>
        if p.parameters.length ≠ arguments.children.length then
          .error (.arityMismatch callee.text p.parameters.length arguments.children.length) i
        else
          match Effect.bind .empty (p.parameters.zip arguments.children) i with
          | .error error i' => .error error i'
          | .ok frame i' =>
            if maxCallDepth < i.scope.depth then .error (.recursionLimit callee.text maxCallDepth) i'
            else .ok [.exec p.body, .leave] { i' with scope := i'.scope.push frame } := by
  change (match i.procedures.find? callee.text with | none => _ | some _ => _ : Effect A _) i = _
  cases i.procedures.find? callee.text with
  | none => rfl
  | some p =>
    dsimp only
    rw [Tree.childCount]
    split
    · rfl
    · rw [bind_apply]
      cases Effect.bind .empty (p.parameters.zip arguments.children) i with
      | error error i' => rfl
      | ok frame i' =>
        dsimp only
        split <;> rfl

lemma call_of_none (hfind : i.procedures.find? callee.text = none) :
    call (.node t [callee, arguments]) i = .error (.undefinedProcedure callee.text) i := by
  rw [call_apply, hfind]

lemma call_of_length_ne (hfind : i.procedures.find? callee.text = some p)
    (hlength : p.parameters.length ≠ arguments.children.length) :
    call (.node t [callee, arguments]) i =
      .error (.arityMismatch callee.text p.parameters.length arguments.children.length) i := by
  rw [call_apply, hfind]
  exact if_pos hlength

lemma call_of_error (hfind : i.procedures.find? callee.text = some p)
    (hlength : p.parameters.length = arguments.children.length) {before after : List Node} {e : Node}
    {error : RuntimeError} (hsplit : arguments.children = before ++ e :: after)
    (hbefore : ∀ a ∈ before, ∃ v, i.surroundings.expression a = .ok v)
    (herror : i.surroundings.expression e = .error error) :
    call (.node t [callee, arguments]) i = .error error i := by
  have hlt : before.length < p.parameters.length := by
    rw [hlength, hsplit, List.length_append, List.length_cons]
    omega
  rw [call_apply, hfind]
  dsimp only
  rw [if_neg (not_not.2 hlength), hsplit, bind_of_error hbefore herror hlt]

lemma call_of_values (hfind : i.procedures.find? callee.text = some p)
    (hlength : p.parameters.length = arguments.children.length) {values : List Float}
    (hvalues : List.Forall₂ (fun a v => i.surroundings.expression a = .ok v) arguments.children values) :
    call (.node t [callee, arguments]) i =
      if maxCallDepth < i.scope.depth then .error (.recursionLimit callee.text maxCallDepth) i
      else .ok [.exec p.body, .leave]
        { i with scope := i.scope.push (Table.empty.extend (p.parameters.zip values)) } := by
  rw [call_apply, hfind]
  dsimp only
  rw [if_neg (not_not.2 hlength), bind_of_values hvalues]

end Call

end Effect

/-! ## Tasks behind a machine -/

namespace Machine

/-- The machine with further tasks behind its own; after an error it leaves the calls that these would
have left. -/
def andThen (m : Machine A) (tasks : List Task) : Machine A :=
  match m.progress with
  | .working own => ⟨m.interpreter, .working (own ++ tasks)⟩
  | .finished _ => m
  | .failed error => ⟨m.interpreter.unwind tasks, .failed error⟩

variable [Actuator A]

/-- The first part of a task is the same, whatever tasks there are behind it. -/
lemma perform_andThen (i : Interpreter A) (task : Task) (own behind : List Task) :
    (⟨i, .working (task :: (own ++ behind))⟩ : Machine A).perform (own ++ behind) task =
      ((⟨i, .working (task :: own)⟩ : Machine A).perform own task).andThen behind := by
  cases task with
  | exec node =>
    rw [perform, perform]
    dsimp only
    split
    · cases Effect.exec node i with
      | ok tasks i' => simp only [andThen, List.append_assoc]
      | error error i' => simp only [fail, andThen, Interpreter.unwind_append]
    · rfl
  | act action => rfl
  | pace =>
    rw [perform, perform]
    dsimp only
    split <;> rfl
  | rounds count body =>
    cases count with
    | zero => rfl
    | succ count =>
      rw [perform, perform]
      dsimp only
      split <;> rfl
  | loop condition body =>
    rw [perform, perform]
    dsimp only
    split
    · split
      · rfl
      · rfl
      · simp only [fail, andThen, Interpreter.unwind_append]
    · rfl
  | leave => rfl

/-- A move that does not end the run is the same, whatever tasks there are behind. -/
lemma move_andThen {m : Machine A} {x : Move} (h : ∀ outcome, (m.move x).progress ≠ .finished outcome)
    (behind : List Task) : (m.andThen behind).move x = (m.move x).andThen behind := by
  obtain ⟨i, progress⟩ := m
  cases x with
  | control action =>
    cases progress with
    | working tasks => rfl
    | finished outcome => rfl
    | failed error => rfl
  | step =>
    match progress, h with
    | .working [], h => exact absurd rfl (h _)
    | .working (task :: own), _ => exact perform_andThen i task own behind
    | .finished _, _ => rfl
    | .failed _, _ => rfl

lemma progress_move_of_finished {m : Machine A} {outcome : Outcome} (h : m.progress = .finished outcome)
    (x : Move) : (m.move x).progress = .finished outcome := by
  cases x with
  | control action => exact h
  | step =>
    rw [move, step]
    simp [h]

/-- As long as the outcome of its run has not been told, a machine runs as it would with further tasks
behind its own. -/
theorem play_andThen {m : Machine A} (moves : List Move)
    (h : ∀ outcome, (m.play moves).progress ≠ .finished outcome) (behind : List Task) :
    (m.andThen behind).play moves = (m.play moves).andThen behind := by
  -- from the last move backwards, because a run that has not ended had not ended before either
  induction moves using List.reverseRecOn with
  | nil => rfl
  | append_singleton moves x ih =>
    rw [play_append, play_cons, play_nil] at h ⊢
    have hbefore (outcome : Outcome) : (m.play moves).progress ≠ .finished outcome :=
      fun hfinished => h outcome (progress_move_of_finished hfinished x)
    rw [ih hbefore, move_andThen h, play_append]
    rfl

end Machine

/-! ## Calls -/

namespace Interpreter

/-- The interpreter in which a call with the given frame is active besides. -/
def within (i : Interpreter A) (frame : Frame) : Interpreter A :=
  { i with scope := i.scope.push frame }

/-- The interpreter with the frames of another one for those of its calls. -/
def withCallsOf (i' i : Interpreter A) : Interpreter A :=
  { i' with scope := { i'.scope with locals := i.scope.locals } }

end Interpreter

namespace Machine

variable [Actuator A] {i : Interpreter A} {node body : Node} {frame : Frame} {moves : List Move}

/-- Executing a node is entering a frame, executing a body and removing the frame, whatever the
controller does meanwhile. -/
structure Executes (i : Interpreter A) (node body : Node) (frame : Frame) : Prop where
  /-- The frame is entered, and nothing else happens before the body. -/
  entered : (ofNode i node).step = (ofNode (i.within frame) body).andThen [.leave]
  /-- The body is executed as it is by itself. -/
  during (moves : List Move) :
    let m := (ofNode (i.within frame) body).play moves
    (∀ outcome, m.progress ≠ .finished outcome) →
      (ofNode i node).play (.step :: moves) = m.andThen [.leave]
  /-- When the body is done, the frames are those of the caller again. -/
  returned (moves : List Move) :
    let m := (ofNode (i.within frame) body).play moves
    m.progress = .working [] →
      (ofNode i node).play (.step :: (moves ++ [.step])) = ⟨m.interpreter.withCallsOf i, .working []⟩
  /-- An error of the body is one of the node, and the frames are those of the caller again. -/
  failed (moves : List Move) (error : RuntimeError) :
    let m := (ofNode (i.within frame) body).play moves
    m.progress = .failed error →
      (ofNode i node).play (.step :: moves) = ⟨m.interpreter.withCallsOf i, .failed error⟩

/-- When a body is over, its frame is the only one to be removed. -/
lemma unwind_of_pending (h : ((ofNode (i.within frame) body).play moves).progress.pending = []) :
    let i' := ((ofNode (i.within frame) body).play moves).interpreter
    i'.unwind [.leave] = i'.withCallsOf i := by
  intro i'
  have hsheltered := sheltered_ofNode (i := i.within frame)
    (by simp [Scope.depth, Interpreter.within, Scope.push]) body moves
  have hlength : (i'.scope.locals.drop 1).length = i.scope.locals.length := by
    have hnested := hsheltered.nested
    rw [Nested, h] at hnested
    rw [List.length_drop, hnested]
    rfl
  -- both lie at the bottom of the same frames
  have hsuffix : i.scope.locals <:+ i'.scope.locals.drop 1 :=
    List.suffix_of_suffix_length_le hsheltered.locals (List.drop_suffix 1 _) (Nat.le_of_eq hlength.symm)
  rw [Interpreter.withCallsOf, hsuffix.eq_of_length hlength.symm]
  rfl

/-- Once a frame is entered and a body is to be executed in it, the rest follows. -/
lemma executes_of_entered
    (h : (ofNode i node).step = (ofNode (i.within frame) body).andThen [.leave]) :
    Executes i node body frame := by
  have hduring (moves : List Move) :
      (∀ outcome, ((ofNode (i.within frame) body).play moves).progress ≠ .finished outcome) →
        (ofNode i node).play (.step :: moves) =
          ((ofNode (i.within frame) body).play moves).andThen [.leave] := by
    intro hmoves
    rw [play_cons, move, h, play_andThen moves hmoves]
  refine ⟨h, hduring, fun moves => ?_, fun moves error => ?_⟩
  · intro m hm
    have hunfinished (outcome : Outcome) : m.progress ≠ .finished outcome := by simp [hm]
    have hunwind := unwind_of_pending (congrArg Progress.pending hm)
    rw [← List.cons_append, play_append, hduring moves hunfinished, ← hunwind, andThen, hm]
    rfl
  · intro m hm
    have hunfinished (outcome : Outcome) : m.progress ≠ .finished outcome := by simp [hm]
    have hunwind := unwind_of_pending (congrArg Progress.pending hm)
    rw [hduring moves hunfinished, ← hunwind, andThen, hm]

/-- What a node does at once is its first step. -/
lemma step_ofNode (hrunning : i.control.running = true) (node : Node) :
    (ofNode i node).step =
      match Effect.exec node i with
      | .ok tasks i' => ⟨i', .working (tasks ++ [])⟩
      | .error error i' => ⟨i'.unwind [], .failed error⟩ := by
  change (if i.control.running then _ else _) = _
  rw [if_pos hrunning]
  rfl

/-- The execution of a call.  The procedure must be defined and must have as many parameters as there
are arguments; the arguments must have values in the frame of the caller, the first one without deciding
on the error; and there must be room for one more call.  Whatever fails in this order leaves everything
as it was.

Otherwise one frame is entered, in which each parameter has the value of its argument, the last one if
it is named twice, and no other name has a value.  The body is executed in it and decides how the call
ends, and the frame is removed. -/
theorem play_call (hrunning : i.control.running = true) {t : Token} (hcall : t.text = "do")
    (callee arguments : Node) :
    let call : Node := .node t [callee, arguments]
    let fails (error : RuntimeError) : Prop := (ofNode i call).step = ⟨i, .failed error⟩
    let value? := i.surroundings.expression
    (i.procedures.find? callee.text = none → fails (.undefinedProcedure callee.text)) ∧
    ∀ p, i.procedures.find? callee.text = some p →
      (p.parameters.length ≠ arguments.children.length →
        fails (.arityMismatch callee.text p.parameters.length arguments.children.length)) ∧
      (p.parameters.length = arguments.children.length →
        (∀ before e after error, arguments.children = before ++ e :: after →
          (∀ a ∈ before, ∃ v, value? a = .ok v) → value? e = .error error → fails error) ∧
        ∀ values, List.Forall₂ (fun a v => value? a = .ok v) arguments.children values →
          (maxCallDepth ≤ i.scope.locals.length → fails (.recursionLimit callee.text maxCallDepth)) ∧
          (i.scope.locals.length < maxCallDepth →
            ∃ frame : Frame, frame.Binds p.parameters values ∧ Executes i call p.body frame)) := by
  intro call fails value?
  have htext : call.text = "do" := hcall
  have hstep := step_ofNode hrunning call
  rw [Effect.exec_of_call htext] at hstep
  refine ⟨fun hfind => ?_, fun p hfind => ⟨fun hlength => ?_, fun hlength => ⟨?_, ?_⟩⟩⟩
  · rw [Effect.call_of_none hfind] at hstep
    exact hstep
  · rw [Effect.call_of_length_ne hfind hlength] at hstep
    exact hstep
  · intro before e after error hsplit hbefore herror
    rw [Effect.call_of_error hfind hlength hsplit hbefore herror] at hstep
    exact hstep
  · intro values hvalues
    rw [Effect.call_of_values hfind hlength hvalues] at hstep
    constructor
    · intro hfull
      have hdepth : maxCallDepth < i.scope.depth := Nat.lt_succ_of_le hfull
      rw [if_pos hdepth] at hstep
      exact hstep
    · intro hroom
      have hdepth : ¬ maxCallDepth < i.scope.depth := Nat.not_lt.2 hroom
      rw [if_neg hdepth] at hstep
      exact ⟨_, Table.binds_extend (hlength.trans hvalues.length_eq), executes_of_entered hstep⟩

/-- A procedure with the parameters `x`, `y` and `x` is called within another call, which has an `x` of
its own: that one is the argument for `y`. -/
theorem play_call_shadowing :
    let name (text : String) : Node := .leaf ⟨.name, text⟩
    let call : Node :=
      .node (.keyword "do") [name "p", .node (.keyword "list") [name "z", name "x", name "w"]]
    let body : Node := .leaf (.keyword "block")
    let i : Interpreter Walker :=
      ⟨.centered, .ofSettings {}, ⟨⟨[("x", 1), ("z", 2), ("w", 4)]⟩, [⟨[("x", 3)]⟩]⟩,
        ⟨[("p", ⟨["x", "y", "x"], body⟩)]⟩⟩
    i.control.running = true ∧
      (∃ frame : Frame, frame.find? "x" = some 4 ∧ frame.find? "y" = some 3 ∧
        frame.find? "z" = none ∧
        (ofNode i call).step = ⟨i.within frame, .working [.exec body, .leave]⟩) ∧
      (ofNode i call).play [.step, .step, .step] = ⟨i, .working []⟩ := by
  intro name call body i
  have hrunning : i.control.running = true := rfl
  have hvalues : List.Forall₂ (fun a v => i.surroundings.expression a = .ok v)
      [name "z", name "x", name "w"] [2, 3, 4] := by
    exact .cons (by cbv) (.cons (by cbv) (.cons (by cbv) .nil))
  obtain ⟨-, hcall⟩ := play_call hrunning (t := .keyword "do") rfl (name "p")
    (.node (.keyword "list") [name "z", name "x", name "w"])
  obtain ⟨-, hequal⟩ := hcall ⟨["x", "y", "x"], body⟩ rfl
  obtain ⟨-, hbound⟩ := hequal rfl
  obtain ⟨-, hroom⟩ := hbound _ hvalues
  obtain ⟨frame, hbinds, hexecutes⟩ := hroom (by decide)
  refine ⟨hrunning, ⟨frame, ?_, ?_, ?_, hexecutes.entered⟩, ?_⟩
  · exact hbinds.value 2 "x" 4 rfl rfl (by decide)
  · exact hbinds.value 1 "y" 3 rfl rfl (by decide)
  · exact hbinds.other "z" (by decide)
  · exact hexecutes.returned [.step] rfl

end Machine

end Logo
