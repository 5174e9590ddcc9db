import Logo.Proofs.Machine.Step
import Mathlib

/-!
# Frames

A call enters one frame and leaves it, however its body ends.  In between an assignment writes to the
innermost frame or to the global one, so the frames of callers are out of reach, and no call brings a
new global name into being.

* `Scope.Change`: what one step can do to the variables, and `Machine.Turn.change`: every step does
  one of these things.
* `Machine.Calling`: a call in the course of its execution, with the frames of its caller below.
* `Machine.frames_of_play`: what the execution of any node does to the frames, whatever the node, the
  actuator and the controller are.
-/

namespace Logo

variable {A : Type}

/-! ## Variables -/

/-- Giving a name that has a value another one brings no name into being. -/
lemma Table.contains_insert_of_contains {α : Type} {t : Table α} {name : String} (h : t.contains name)
    (value : α) (other : String) : (t.insert name value).contains other = t.contains other := by
  by_cases hother : other = name
  · subst hother
    rw [h, contains, find?_insert_self]
    rfl
  · rw [contains, find?_insert_of_ne t value hother, contains]

namespace Scope

/-- The frames of the calls that are active, without the innermost one. -/
def callers (s : Scope) : List Frame := s.locals.tail

/-- An assignment within a call changes the frame of this call, or the value of a global variable
that there was.  What it does depends on these two frames alone. -/
lemma exists_store_eq (globals frame : Frame) (name : String) (value : Float) :
    ∃ globals' frame' : Frame, (∀ callers,
      (⟨globals, frame :: callers⟩ : Scope).store name value = ⟨globals', frame' :: callers⟩) ∧
      ∀ other, globals'.contains other = globals.contains other := by
  by_cases hframe : frame.contains name
  · exact ⟨globals, frame.insert name value, fun _ => if_pos hframe, fun _ => rfl⟩
  · by_cases hglobals : globals.contains name
    · exact ⟨globals.insert name value, frame,
        fun _ => (if_neg hframe).trans (if_pos hglobals), Table.contains_insert_of_contains hglobals value⟩
    · exact ⟨globals, frame.insert name value,
        fun _ => (if_neg hframe).trans (if_neg hglobals), fun _ => rfl⟩

/-- What a step can do to the variables. -/
inductive Change (s : Scope) : Scope → Prop
  /-- Nothing. -/
  | kept : Change s s
  /-- An assignment. -/
  | stored (name : String) (value : Float) : Change s (s.store name value)
  /-- A call is entered, unless too many calls are active. -/
  | entered (frame : Frame) (hdepth : s.depth ≤ maxCallDepth) : Change s (s.push frame)
  /-- Calls are left. -/
  | left (calls : Nat) : Change s (s.pop calls)

namespace Change

variable {s s' : Scope}

/-- Within a call no global name is brought into being, and none is lost. -/
lemma contains_globals (h : Change s s') (hlocals : s.locals ≠ []) (name : String) :
    s'.globals.contains name = s.globals.contains name := by
  cases h with
  | stored target value =>
    obtain ⟨globals, locals⟩ := s
    obtain ⟨frame, callers, rfl⟩ := List.exists_cons_of_ne_nil hlocals
    obtain ⟨globals', frame', hstore, hnames⟩ := exists_store_eq globals frame target value
    rw [hstore]
    exact hnames name
  | _ => rfl

/-- The frames below the innermost one stay, as far as they are not left. -/
lemma suffix_locals {base : List Frame} (h : Change s s') (hbase : base <:+ s.locals)
    (hlt : base.length < s.locals.length) (hle : base.length ≤ s'.locals.length) :
    base <:+ s'.locals := by
  cases h with
  | kept => exact hbase
  | stored name value =>
    obtain ⟨globals, locals⟩ := s
    obtain ⟨frame, callers, rfl⟩ := List.exists_cons_of_length_pos (Nat.zero_lt_of_lt hlt)
    obtain ⟨globals', frame', hstore, -⟩ := exists_store_eq globals frame name value
    have hcallers : base <:+ callers := by
      refine (List.suffix_cons_iff.1 hbase).resolve_left fun heq => ?_
      rw [heq] at hlt
      exact Nat.lt_irrefl _ hlt
    rw [hstore]
    exact hcallers.trans (List.suffix_cons _ _)
  | entered frame _ => exact hbase.trans (List.suffix_cons _ _)
  | left calls => exact List.suffix_of_suffix_length_le hbase (List.drop_suffix _ _) hle

/-- A call is entered only if there is room for its frame. -/
lemma depth_le (h : Change s s') : s'.depth ≤ max s.depth (maxCallDepth + 1) := by
  cases h with
  | kept => exact Nat.le_max_left _ _
  | stored name value =>
    rw [depth, length_locals_store]
    exact Nat.le_max_left _ _
  | entered frame hdepth => exact Nat.le_trans (Nat.succ_le_succ hdepth) (Nat.le_max_right _ _)
  | left calls =>
    have hle : (s.locals.drop calls).length ≤ s.locals.length := (List.drop_suffix _ _).length_le
    exact Nat.le_trans (Nat.succ_le_succ hle) (Nat.le_max_left _ _)

end Change

end Scope

namespace Machine

variable [Actuator A] {m m' : Machine A}

/-- Every step does one of these things to the variables. -/
theorem Turn.change (h : Turn m m') : m.interpreter.scope.Change m'.interpreter.scope := by
  cases h with
  | unfolded _ hunfolds =>
    cases hunfolds with
    | executed hleaves =>
      cases hleaves with
      | assigned name value => exact .stored name value
      | call frame _ hdepth => exact .entered frame hdepth
      | _ => exact .kept
    | left => exact .left 1
    | _ => exact .kept
  | failed _ _ _ _ => exact .left _
  | _ => exact .kept

/-- When no task is left, nothing happens to the variables any more. -/
lemma Turn.scope_eq (h : Turn m m') (hpending : m.progress.pending = []) :
    m'.progress.pending = [] ∧ m'.interpreter.scope = m.interpreter.scope := by
  cases h with
  | still _ => exact ⟨hpending, rfl⟩
  | ended _ => exact ⟨rfl, rfl⟩
  | unfolded hprogress _ => simp [hprogress] at hpending
  | failed hprogress _ _ _ => simp [hprogress] at hpending

/-- If the last task leaves a call, it is still the last one after a step, or the run is over. -/
lemma Turn.getLast? (h : Turn m m') (hlast : m.progress.pending.getLast? = some .leave) :
    m'.progress.pending.getLast? = some .leave ∨ m'.progress.pending = [] := by
  cases h with
  | still _ => exact .inl hlast
  | ended _ => exact .inr rfl
  | @unfolded task rest tasks i hprogress hunfolds =>
    rw [hprogress, Progress.pending_working] at hlast
    cases rest with
    | nil =>
      obtain rfl : task = .leave := by simpa using hlast
      cases hunfolds with
      | left => exact .inr rfl
      | dropped _ hleave => exact absurd rfl hleave
    | cons next rest =>
      left
      rw [List.getLast?_cons_cons] at hlast
      rw [Progress.pending_working, List.getLast?_append, hlast]
      rfl
  | failed _ _ _ _ => exact .inr rfl

/-! ## Runs of any node -/

/-- While a node is executed, there are the frames there were and those of the calls to be left. -/
lemma nested_ofNode (i : Interpreter A) (node : Node) (moves : List Move) :
    ((ofNode i node).play moves).Nested i.scope.locals.length :=
  play_invariant (show (ofNode i node).Nested _ from rfl) (fun m h => m.turn_step.nested h)
    (fun _ _ h => h) moves

/-- The bound on the calls that are active holds at every moment, if it holds at the start. -/
lemma depth_play (m : Machine A) (moves : List Move) :
    (m.play moves).interpreter.scope.depth ≤ max m.interpreter.scope.depth (maxCallDepth + 1) := by
  refine play_invariant (P := fun m' => m'.interpreter.scope.depth ≤ _) (Nat.le_max_left _ _)
    (fun m' h => ?_) (fun _ _ h => h) moves
  exact Nat.le_trans m'.turn_step.change.depth_le (Nat.max_le.2 ⟨h, Nat.le_max_right _ _⟩)

/-- Some frames lie at the bottom, below all that there are for sure, and the global names are the
given ones. -/
structure Sheltered (base : List Frame) (globals : Frame) (others : Nat) (m : Machine A) : Prop where
  nested : m.Nested others
  locals : base <:+ m.interpreter.scope.locals
  globals : ∀ name, m.interpreter.scope.globals.contains name = globals.contains name

/-- Such frames cannot be reached, and such names do not change. -/
lemma Turn.sheltered {base : List Frame} {globals : Frame} {others : Nat} (h : Turn m m')
    (hothers : base.length < others) (hm : m.Sheltered base globals others) :
    m'.Sheltered base globals others := by
  have hnested := h.nested hm.nested
  have hlt : base.length < m.interpreter.scope.locals.length := by
    rw [hm.nested]
    omega
  refine ⟨hnested, h.change.suffix_locals hm.locals hlt ?_, fun name => ?_⟩
  · rw [hnested]
    omega
  · rw [h.change.contains_globals (List.ne_nil_of_length_pos (Nat.zero_lt_of_lt hlt)),
      hm.globals name]

/-- Whatever is executed within a call, the frames of its callers and the global names stay. -/
lemma sheltered_ofNode {i : Interpreter A} (hdepth : 2 ≤ i.scope.depth) (node : Node)
    (moves : List Move) :
    ((ofNode i node).play moves).Sheltered i.scope.callers i.scope.globals
      i.scope.locals.length := by
  have hothers : i.scope.callers.length < i.scope.locals.length := by
    rw [Scope.depth] at hdepth
    rw [Scope.callers, List.length_tail]
    omega
  exact play_invariant ⟨rfl, List.tail_suffix _, fun _ => rfl⟩
    (fun m h => m.turn_step.sheltered hothers h) (fun _ _ h => ⟨h.nested, h.locals, h.globals⟩)
    moves

/-! ## Calls -/

/-- How far the execution of a call has come, and where the frames of its caller are. -/
inductive Calling (node : Node) (before : List Frame) (m : Machine A) : Prop
  /-- It has not begun. -/
  | ready (hprogress : m.progress = .working [.exec node])
    (hlocals : m.interpreter.scope.locals = before)
  /-- The body is executed; the return from the call is the last task. -/
  | active (hnested : m.Nested before.length) (hlast : m.progress.pending.getLast? = some .leave)
    (hlocals : before <:+ m.interpreter.scope.locals)
  /-- It is over. -/
  | done (hpending : m.progress.pending = []) (hlocals : m.interpreter.scope.locals = before)

variable {node : Node} {before : List Frame}

/-- A call begins with a frame of its own, unless it is over at once. -/
lemma calling_first (hcall : node.text = "do") (hprogress : m.progress = .working [.exec node])
    (hlocals : m.interpreter.scope.locals = before) : Calling node before m.step := by
  simp only [step, hprogress, perform, Effect.exec_of_call hcall]
  split
  · have hmeets := Effect.meets_call node m.interpreter
    cases hcalled : Effect.call node m.interpreter with
    | ok tasks i =>
      obtain ⟨name, procedure, frame, -, -, rfl, rfl⟩ := hmeets.of_ok hcalled
      subst hlocals
      exact .active (by simp [Nested, Scope.push, Task.isLeave]) rfl (List.suffix_cons _ _)
    | error e i =>
      obtain rfl := hmeets.of_error hcalled
      exact .done rfl hlocals
  · exact .done rfl hlocals

lemma calling_step (hcall : node.text = "do") (h : Calling node before m) :
    Calling node before m.step := by
  have hturn := m.turn_step
  cases h with
  | ready hprogress hlocals => exact calling_first hcall hprogress hlocals
  | active hnested hlast hlocals =>
    have hafter := hturn.nested hnested
    have hleave : 0 < m.progress.pending.countP Task.isLeave :=
      List.countP_pos_iff.2 ⟨.leave, List.mem_of_getLast? hlast, rfl⟩
    have hsuffix : before <:+ m.step.interpreter.scope.locals := by
      refine hturn.change.suffix_locals hlocals ?_ ?_
      · rw [hnested]
        omega
      · rw [hafter]
        omega
    rcases hturn.getLast? hlast with hlast | hpending
    · exact .active hafter hlast hsuffix
    · refine .done hpending (hsuffix.eq_of_length ?_).symm
      rw [hafter, hpending]
      rfl
  | done hpending hlocals =>
    obtain ⟨hpending, hscope⟩ := hturn.scope_eq hpending
    exact .done hpending (by rw [hscope, hlocals])

lemma calling_ofNode (i : Interpreter A) (hcall : node.text = "do") (moves : List Move) :
    Calling node i.scope.locals ((ofNode i node).play moves) := by
  refine play_invariant (.ready rfl rfl) (fun m h => calling_step hcall h) (fun m action h => ?_)
    moves
  cases h with
  | ready hprogress hlocals => exact .ready hprogress hlocals
  | active hnested hlast hlocals => exact .active hnested hlast hlocals
  | done hpending hlocals => exact .done hpending hlocals

/-- Whatever a node is and whatever is done to the flags meanwhile, executing it leaves as many frames
as there were, with an error or without.

Within a call, the frames of the callers are there at every moment as they were, and so are the global
names, if not their values; a node that is itself a call keeps the frame in which it stands too.  In a
run of a script there are never more calls active than are allowed. -/
theorem frames_of_play (i : Interpreter A) (node : Node) (moves : List Move) :
    let m := (ofNode i node).play moves
    let s := m.interpreter.scope
    let whole := (ofProgram i node).play moves
    (m.progress.pending = [] → s.depth = i.scope.depth) ∧
    (2 ≤ i.scope.depth →
      (∀ name, s.globals.contains name = i.scope.globals.contains name) ∧
      i.scope.callers <:+ s.locals ∧ (m.progress.pending = [] → s.callers = i.scope.callers) ∧
      (node.text = "do" →
        i.scope.locals <:+ s.locals ∧ (m.progress.pending = [] → s.locals = i.scope.locals))) ∧
    1 ≤ whole.interpreter.scope.depth ∧ whole.interpreter.scope.depth ≤ maxCallDepth + 1 := by
  intro m s whole
  have hnested : m.Nested i.scope.locals.length := nested_ofNode i node moves
  have hlength (hpending : m.progress.pending = []) : s.locals.length = i.scope.locals.length := by
    rw [hnested, hpending]
    rfl
  refine ⟨fun hpending => by rw [Scope.depth, hlength hpending, Scope.depth], fun hdepth => ?_,
    Nat.succ_pos _, ?_⟩
  · have hsheltered : m.Sheltered i.scope.callers i.scope.globals _ :=
      sheltered_ofNode hdepth node moves
    refine ⟨hsheltered.globals, hsheltered.locals, fun hpending => ?_, fun hcall => ?_⟩
    · -- both are what lies at the bottom of the same frames
      have hequal : i.scope.callers.length = s.callers.length := by
        simp only [Scope.callers, List.length_tail, hlength hpending]
      have hcallers : i.scope.callers <:+ s.callers :=
        List.suffix_of_suffix_length_le hsheltered.locals (List.tail_suffix _) (Nat.le_of_eq hequal)
      exact (hcallers.eq_of_length hequal).symm
    · have hlocals : i.scope.locals <:+ s.locals := by
        cases calling_ofNode i hcall moves with
        | ready _ hlocals => exact hlocals ▸ List.suffix_rfl
        | active _ _ hlocals => exact hlocals
        | done _ hlocals => exact hlocals ▸ List.suffix_rfl
      exact ⟨hlocals, fun hpending => (hlocals.eq_of_length (hlength hpending).symm).symm⟩
  · exact depth_play (ofProgram i node) moves

/-- A call within two others sets a global variable and then calls a procedure that does not exist. -/
theorem frames_of_play_undefined :
    let call (name : String) : Node :=
      .node (.keyword "do") [.leaf ⟨.name, name⟩, .leaf (.keyword "list")]
    let set : Node := .node (.keyword "set") [.leaf ⟨.name, "x"⟩, .leaf ⟨.name, "z"⟩]
    let body : Node := .node (.keyword "block") [set, call "q"]
    let i : Interpreter Walker :=
      ⟨.centered, .ofSettings {}, ⟨⟨[("x", 1), ("z", 2)]⟩, [⟨[("x", 3)]⟩, ⟨[("y", 4)]⟩]⟩,
        ⟨[("p", ⟨[], body⟩)]⟩⟩
    let m := (ofNode i (call "p")).play (.replicate 5 .step)
    2 ≤ i.scope.depth ∧ (call "p").text = "do" ∧ m.progress = .failed (.undefinedProcedure "q") ∧
      m.interpreter.scope.global? "x" = some 2 ∧ m.interpreter.scope.depth = 3 ∧
      m.interpreter.scope.callers = i.scope.callers ∧
      m.interpreter.scope.locals = i.scope.locals ∧
      ∀ name, m.interpreter.scope.globals.contains name = i.scope.globals.contains name := by
  intro call set body i m
  have hdepth : 2 ≤ i.scope.depth := by decide
  have hprogress : ((ofNode i (call "p")).play (.replicate 5 .step)).progress =
      .failed (.undefinedProcedure "q") := by cbv
  have hpending : m.progress.pending = [] := congrArg Progress.pending hprogress
  have hglobal : ((ofNode i (call "p")).play (.replicate 5 .step)).interpreter.scope.global? "x" =
      some 2 := by cbv
  obtain ⟨hend, hwithin, -⟩ := frames_of_play i (call "p") (.replicate 5 .step)
  obtain ⟨hnames, -, hcallers, hcall⟩ := hwithin hdepth
  obtain ⟨-, hlocals⟩ := hcall rfl
  exact ⟨hdepth, rfl, hprogress, hglobal, hend hpending, hcallers hpending, hlocals hpending, hnames⟩

end Machine

end Logo
