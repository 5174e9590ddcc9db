import Logo.Proofs.Grammar.Soundness.Program
import Logo.Proofs.Machine.Soundness
import Logo.Proofs.Machine.Step
import Logo.Turtle.Basic
import Mathlib

/-!
# What the pen decides

The pen decides which moves leave a line, and a script cannot ask how it stands.  So the commands
that lift and lower it may be removed: the turtle goes the same way, and draws all of it.  The two
scripts are not executed in lockstep, since a pen command takes steps that nothing answers to.

* `Node.penless`: a script without its pen commands.
* `Effect.corresponds_exec`: a node that is no pen command does the same without those of its
  blocks, and leaves the same to be done without pen commands.
* `Machine.trailing_step`: a step of a run is one of the other run too, unless it has to do with the
  pen.  There are a few such steps at a time, so neither run leaves the other behind.
* `Machine.sameButPen_of_parse`: a parsed script on a turtle whose actions are recorded.
-/

namespace Logo

open Grammar

variable {A B : Type}

/-! ## Scripts without pen commands -/

/-- The words that lift and lower the pen. -/
def penWords : List String := ["penup", "pendown"]

/-- Whether an action lifts or lowers the pen. -/
def Action.isPen : Action → Bool
  | .penUp | .penDown => true
  | _ => false

namespace Node

/-- Whether a node is a pen command. -/
def isPen (node : Node) : Bool := node.text ∈ penWords

mutual

/-- The node without the pen commands of its blocks. -/
def penless : Node → Node
  | .node t cs =>
    if t.text = "block" then .node t ((penlessEach cs).filter fun c => !isPen c)
    else .node t (penlessEach cs)

/-- `penless` for nodes in a row. -/
def penlessEach : List Node → List Node
  | [] => []
  | c :: cs => penless c :: penlessEach cs

end

lemma penlessEach_eq_map (cs : List Node) : penlessEach cs = cs.map penless := by
  induction cs with
  | nil => rfl
  | cons c cs ih => rw [penlessEach, ih, List.map_cons]

/-- Only a block loses commands. -/
lemma penless_node {t : Token} (h : t.text ≠ "block") (cs : List Node) :
    penless (.node t cs) = .node t (cs.map penless) := by
  rw [penless, if_neg h, penlessEach_eq_map]

@[simp] lemma penless_leaf (t : Token) : penless (.leaf t) = .leaf t := by
  rw [Tree.leaf, penless, penlessEach, List.filter_nil, ite_self]

lemma isPen_penless (c : Node) : isPen (penless c) = isPen c := by
  obtain ⟨t, cs⟩ := c
  rw [penless]
  split <;> rfl

lemma penless_block (cs : List Node) :
    penless (.node (.keyword "block") cs) =
      .node (.keyword "block") ((cs.filter fun c => !isPen c).map penless) := by
  have hblock : (Token.keyword "block").text = "block" := rfl
  rw [penless, if_pos hblock, penlessEach_eq_map, List.filter_map]
  simp only [Function.comp_def, isPen_penless]

/-- There are no commands in an expression or in a condition. -/
lemma penless_of_shaped {p : Part} {node : Node} (h : Shaped p node)
    (hp : p = .expression ∨ p = .condition) : penless node = node := by
  have hoperator : ∀ text ∈ operators ++ comparators, text ≠ "block" := by decide
  have hne {texts : List String} {o : Token} (ho : IsSymbol texts o)
      (hsub : texts ⊆ operators ++ comparators) : o.text ≠ "block" := hoperator _ (hsub ho.2)
  induction h with
  | name _ | number _ | coordinate _ => exact penless_leaf _
  | sign ho _ ih => rw [penless_node (hne ho (by decide)), List.map_singleton, ih (.inl rfl)]
  | operation ho _ _ ihl ihr | comparison ho _ _ ihl ihr =>
    rw [penless_node (hne ho (by decide)), List.map_cons, List.map_singleton, ihl (.inl rfl),
      ihr (.inl rfl)]
  | _ => simp at hp

lemma penless_expression {e : Node} (h : Shaped .expression e) : penless e = e :=
  penless_of_shaped h (.inl rfl)

lemma penless_condition {c : Node} (h : Shaped .condition c) : penless c = c :=
  penless_of_shaped h (.inr rfl)

lemma map_penless_expressions {es : List Node} (h : ∀ e ∈ es, Shaped .expression e) :
    es.map penless = es :=
  (List.map_congr_left fun e he => penless_expression (h e he)).trans (List.map_id es)

lemma map_penless_leaves (xs : List Token) :
    (xs.map Tree.leaf).map penless = xs.map Tree.leaf := by
  rw [List.map_map]
  exact List.map_congr_left fun x _ => penless_leaf x

/-- A pen command has a word and nothing else. -/
lemma exists_eq_leaf_of_isPen {c : Node} (h : Shaped .command c) (hpen : c.isPen = true) :
    ∃ word ∈ penWords, c = .leaf (.keyword word) := by
  have hmove : ∀ word ∈ moveWords, word ∉ penWords := by decide
  have htext : c.text ∈ penWords := by simpa [isPen] using hpen
  cases h with
  | move hw _ => exact absurd htext (hmove _ hw)
  | @bare word hw => exact ⟨word, htext, rfl⟩
  | _ => simp [text, penWords, Token.keyword] at htext

end Node

/-- A procedure without the pen commands of its body. -/
def Procedure.penless (p : Procedure) : Procedure := { p with body := p.body.penless }

/-! ## Tasks without pen commands -/

/-- The tasks that are left in a run, with those that are left in the other one: the same without
pen commands.  Actions of the pen, and any waits, may be left in the first run alone. -/
inductive Trails : List Task → List Task → Prop
  | nil : Trails [] []
  | exec {node : Node} {ts us : List Task} (h : Executable node) (hpen : node.isPen = false)
    (hts : Trails ts us) : Trails (.exec node :: ts) (.exec node.penless :: us)
  | act {action : Action} {ts us : List Task} (h : action.isPen = false) (hts : Trails ts us) :
    Trails (.act action :: ts) (.act action :: us)
  | pace {ts us : List Task} (hts : Trails ts us) : Trails (.pace :: ts) (.pace :: us)
  | rounds (count : Nat) {body : Node} {ts us : List Task} (h : Shaped .block body)
    (hts : Trails ts us) : Trails (.rounds count body :: ts) (.rounds count body.penless :: us)
  | loop {condition body : Node} {ts us : List Task} (hcondition : Shaped .condition condition)
    (hbody : Shaped .block body) (hts : Trails ts us) :
    Trails (.loop condition body :: ts) (.loop condition body.penless :: us)
  | leave {ts us : List Task} (hts : Trails ts us) : Trails (.leave :: ts) (.leave :: us)
  | command {word : String} {ts us : List Task} (h : word ∈ penWords) (hts : Trails ts us) :
    Trails (.exec (.leaf (.keyword word)) :: ts) us
  | move {action : Action} {ts us : List Task} (h : action.isPen = true) (hts : Trails ts us) :
    Trails (.act action :: ts) us
  | wait {ts us : List Task} (hts : Trails ts us) : Trails (.pace :: ts) us

namespace Trails

variable {ts us ts' us' : List Task}

lemma append (h : Trails ts us) (h' : Trails ts' us') : Trails (ts ++ ts') (us ++ us') := by
  induction h with
  | nil => exact h'
  | exec h hpen _ ih => exact .exec h hpen ih
  | act h _ ih => exact .act h ih
  | pace _ ih => exact .pace ih
  | rounds count h _ ih => exact .rounds count h ih
  | loop hcondition hbody _ ih => exact .loop hcondition hbody ih
  | leave _ ih => exact .leave ih
  | command h _ ih => exact .command h ih
  | move h _ ih => exact .move h ih
  | wait _ ih => exact .wait ih

/-- As many calls are left in one run as in the other. -/
lemma countP_isLeave (h : Trails ts us) : ts.countP Task.isLeave = us.countP Task.isLeave := by
  induction h with
  | nil => rfl
  | _ => simpa [List.countP_cons, Task.isLeave] using ‹_›

lemma block {body : Node} (h : Shaped .block body) : Trails [.exec body] [.exec body.penless] := by
  have hpen : body.isPen = false := by
    cases h
    rfl
  exact .exec (executable_block h) hpen .nil

/-- The commands of a block, without those of the pen. -/
lemma commands {cs : List Node} (h : ∀ c ∈ cs, Shaped .command c) :
    Trails (cs.map .exec) (((cs.filter fun c => !c.isPen).map Node.penless).map .exec) := by
  induction cs with
  | nil => exact .nil
  | cons c cs ih =>
    obtain ⟨hc, hcs⟩ := List.forall_mem_cons.1 h
    cases hpen : c.isPen with
    | true =>
      obtain ⟨word, hw, rfl⟩ := Node.exists_eq_leaf_of_isPen hc hpen
      rw [List.filter_cons_of_neg (by simp [hpen])]
      exact .command hw (ih hcs)
    | false =>
      rw [List.filter_cons_of_pos (by simp [hpen])]
      exact .exec (executable_command hc) hpen (ih hcs)

end Trails

/-! ## Interpreters of both runs -/

/-- The relation is between actuators that are at the same place, whatever both are asked to do and
whatever the first one is asked to do with its pen. -/
structure PenBlind [Actuator A] [Actuator B] (P : A → B → Prop) : Prop where
  x {a b} : P a b → Actuator.x a = Actuator.x b
  y {a b} : P a b → Actuator.y a = Actuator.y b
  perform {a b} {action : Action} : P a b → action.isPen = false →
    P (Actuator.perform action a) (Actuator.perform action b)
  move {a b} {action : Action} : P a b → action.isPen = true → P (Actuator.perform action a) b

/-- Interpreters with the same variables and flags, and with related actuators.  The procedures of
the second one are those of the first one without pen commands. -/
structure Interpreter.PenApart (P : A → B → Prop) (i : Interpreter A) (j : Interpreter B) :
    Prop where
  actuator : P i.actuator j.actuator
  control : i.control = j.control
  scope : i.scope = j.scope
  find? (name : String) :
    j.procedures.find? name = (i.procedures.find? name).map Procedure.penless
  body {name : String} {procedure : Procedure} :
    i.procedures.find? name = some procedure → Shaped .block procedure.body

namespace Interpreter.PenApart

variable {P : A → B → Prop} {i : Interpreter A} {j : Interpreter B}

lemma surroundings [Actuator A] [Actuator B] (hP : PenBlind P) (h : PenApart P i j) :
    i.surroundings = j.surroundings := by
  rw [Interpreter.surroundings, Interpreter.surroundings, hP.x h.actuator, hP.y h.actuator, h.scope]

lemma withScope (h : PenApart P i j) (change : Scope → Scope) :
    PenApart P { i with scope := change i.scope } { j with scope := change j.scope } :=
  ⟨h.actuator, h.control, congrArg change h.scope, h.find?, h.body⟩

lemma withActuator (h : PenApart P i j) {a : A} {b : B} (hab : P a b) :
    PenApart P { i with actuator := a } { j with actuator := b } :=
  ⟨hab, h.control, h.scope, h.find?, h.body⟩

lemma register (h : PenApart P i j) (name : String) {procedure : Procedure}
    (hbody : Shaped .block procedure.body) :
    PenApart P { i with procedures := i.procedures.insert name procedure }
      { j with procedures := j.procedures.insert name procedure.penless } where
  actuator := h.actuator
  control := h.control
  scope := h.scope
  find? other := by
    by_cases hname : other = name
    · subst hname
      simp
    · rw [Table.find?_insert_of_ne _ _ hname, Table.find?_insert_of_ne _ _ hname, h.find?]
  body {other p} hfind := by
    by_cases hname : other = name
    · subst hname
      obtain rfl : procedure = p := by simpa using hfind
      exact hbody
    · rw [Table.find?_insert_of_ne _ _ hname] at hfind
      exact h.body hfind

end Interpreter.PenApart

/-! ## Effects of both runs -/

namespace Effect

variable {α β : Type}

/-- Two effects that end alike wherever they start from related interpreters: with related answers,
or with the same error. -/
def Corresponds (R : Interpreter A → Interpreter B → Prop) (Q : α → β → Prop) (x : Effect A α)
    (y : Effect B β) : Prop :=
  ∀ i j, R i j → (∃ v w i' j', x i = .ok v i' ∧ y j = .ok w j' ∧ Q v w ∧ R i' j') ∨
    ∃ e i' j', x i = .error e i' ∧ y j = .error e j' ∧ R i' j'

section Rules

variable {γ : Type} {R : Interpreter A → Interpreter B → Prop} {Q : α → β → Prop}

lemma corresponds_pure {v : α} {w : β} (h : Q v w) :
    Corresponds R Q (pure v : Effect A α) (pure w) :=
  fun i j hij => .inl ⟨v, w, i, j, rfl, rfl, h, hij⟩

lemma corresponds_throw (e : RuntimeError) :
    Corresponds R Q (throw e : Effect A α) (throw e) :=
  fun i j hij => .inr ⟨e, i, j, rfl, rfl, hij⟩

/-- Taking apart a node that has the children it must have. -/
lemma parallel_children {v w : γ} {f : γ → Effect A α} {g : γ → Effect B α}
    (h : Parallel R (f v) (g w)) : Parallel R (lift (.ok v) >>= f) (lift (.ok w) >>= g) := h

lemma corresponds_children {v w : γ} {f : γ → Effect A α} {g : γ → Effect B β}
    (h : Corresponds R Q (f v) (g w)) :
    Corresponds R Q (lift (.ok v) >>= f) (lift (.ok w) >>= g) := h

lemma corresponds_throw_bind (e : RuntimeError) {f : γ → Effect A α} {g : γ → Effect B β} :
    Corresponds R Q (throw e >>= f) (throw e >>= g) :=
  fun i j hij => .inr ⟨e, i, j, rfl, rfl, hij⟩

/-- What comes behind effects with the same answer. -/
lemma Parallel.corresponds_bind {x : Effect A γ} {y : Effect B γ} {f : γ → Effect A α}
    {g : γ → Effect B β} (h : Parallel R x y) (hf : ∀ v, Corresponds R Q (f v) (g v)) :
    Corresponds R Q (x >>= f) (y >>= g) := by
  intro i j hij
  rw [bind_apply, bind_apply]
  rcases (h i j hij).cases with ⟨v, i', j', hx, hy, hij'⟩ | ⟨e, i', j', hx, hy, hij'⟩
  · rw [hx, hy]
    exact hf v i' j' hij'
  · rw [hx, hy]
    exact .inr ⟨e, i', j', rfl, rfl, hij'⟩

/-- What two effects do with the interpreters they read. -/
lemma corresponds_get_bind {f : Interpreter A → Effect A α} {g : Interpreter B → Effect B β}
    (h : ∀ i j, R i j → Corresponds R Q (f i) (g j)) : Corresponds R Q (get >>= f) (get >>= g) :=
  fun i j hij => h i j hij i j hij

end Rules

lemma corresponds_paced {R : Interpreter A → Interpreter B → Prop} {action : Action}
    (h : action.isPen = false) : Corresponds R Trails (pure (paced action)) (pure (paced action)) :=
  corresponds_pure (.act h (.pace .nil))

/-- A definition gives the same procedure, without pen commands. -/
lemma ofDefinition_penless {d : Node} (h : Shaped .definition d) :
    ∃ name procedure, Procedure.ofDefinition d = .ok (name, procedure) ∧
      Procedure.ofDefinition d.penless = .ok (name, procedure.penless) ∧
      Shaped .block procedure.body := by
  cases h with
  | @definition x xs b _ _ hb =>
    have hdef : (Token.keyword "def").text ≠ "block" := by decide
    have hheader : (Token.keyword "header").text ≠ "block" := by decide
    have hlist : (Token.keyword "list").text ≠ "block" := by decide
    refine ⟨x.text, ⟨(xs.map Tree.leaf).map Node.text, b⟩, rfl, ?_, hb⟩
    simp only [Node.penless_node hdef, Node.penless_node hheader, Node.penless_node hlist,
      List.map_cons, List.map_nil, Node.penless_leaf, Node.map_penless_leaves]
    rfl

/-- The procedures are registered without pen commands. -/
lemma parallel_register_penless {P : A → B → Prop} {ds : List Node}
    (h : ∀ d ∈ ds, Shaped .definition d) :
    Parallel (Interpreter.PenApart P) (register ds) (register (ds.map Node.penless)) := by
  induction ds with
  | nil => exact parallel_pure ()
  | cons d ds ih =>
    obtain ⟨hd, hds⟩ := List.forall_mem_cons.1 h
    obtain ⟨name, procedure, hentry, hentry', hbody⟩ := ofDefinition_penless hd
    rw [List.map_cons, register, register, hentry, hentry']
    exact parallel_children
      ((parallel_modify fun _ _ h => h.register name hbody).bind fun _ => ih hds)

section Commands

variable [Actuator A] [Actuator B] {P : A → B → Prop} (hP : PenBlind P)
variable {t : Token} {x y z b c : Node}
include hP

lemma corresponds_expression_bind (e : Node) {f : Float → Effect A (List Task)}
    {g : Float → Effect B (List Task)}
    (h : ∀ value, Corresponds (Interpreter.PenApart P) Trails (f value) (g value)) :
    Corresponds (Interpreter.PenApart P) Trails (expression e >>= f) (expression e >>= g) :=
  (parallel_expression (fun h => h.surroundings hP) e).corresponds_bind h

lemma corresponds_move {action : Float → Action} (haction : ∀ value, (action value).isPen = false) :
    Corresponds (Interpreter.PenApart P) Trails (move (.node t [x]) action)
      (move (.node t [x]) action) :=
  corresponds_expression_bind hP x fun value => corresponds_paced (haction value)

lemma corresponds_color :
    Corresponds (Interpreter.PenApart P) Trails (color (.node t [x, y, z]))
      (color (.node t [x, y, z])) :=
  corresponds_expression_bind hP x fun _ => corresponds_expression_bind hP y fun _ =>
    corresponds_expression_bind hP z fun _ => (parallel_lift _).corresponds_bind fun _ =>
    (parallel_lift _).corresponds_bind fun _ => (parallel_lift _).corresponds_bind fun _ =>
    corresponds_paced rfl

lemma corresponds_jump :
    Corresponds (Interpreter.PenApart P) Trails (jump (.node t [x, y])) (jump (.node t [x, y])) :=
  corresponds_expression_bind hP x fun _ => corresponds_expression_bind hP y fun _ =>
    corresponds_paced rfl

lemma corresponds_assignment {name : Token} (hname : name.kind = .name) :
    Corresponds (Interpreter.PenApart P) Trails (assignment (.node t [.leaf name, x]))
      (assignment (.node t [.leaf name, x])) := by
  have hkind : ¬ name.kind ≠ .name := not_not.2 hname
  change Corresponds _ _ (if name.kind ≠ .name then _ else _) (if name.kind ≠ .name then _ else _)
  rw [if_neg hkind, if_neg hkind]
  refine corresponds_expression_bind hP x fun value => ?_
  exact (parallel_modify fun _ _ h => h.withScope (Scope.store · _ value)).corresponds_bind fun _ =>
    corresponds_pure .nil

lemma corresponds_repetition (hb : Shaped .block b) :
    Corresponds (Interpreter.PenApart P) Trails (repetition (.node t [x, b]))
      (repetition (.node t [x, b.penless])) :=
  corresponds_expression_bind hP x fun _ => (parallel_lift _).corresponds_bind fun count =>
    corresponds_pure (.rounds count.toNat hb .nil)

omit [Actuator A] [Actuator B] hP in
lemma corresponds_whileLoop (hx : Shaped .condition x) (hb : Shaped .block b) :
    Corresponds (Interpreter.PenApart P) Trails (whileLoop (.node t [x, b]))
      (whileLoop (.node t [x, b.penless])) :=
  corresponds_pure (.loop hx hb .nil)

lemma corresponds_choice (t : Token) (hb : Shaped .block b) :
    Corresponds (Interpreter.PenApart P) Trails (choice (.node t [x, b]))
      (choice (.node t [x, b.penless])) := by
  refine (parallel_condition (fun h => h.surroundings hP) x).corresponds_bind fun holds => ?_
  cases holds
  · exact corresponds_pure .nil
  · exact corresponds_pure (.block hb)

lemma corresponds_choiceElse (t : Token) (hb : Shaped .block b) (hc : Shaped .block c) :
    Corresponds (Interpreter.PenApart P) Trails (choice (.node t [x, b, c]))
      (choice (.node t [x, b.penless, c.penless])) := by
  refine (parallel_condition (fun h => h.surroundings hP) x).corresponds_bind fun holds => ?_
  cases holds
  · exact corresponds_pure (.block hc)
  · exact corresponds_pure (.block hb)

lemma corresponds_call {callee list : Node} :
    Corresponds (Interpreter.PenApart P) Trails (call (.node t [callee, list]))
      (call (.node t [callee, list])) := by
  refine corresponds_children (corresponds_get_bind fun i j h => ?_)
  have hfind := h.find? (Node.text callee)
  cases hprocedure : i.procedures.find? (Node.text callee) with
  | none =>
    rw [hprocedure, Option.map_none] at hfind
    simp only [hfind]
    exact corresponds_throw _
  | some procedure =>
    rw [hprocedure, Option.map_some] at hfind
    have hparameters : procedure.penless.parameters = procedure.parameters := rfl
    simp only [hfind, hparameters, h.scope]
    split
    · exact corresponds_throw_bind _
    · refine (parallel_bind (fun h => h.surroundings hP) _ _).corresponds_bind fun frame => ?_
      split
      · exact corresponds_throw_bind _
      · refine (parallel_modify fun _ _ h => h.withScope (Scope.push · frame)).corresponds_bind
          fun _ => ?_
        exact corresponds_pure ((Trails.block (h.body hprocedure)).append (.leave .nil))

/-- A node that is no pen command, and the node without its pen commands, do the same. -/
theorem corresponds_exec {node : Node} (h : Executable node) (hpen : node.isPen = false) :
    Corresponds (Interpreter.PenApart P) Trails (exec node) (exec node.penless) := by
  have hword {word : String} (hw : word ≠ "block") (cs : List Node) :
      Node.penless (.node (.keyword word) cs) = .node (.keyword word) (cs.map Node.penless) :=
    Node.penless_node hw cs
  obtain ⟨part, hpart, hshaped⟩ := h
  cases hshaped with
  | @script b ds hb hds =>
    rw [hword (by decide), List.map_cons, List.map_singleton, hword (by decide)]
    exact corresponds_children ((parallel_register_penless hds).corresponds_bind fun _ =>
      corresponds_pure (.block hb))
  | @block cs hcs =>
    rw [Node.penless_block]
    exact corresponds_pure (.commands hcs)
  | @move word x hw hx =>
    have hmove : ∀ word ∈ moveWords, word ≠ "block" := by decide
    rw [hword (hmove word hw), List.map_singleton, Node.penless_expression hx]
    simp only [moveWords, List.mem_cons, List.not_mem_nil, or_false] at hw
    rcases hw with rfl | rfl | rfl | rfl
    · exact corresponds_move hP fun _ => rfl
    · exact corresponds_move hP fun _ => rfl
    · exact corresponds_move hP fun _ => rfl
    · exact corresponds_move hP fun _ => rfl
  | @bare word hw =>
    rw [Node.penless_leaf]
    simp only [bareWords, List.mem_cons, List.not_mem_nil, or_false] at hw
    rcases hw with rfl | rfl | rfl
    · exact absurd hpen (by decide)
    · exact absurd hpen (by decide)
    · exact corresponds_paced rfl
  | color hr hg hb =>
    rw [hword (by decide), List.map_cons, List.map_cons, List.map_singleton,
      Node.penless_expression hr, Node.penless_expression hg, Node.penless_expression hb]
    exact corresponds_color hP
  | jump hx hy =>
    rw [hword (by decide), List.map_cons, List.map_singleton, Node.penless_expression hx,
      Node.penless_expression hy]
    exact corresponds_jump hP
  | assignment hx ht =>
    rw [hword (by decide), List.map_cons, List.map_singleton, Node.penless_leaf,
      Node.penless_expression ht]
    exact corresponds_assignment hP hx
  | repetition ht hb =>
    rw [hword (by decide), List.map_cons, List.map_singleton, Node.penless_expression ht]
    exact corresponds_repetition hP hb
  | whileLoop ht hb =>
    rw [hword (by decide), List.map_cons, List.map_singleton, Node.penless_condition ht]
    exact corresponds_whileLoop ht hb
  | choice ht hb =>
    rw [hword (by decide), List.map_cons, List.map_singleton, Node.penless_condition ht]
    exact corresponds_choice hP (.keyword "if") hb
  | choiceElse ht hb hc =>
    rw [hword (by decide), List.map_cons, List.map_cons, List.map_singleton,
      Node.penless_condition ht]
    exact corresponds_choiceElse hP (.keyword "if") hb hc
  | call hx hts =>
    rw [hword (by decide), List.map_cons, List.map_singleton, Node.penless_leaf,
      hword (by decide), Node.map_penless_expressions hts]
    exact corresponds_call hP
  | _ => simp at hpart

end Commands

end Effect

/-! ## Machines of both runs -/

/-- How far the first run has come when the other one has come as far as told. -/
inductive Progress.Trails : Progress → Progress → Prop
  | working {ts us : List Task} (h : Logo.Trails ts us) : Trails (.working ts) (.working us)
  | finished (outcome : Outcome) : Trails (.finished outcome) (.finished outcome)
  | failed (e : RuntimeError) : Trails (.failed e) (.failed e)

/-- How many steps a task is away from being done, if it has to do with the pen or is a wait. -/
def Task.lag : Task → Nat
  | .exec node => if node.isPen then 3 else 0
  | .act _ | .pace => 1
  | _ => 0

namespace Machine

/-- A run and the run without pen commands, where the first one may be about to do something that
has to do with the pen. -/
structure Trailing (P : A → B → Prop) (m : Machine A) (m' : Machine B) : Prop where
  interpreter : m.interpreter.PenApart P m'.interpreter
  progress : m.progress.Trails m'.progress

/-- A bound on the steps that the first run takes alone. -/
def lag (m : Machine A) : Nat := (m.progress.pending.map Task.lag).sum

variable {P : A → B → Prop} {i : Interpreter A} {j : Interpreter B} {ts us : List Task}

lemma lag_command {word : String} (hw : word ∈ penWords) :
    lag (⟨i, .working (.exec (.leaf (.keyword word)) :: ts)⟩ : Machine A) =
      3 + (ts.map Task.lag).sum := by
  have hfirst : Task.lag (.exec (.leaf (.keyword word))) = 3 := if_pos (decide_eq_true hw)
  rw [lag, Progress.pending_working, List.map_cons, List.sum_cons, hfirst]

/-- An error ends both runs. -/
lemma trailing_fail (h : i.PenApart P j) (hts : Trails ts us) (p p' : Progress) (e : RuntimeError) :
    Trailing P (fail ⟨i, p⟩ e ts) (fail ⟨j, p'⟩ e us) := by
  refine ⟨?_, .failed e⟩
  rw [fail, fail, Interpreter.unwind, Interpreter.unwind, hts.countP_isLeave]
  exact h.withScope (Scope.pop · _)

variable [Actuator A]

/-- The first run leaves the action of a pen command, and a wait. -/
lemma trailing_command (h : i.PenApart P j) (hts : Trails ts us) {word : String}
    (hw : word ∈ penWords) (p : Progress) :
    let m := perform ⟨i, p⟩ ts (.exec (.leaf (.keyword word)))
    m.lag < lag (⟨i, .working (.exec (.leaf (.keyword word)) :: ts)⟩ : Machine A) ∧
      Trailing P m ⟨j, .working us⟩ := by
  have hexec : ∃ action : Action, action.isPen = true ∧
      Effect.exec (.leaf (.keyword word)) i = .ok (Effect.paced action) i := by
    simp only [penWords, List.mem_cons, List.not_mem_nil, or_false] at hw
    rcases hw with rfl | rfl
    · exact ⟨.penUp, rfl, rfl⟩
    · exact ⟨.penDown, rfl, rfl⟩
  obtain ⟨action, haction, hexec⟩ := hexec
  rw [lag_command hw]
  simp only [perform, hexec]
  split
  · refine ⟨?_, h, .working (.move haction (.wait hts))⟩
    simp only [lag, Effect.paced, Progress.pending_working, List.map_append, List.map_cons,
      List.map_nil, List.sum_append, List.sum_cons, List.sum_nil, Task.lag]
    omega
  · refine ⟨?_, h, .working hts⟩
    simp only [lag, withTasks, Progress.pending_working]
    omega

variable [Actuator B]

lemma trailing_exec (hP : PenBlind P) (h : i.PenApart P j) (hts : Trails ts us) {node : Node}
    (hnode : Executable node) (hpen : node.isPen = false) (p p' : Progress) :
    Trailing P (perform ⟨i, p⟩ ts (.exec node)) (perform ⟨j, p'⟩ us (.exec node.penless)) := by
  rw [perform, perform]
  simp only [h.control]
  split
  · rcases Effect.corresponds_exec hP hnode hpen i j h with
      ⟨first, second, i', j', hi, hj, hleft, hij'⟩ | ⟨e, i', j', hi, hj, hij'⟩
    · rw [hi, hj]
      exact ⟨hij', .working (hleft.append hts)⟩
    · rw [hi, hj]
      exact trailing_fail hij' hts _ _ e
  · exact ⟨h, .working hts⟩

lemma trailing_rounds (h : i.PenApart P j) (hts : Trails ts us) (count : Nat) {body : Node}
    (hbody : Shaped .block body) (p p' : Progress) :
    Trailing P (perform ⟨i, p⟩ ts (.rounds count body))
      (perform ⟨j, p'⟩ us (.rounds count body.penless)) := by
  cases count with
  | zero => exact ⟨h, .working hts⟩
  | succ count =>
    rw [perform, perform]
    simp only [h.control]
    split
    · exact ⟨h, .working ((Trails.block hbody).append (.rounds count hbody hts))⟩
    · exact ⟨h, .working hts⟩

lemma trailing_loop (hP : PenBlind P) (h : i.PenApart P j) (hts : Trails ts us)
    {condition body : Node} (hcondition : Shaped .condition condition) (hbody : Shaped .block body)
    (p p' : Progress) :
    Trailing P (perform ⟨i, p⟩ ts (.loop condition body))
      (perform ⟨j, p'⟩ us (.loop condition body.penless)) := by
  rw [perform, perform]
  simp only [h.control, h.surroundings hP]
  split
  · split
    · exact ⟨h, .working ((Trails.block hbody).append (.loop hcondition hbody hts))⟩
    · exact ⟨h, .working hts⟩
    · exact trailing_fail h hts _ _ _
  · exact ⟨h, .working hts⟩

lemma step_pace {m : Machine A} {rest : List Task} (h : m.progress = .working (.pace :: rest)) :
    m.step = if m.interpreter.control.holds then m else m.withTasks rest := by
  rw [step, h]
  rfl

/-- A step of a run is one of the run without pen commands, unless it has to do with the pen.  Then
the first run gets closer to the other one, if it is not held. -/
theorem trailing_step (hP : PenBlind P) {m : Machine A} {m' : Machine B} (h : Trailing P m m') :
    Trailing P m.step m'.step ∨
      Trailing P m.step m' ∧ (m.interpreter.control.holds = false → m.step.lag < m.lag) := by
  obtain ⟨i, p⟩ := m
  obtain ⟨j, p'⟩ := m'
  obtain ⟨hij, hprogress⟩ := h
  have hsame : i.control = j.control := hij.control
  cases hprogress with
  | finished outcome => exact .inl ⟨hij, .finished outcome⟩
  | failed e => exact .inl ⟨hij, .failed e⟩
  | working hts =>
    cases hts with
    | nil =>
      simp only [step, hsame]
      exact .inl ⟨hij, .finished _⟩
    | exec hnode hpen hts => exact .inl (trailing_exec hP hij hts hnode hpen _ _)
    | act haction hts =>
      exact .inl ⟨hij.withActuator (hP.perform hij.actuator haction), .working hts⟩
    | pace hts =>
      left
      rw [step_pace rfl, step_pace rfl]
      simp only [hsame]
      split
      · exact ⟨hij, .working (.pace hts)⟩
      · exact ⟨hij, .working hts⟩
    | rounds count hbody hts => exact .inl (trailing_rounds hij hts count hbody _ _)
    | loop hcondition hbody hts => exact .inl (trailing_loop hP hij hts hcondition hbody _ _)
    | leave hts => exact .inl ⟨hij.withScope (Scope.pop · 1), .working hts⟩
    | @command word ts _ hw hts =>
      obtain ⟨hless, htrailing⟩ := trailing_command hij hts hw
        (.working (.exec (.leaf (.keyword word)) :: ts))
      exact .inr ⟨htrailing, fun _ => hless⟩
    | move haction hts =>
      refine .inr ⟨⟨hij.withActuator (hP.move hij.actuator haction), .working hts⟩, fun _ => ?_⟩
      simp [lag, step, perform, Task.lag]
    | wait hts =>
      right
      rw [step_pace rfl]
      split
      · rename_i hholds
        exact ⟨⟨hij, .working (.wait hts)⟩, fun hfree => by simp [hfree] at hholds⟩
      · refine ⟨⟨hij, .working hts⟩, fun _ => ?_⟩
        simp [lag, withTasks, Task.lag]

/-! ## Runs -/

omit [Actuator B] in
lemma run_succ (fuel : Nat) (m : Machine A) : run (fuel + 1) m = run fuel m.step := by
  rw [run_eq_iterate, run_eq_iterate, Function.iterate_succ_apply]

omit [Actuator B] in
lemma control_run (fuel : Nat) (m : Machine A) :
    (run fuel m).interpreter.control = m.interpreter.control := by
  induction fuel generalizing m with
  | zero => rfl
  | succ fuel ih => rw [run_succ, ih, control_step]

/-- The other run can keep up with the first one. -/
lemma exists_trailing_run (hP : PenBlind P) {m : Machine A} {m' : Machine B} (h : Trailing P m m')
    (fuel : Nat) : ∃ fuel', Trailing P (run fuel m) (run fuel' m') := by
  induction fuel generalizing m m' with
  | zero => exact ⟨0, h⟩
  | succ fuel ih =>
    rw [run_succ]
    rcases trailing_step hP h with hboth | ⟨halone, -⟩
    · obtain ⟨fuel', hrun⟩ := ih hboth
      exact ⟨fuel' + 1, by rwa [run_succ]⟩
    · exact ih halone

/-- The first run takes no more steps alone than it lags behind. -/
lemma exists_trailing_step (hP : PenBlind P) {m : Machine A} {m' : Machine B}
    (h : Trailing P m m') (hfree : m.interpreter.control.holds = false) :
    ∃ fuel, Trailing P (run fuel m) m'.step := by
  rcases trailing_step hP h with hboth | ⟨halone, hlag⟩
  · exact ⟨1, by rwa [run_succ]⟩
  · have hless : m.step.lag < m.lag := hlag hfree
    have hfree' : m.step.interpreter.control.holds = false := by rwa [control_step]
    obtain ⟨fuel, hrun⟩ := exists_trailing_step hP halone hfree'
    exact ⟨fuel + 1, by rwa [run_succ]⟩
termination_by m.lag

/-- The first run can keep up with the other one, if it is not held. -/
lemma exists_run_trailing (hP : PenBlind P) {m : Machine A} {m' : Machine B} (h : Trailing P m m')
    (hfree : m.interpreter.control.holds = false) (fuel' : Nat) :
    ∃ fuel, Trailing P (run fuel m) (run fuel' m') := by
  induction fuel' generalizing m m' with
  | zero => exact ⟨0, h⟩
  | succ fuel' ih =>
    obtain ⟨first, hfirst⟩ := exists_trailing_step hP h hfree
    have hfree' : (run first m).interpreter.control.holds = false := by rwa [control_run]
    obtain ⟨second, hsecond⟩ := ih hfirst hfree'
    exact ⟨first + second, by rwa [run_add, run_succ]⟩

end Machine

/-! ## Turtles -/

/-- Whether an entry of a drawing log is a color. -/
def DrawCommand.isColor : DrawCommand → Bool
  | .color _ => true
  | .line _ _ => false

/-- The first drawing log is the second one without some of its lines. -/
structure Thinned (log log' : Array DrawCommand) : Prop where
  sublist : log.toList.Sublist log'.toList
  colors : log.toList.filter DrawCommand.isColor = log'.toList.filter DrawCommand.isColor

namespace Thinned

variable {log log' : Array DrawCommand}

lemma refl (log : Array DrawCommand) : Thinned log log := ⟨List.Sublist.refl _, rfl⟩

lemma push (h : Thinned log log') (command : DrawCommand) :
    Thinned (log.push command) (log'.push command) :=
  ⟨by simpa using h.sublist, by simp [h.colors]⟩

lemma push_line (h : Thinned log log') (start stop : Point) :
    Thinned log (log'.push (.line start stop)) := by
  constructor
  · rw [Array.toList_push]
    exact h.sublist.trans (List.sublist_append_left _ _)
  · simp [h.colors, DrawCommand.isColor]

end Thinned

/-- The first turtle is where the second one is, whose pen is down, and has drawn some of its lines.
-/
structure Turtle.Shadows (t u : Turtle) : Prop where
  position : t.position = u.position
  heading : t.heading = u.heading
  width : t.canvas.width = u.canvas.width
  height : t.canvas.height = u.canvas.height
  pose : t.canvas.pose = u.canvas.pose
  pen : u.penIsDown = true
  log : Thinned t.canvas.commands u.canvas.commands

namespace Turtle.Shadows

variable {t u : Turtle} {action : Action}

lemma perform (h : t.Shadows u) (haction : action.isPen = false) :
    (Turtle.perform action t).Shadows (Turtle.perform action u) := by
  obtain ⟨⟨width, height, log, pose⟩, position, heading, pen⟩ := t
  obtain ⟨⟨width', height', log', pose'⟩, position', heading', pen'⟩ := u
  obtain ⟨hposition, hheading, hwidth, hheight, hpose, hpen, hlog⟩ := h
  dsimp only at hposition hheading hwidth hheight hpose hpen hlog
  subst hposition hheading hwidth hheight hpose hpen
  cases action with
  | forward distance =>
    cases pen with
    | false => exact ⟨rfl, rfl, rfl, rfl, rfl, rfl, hlog.push_line _ _⟩
    | true => exact ⟨rfl, rfl, rfl, rfl, rfl, rfl, hlog.push _⟩
  | right degrees => exact ⟨rfl, rfl, rfl, rfl, rfl, rfl, hlog⟩
  | left degrees => exact ⟨rfl, rfl, rfl, rfl, rfl, rfl, hlog⟩
  | face degrees => exact ⟨rfl, rfl, rfl, rfl, rfl, rfl, hlog⟩
  | penUp => cases haction
  | penDown => cases haction
  | home => exact ⟨rfl, rfl, rfl, rfl, rfl, rfl, hlog⟩
  | jump x y => exact ⟨rfl, rfl, rfl, rfl, rfl, rfl, hlog⟩
  | color rgb => exact ⟨rfl, rfl, rfl, rfl, rfl, rfl, hlog.push _⟩

/-- The pen of the first turtle may be moved alone. -/
lemma move (h : t.Shadows u) (haction : action.isPen = true) :
    (Turtle.perform action t).Shadows u := by
  cases action with
  | penUp | penDown => exact ⟨h.position, h.heading, h.width, h.height, h.pose, h.pen, h.log⟩
  | _ => cases haction

lemma refl (h : t.penIsDown = true) : t.Shadows t :=
  ⟨rfl, rfl, rfl, rfl, rfl, h, .refl _⟩

end Turtle.Shadows

/-- The first recorded turtle goes the way of the second one.  What they were asked to do differs in
actions of the pen, of which there are none on the side of the second one. -/
structure Recorder.Shadows (a b : Recorder Turtle) : Prop where
  inner : a.inner.Shadows b.inner
  calls : a.calls.toList.filter (fun action => !action.isPen) = b.calls.toList

lemma Turtle.Shadows.x {t u : Turtle} (h : t.Shadows u) : Actuator.x t = Actuator.x u := by
  have hcenter : t.canvas.center = u.canvas.center := by
    rw [Canvas.center, Canvas.center, h.width, h.height]
  change t.position.x - t.canvas.center.x = u.position.x - u.canvas.center.x
  rw [h.position, hcenter]

lemma Turtle.Shadows.y {t u : Turtle} (h : t.Shadows u) : Actuator.y t = Actuator.y u := by
  have hcenter : t.canvas.center = u.canvas.center := by
    rw [Canvas.center, Canvas.center, h.width, h.height]
  change t.canvas.center.y - t.position.y = u.canvas.center.y - u.position.y
  rw [h.position, hcenter]

lemma Recorder.penBlind_shadows : PenBlind Recorder.Shadows where
  x h := h.inner.x
  y h := h.inner.y
  perform {a b action} h haction := by
    refine ⟨h.inner.perform haction, ?_⟩
    simp [Actuator.perform, List.filter_append, haction, h.calls]
  move {a b action} h haction := by
    refine ⟨h.inner.move haction, ?_⟩
    simp [Actuator.perform, List.filter_append, haction, h.calls]

namespace Machine

/-- Two runs that differ in what the pen decides: the first one may have moved the pen, and has
drawn some of the lines of the second one.  Nothing else differs: neither the variables nor where
the turtle is, nor how the runs end. -/
structure SameButPen (m m' : Machine (Recorder Turtle)) : Prop where
  halted : m.halted = m'.halted
  progress : m.halted = true → m.progress = m'.progress
  scope : m.interpreter.scope = m'.interpreter.scope
  position : m.interpreter.actuator.inner.position = m'.interpreter.actuator.inner.position
  heading : m.interpreter.actuator.inner.heading = m'.interpreter.actuator.inner.heading
  pose : m.interpreter.actuator.inner.canvas.pose = m'.interpreter.actuator.inner.canvas.pose
  calls : m.calls.filter (fun action => !action.isPen) = m'.calls
  log : Thinned m.interpreter.actuator.inner.canvas.commands
    m'.interpreter.actuator.inner.canvas.commands

lemma Trailing.sameButPen {m m' : Machine (Recorder Turtle)} (h : Trailing Recorder.Shadows m m') :
    SameButPen m m' := by
  obtain ⟨i, progress⟩ := m
  obtain ⟨j, progress'⟩ := m'
  obtain ⟨hij, hprogress⟩ := h
  have hhalted : (⟨i, progress⟩ : Machine (Recorder Turtle)).halted = halted ⟨j, progress'⟩ := by
    cases hprogress <;> rfl
  have hend : (⟨i, progress⟩ : Machine (Recorder Turtle)).halted = true → progress = progress' := by
    cases hprogress with
    | working _ => exact nofun
    | finished _ | failed _ => exact fun _ => rfl
  have hinner := hij.actuator.inner
  exact ⟨hhalted, hend, hij.scope, hinner.position, hinner.heading, hinner.pose,
    hij.actuator.calls, hinner.log⟩

/-- At the start, both runs are about to go home and to run the script. -/
lemma trailing_ofProgram {P : A → B → Prop} {a : A} {b : B} (hab : P a b) (control : RunControl)
    {t : Node} (h : Shaped .script t) :
    Trailing P (ofProgram (.new a control) t) (ofProgram (.new b control) t.penless) := by
  have hpen : t.isPen = false := by
    cases h
    rfl
  have hexecutable : Executable t := ⟨.script, by decide, h⟩
  refine ⟨⟨hab, rfl, rfl, fun _ => rfl, nofun⟩, ?_⟩
  exact .working (.act rfl (.exec hexecutable hpen .nil))

/-- The pen decides which lines are drawn, and nothing else.  However far a parsed script is run on
a fresh turtle, the script without pen commands gets as far: with the same variables, and with a
turtle that goes the same way and draws all of its lines.  The other way round it is the same unless
the control holds the script at a pen command for good.  So both end alike, if at all. -/
theorem sameButPen_of_parse {source : String} {t : Node} (hparse : parse source = .ok t)
    (canvas : Canvas) (control : RunControl) :
    let i : Interpreter (Recorder Turtle) := .new (.new (.new canvas)) control
    let m (fuel : Nat) := run fuel (ofProgram i t)
    let m' (fuel : Nat) := run fuel (ofProgram i t.penless)
    (∀ fuel, ∃ fuel', SameButPen (m fuel) (m' fuel')) ∧
      (control.holds = false → ∀ fuel', ∃ fuel, SameButPen (m fuel) (m' fuel')) := by
  intro i m m'
  have hfresh : Recorder.Shadows (.new (.new canvas)) (.new (.new canvas)) := ⟨.refl rfl, rfl⟩
  have hstart : Trailing Recorder.Shadows (ofProgram i t) (ofProgram i t.penless) :=
    trailing_ofProgram hfresh control (parse_sound hparse).shaped
  constructor
  · intro fuel
    obtain ⟨fuel', h⟩ := exists_trailing_run Recorder.penBlind_shadows hstart fuel
    exact ⟨fuel', h.sameButPen⟩
  · intro hfree fuel'
    obtain ⟨fuel, h⟩ := exists_run_trailing Recorder.penBlind_shadows hstart hfree fuel'
    exact ⟨fuel, h.sameButPen⟩

/-- The turtle is sent home twice, first with its pen up. -/
theorem sameButPen_of_parse_home :
    let source := "penup\nhome\npendown\nhome\n"
    let word (text : String) : Node := .leaf (.keyword text)
    let program (commands : List Node) : Node := .node (.keyword "program")
      [.node (.keyword "block") commands, .leaf (.keyword "list")]
    let t : Node := program [word "penup", word "home", word "pendown", word "home"]
    let i : Interpreter (Recorder Turtle) := .new (.new (.new (.new 600 600))) (.ofSettings {})
    parse source = .ok t ∧ t.penless = program [word "home", word "home"] ∧
      (run 20 (ofProgram i t)).progress = .finished .completed ∧
      (run 20 (ofProgram i t)).calls = [.home, .penUp, .home, .penDown, .home] ∧
      (∃ fuel, (run fuel (ofProgram i t.penless)).progress = .finished .completed ∧
        (run fuel (ofProgram i t.penless)).calls = [.home, .home, .home]) ∧
      (RunControl.ofSettings {}).holds = false ∧
      ∃ fuel, SameButPen (run fuel (ofProgram i t)) (run 4 (ofProgram i t.penless)) := by
  intro source word program t i
  have hparse : parse source = .ok t := by decide +kernel
  have hpenless : t.penless = program [word "home", word "home"] := by decide +kernel
  have hrun : ∀ {A : Type} [Actuator A] (a : A),
      let m := run 20 (ofProgram (.new (Recorder.new a) (.ofSettings {})) t)
      m.progress = .finished .completed ∧
        m.calls = [.home, .penUp, .home, .penDown, .home] := by
    intro A _ a
    constructor <;> cbv
  obtain ⟨hprogress, hcalls⟩ := hrun (Turtle.new (.new 600 600))
  have hhalted : (run 20 (ofProgram i t)).halted = true := by
    rw [halted, hprogress]
  have hfree : (RunControl.ofSettings {}).holds = false := rfl
  obtain ⟨hforth, hback⟩ := sameButPen_of_parse hparse (.new 600 600) (.ofSettings {})
  obtain ⟨fuel, hsame⟩ := hforth 20
  have hhome := hsame.calls
  rw [hcalls] at hhome
  exact ⟨hparse, hpenless, hprogress, hcalls,
    ⟨fuel, (hsame.progress hhalted).symm.trans hprogress, hhome.symm⟩, hfree, hback hfree 4⟩

end Machine

end Logo
