import Logo.Proofs.Machine.Callers
import Logo.Proofs.Machine.Soundness
import Logo.Proofs.Token.Single

/-!
# User names are opaque

A machine looks at the texts of tokens and seldom at their kinds, and some of the texts that it looks
for are names that a script may choose: `program`, `block`, `list` and `header`.  So it is not obvious
that a procedure may as well be called `block`.  What makes it so is that a node of a parsed script is
executed only where a word of the grammar stands, and that texts of names are compared with each other
and with words that are no names.

A `Renaming` maps names to names and keeps different ones different.  It is carried over to tables, scopes,
errors, tasks and machines, and every construct is shown to commute with it.

* `Surroundings.value_renamed`: the value of an expression, by induction on its shape.
* `Effect.renamed_exec`: the execution of a node, by its congruence rules.
* `Machine.step_renamed`: a step of a machine whose tasks are in order.
* `Machine.play_renamed`: whatever happens to the run of a parsed script happens to the run of the
  renamed one, under the new names.
-/

namespace Logo

open Grammar

/-! ## Renamings -/

/-- The names that a script may choose. -/
abbrev Name : Type := {text : String // IsName text}

/-- A change of names that keeps different names different. -/
structure Renaming where
  /-- The new name of a name. -/
  name : Name → Name
  /-- Different names have different new names. -/
  injective : Function.Injective name

namespace Renaming

variable (r : Renaming) {s : String}

/-- The new text of a text.  Texts that are no names stay as they are. -/
def text (s : String) : String := if h : IsName s then r.name ⟨s, h⟩ else s

lemma text_of_isName (h : IsName s) : r.text s = r.name ⟨s, h⟩ := dif_pos h

lemma text_of_not_isName (h : ¬ IsName s) : r.text s = s := dif_neg h

/-- Names become names, and nothing else does. -/
lemma isName_text : IsName (r.text s) ↔ IsName s := by
  by_cases h : IsName s
  · rw [r.text_of_isName h]
    exact iff_of_true (r.name ⟨s, h⟩).2 h
  · rw [r.text_of_not_isName h]

theorem text_injective : Function.Injective r.text := by
  intro s s' heq
  by_cases h : IsName s
  · have h' : IsName s' := by rwa [← r.isName_text, ← heq, r.isName_text]
    rw [r.text_of_isName h, r.text_of_isName h'] at heq
    exact congrArg Subtype.val (r.injective (Subtype.ext heq))
  · have h' : ¬ IsName s' := by rwa [← r.isName_text, ← heq, r.isName_text]
    rwa [r.text_of_not_isName h, r.text_of_not_isName h'] at heq

/-- No name becomes a word of the language. -/
lemma text_eq_iff {word : String} (h : ¬ IsName word) : r.text s = word ↔ s = word := by
  have hword : r.text word = word := r.text_of_not_isName h
  constructor
  · intro heq
    exact r.text_injective (heq.trans hword.symm)
  · rintro rfl
    exact hword

/-! ## Scripts -/

/-- The token with its new text, if it is a name. -/
def token (t : Token) : Token := if t.kind = .name then ⟨.name, r.text t.text⟩ else t

/-- The node with new names in all of its tokens. -/
def node (node : Node) : Node := Tree.map r.token node

lemma token_of_name {t : Token} (h : t.kind = .name) : r.token t = ⟨.name, r.text t.text⟩ := if_pos h

lemma token_of_ne {t : Token} (h : t.kind ≠ .name) : r.token t = t := if_neg h

lemma kind_token (t : Token) : (r.token t).kind = t.kind := by
  unfold token
  split
  · rename_i h
    exact h.symm
  · rfl

@[simp] lemma node_node (t : Token) (children : List Node) :
    r.node (.node t children) = .node (r.token t) (children.map r.node) := by
  rw [node, Tree.map, Tree.mapList_eq_map]
  rfl

@[simp] lemma node_leaf (t : Token) : r.node (.leaf t) = .leaf (r.token t) := r.node_node t []

@[simp] lemma token_keyword (word : String) : r.token (.keyword word) = .keyword word := rfl

lemma token_symbol {texts : List String} {o : Token} (h : IsSymbol texts o) : r.token o = o :=
  r.token_of_ne (by simp [h.1])

/-- The leaves of parameters and of other names. -/
lemma map_node_leaf (xs : List Token) : (xs.map Tree.leaf).map r.node = (xs.map r.token).map .leaf := by
  simp

/-- A renamed script has the shape of the script. -/
theorem shaped_node {part : Part} {t : Node} (h : Shaped part t) : Shaped part (r.node t) := by
  have hkind {x : Token} (hx : x.kind = .name) : (r.token x).kind = .name := (r.kind_token x).trans hx
  have hall {p : Part} {ts : List Node} (hts : ∀ t ∈ ts, Shaped p (r.node t)) :
      ∀ t ∈ ts.map r.node, Shaped p t := List.forall_mem_map.2 hts
  induction h with
  | name hx => exact .name (hkind hx)
  | number hx =>
    rw [node_leaf, r.token_of_ne (by simp [hx])]
    exact .number hx
  | coordinate hw => exact .coordinate hw
  | sign ho _ ih =>
    rw [node_node, r.token_symbol ho]
    exact .sign ho ih
  | operation ho _ _ ihl ihr =>
    rw [node_node, r.token_symbol ho]
    exact .operation ho ihl ihr
  | comparison ho _ _ ihl ihr =>
    rw [node_node, r.token_symbol ho]
    exact .comparison ho ihl ihr
  | move hw _ ih => exact .move hw ih
  | color _ _ _ ihr ihg ihb => exact .color ihr ihg ihb
  | bare hw => exact .bare hw
  | jump _ _ ihx ihy => exact .jump ihx ihy
  | assignment hx _ ih => exact .assignment (hkind hx) ih
  | repetition _ _ iht ihb => exact .repetition iht ihb
  | whileLoop _ _ iht ihb => exact .whileLoop iht ihb
  | choice _ _ iht ihb => exact .choice iht ihb
  | choiceElse _ _ _ iht ihb ihc => exact .choiceElse iht ihb ihc
  | call hx _ ih =>
    simp only [node_node, List.map_cons, node_leaf, List.map_nil, token_keyword]
    exact .call (hkind hx) (hall ih)
  | block _ ih =>
    rw [node_node]
    exact .block (hall ih)
  | definition hx hxs _ ih =>
    simp only [node_node, List.map_cons, node_leaf, List.map_nil, token_keyword, map_node_leaf]
    exact .definition (hkind hx) (List.forall_mem_map.2 fun y hy => hkind (hxs y hy)) ih
  | script _ _ ihb ihds =>
    simp only [node_node, List.map_cons, List.map_nil, token_keyword]
    exact .script ihb (hall ihds)

/-! ## Tables and scopes -/

/-- The table under the new names, with changed values. -/
def table {α β : Type} (f : α → β) (t : Table α) : Table β :=
  ⟨t.entries.map fun entry => (r.text entry.1, f entry.2)⟩

section Tables

variable {α β : Type} (f : α → β) (t : Table α) (name : String)

/-- What is found under a new name is what was found under the old one. -/
lemma find?_table : (r.table f t).find? (r.text name) = (t.find? name).map f := by
  obtain ⟨entries⟩ := t
  change (entries.map _).lookup _ = (entries.lookup name).map f
  induction entries with
  | nil => rfl
  | cons entry entries ih =>
    obtain ⟨key, value⟩ := entry
    by_cases h : name = key
    · subst h
      simp
    · have h' : r.text name ≠ r.text key := fun heq => h (r.text_injective heq)
      rw [List.map_cons, List.lookup_cons, List.lookup_cons, beq_eq_false_iff_ne.2 h,
        beq_eq_false_iff_ne.2 h']
      exact ih

lemma contains_table : (r.table f t).contains (r.text name) = t.contains name := by
  rw [Table.contains, Table.contains, find?_table, Option.isSome_map]

lemma table_insert (value : α) :
    r.table f (t.insert name value) = (r.table f t).insert (r.text name) (f value) := by
  have hsame : ((fun entry : String × β => entry.1 != r.text name) ∘
      fun entry : String × α => (r.text entry.1, f entry.2)) = fun entry => entry.1 != name := by
    funext entry
    simp [Bool.beq_eq_decide_eq, bne, r.text_injective.eq_iff]
  simp only [table, Table.insert, List.map_cons, List.filter_map, hsame]

end Tables

/-- The frame under the new names. -/
def frame (frame : Frame) : Frame := r.table id frame

/-- The scope under the new names. -/
def scope (s : Scope) : Scope := ⟨r.frame s.globals, s.locals.map r.frame⟩

section Scopes

variable (frame : Frame) (s : Scope) (name : String) (value : Float)

lemma find?_frame : (r.frame frame).find? (r.text name) = frame.find? name := by
  rw [Renaming.frame, find?_table, Option.map_id_fun, id]

lemma frame_insert :
    r.frame (frame.insert name value) = (r.frame frame).insert (r.text name) value :=
  r.table_insert id frame name value

lemma current_scope : (r.scope s).current = r.frame s.current := by
  obtain ⟨globals, locals⟩ := s
  cases locals <;> rfl

lemma scope_withCurrent : r.scope (s.withCurrent frame) = (r.scope s).withCurrent (r.frame frame) := by
  obtain ⟨globals, locals⟩ := s
  cases locals <;> rfl

lemma valueOf?_scope : (r.scope s).valueOf? (r.text name) = s.valueOf? name := by
  rw [Scope.valueOf?, current_scope, find?_frame]
  exact congrArg _ (r.find?_frame s.globals name)

lemma scope_store : r.scope (s.store name value) = (r.scope s).store (r.text name) value := by
  have hcurrent : (r.scope s).current.contains (r.text name) = s.current.contains name := by
    rw [current_scope]
    exact r.contains_table id _ name
  have hglobals : (r.scope s).globals.contains (r.text name) = s.globals.contains name :=
    r.contains_table id _ name
  unfold Scope.store
  rw [hcurrent, hglobals, current_scope, ← frame_insert, ← scope_withCurrent]
  split_ifs
  · rfl
  · rw [scope, frame_insert]
    rfl
  · rfl

lemma scope_pop (calls : Nat) : r.scope (s.pop calls) = (r.scope s).pop calls := by
  simp [scope, Scope.pop, List.map_drop]

lemma depth_scope : (r.scope s).depth = s.depth := by simp [scope, Scope.depth]

end Scopes

/-! ## Errors, interpreters and machines -/

/-- The error under the new names. -/
def error : RuntimeError → RuntimeError
  | .undefinedVariable name => .undefinedVariable (r.text name)
  | .undefinedProcedure name => .undefinedProcedure (r.text name)
  | .arityMismatch name expected found => .arityMismatch (r.text name) expected found
  | .recursionLimit name depth => .recursionLimit (r.text name) depth
  | e => e

/-- The result under the new names. -/
def fallible {α β : Type} (f : α → β) : Fallible α → Fallible β
  | .ok a => .ok (f a)
  | .error e => .error (r.error e)

/-- The procedure under the new names. -/
def procedure (p : Procedure) : Procedure := ⟨p.parameters.map r.text, r.node p.body⟩

/-- The procedures under the new names. -/
def procedures (t : Table Procedure) : Table Procedure := r.table r.procedure t

/-- The task under the new names. -/
def task : Task → Task
  | .exec node => .exec (r.node node)
  | .act action => .act action
  | .pace => .pace
  | .rounds count body => .rounds count (r.node body)
  | .loop condition body => .loop (r.node condition) (r.node body)
  | .leave => .leave

/-- What a run has come to, under the new names. -/
def progress : Progress → Progress
  | .working tasks => .working (tasks.map r.task)
  | .finished outcome => .finished outcome
  | .failed e => .failed (r.error e)

variable {A : Type}

/-- The interpreter under the new names. -/
def interpreter (i : Interpreter A) : Interpreter A :=
  { i with scope := r.scope i.scope, procedures := r.procedures i.procedures }

/-- The machine under the new names. -/
def machine (m : Machine A) : Machine A := ⟨r.interpreter m.interpreter, r.progress m.progress⟩

lemma countP_isLeave_map_task (tasks : List Task) :
    (tasks.map r.task).countP Task.isLeave = tasks.countP Task.isLeave := by
  rw [List.countP_map]
  congr 1
  funext task
  cases task <;> rfl

lemma interpreter_unwind (i : Interpreter A) (tasks : List Task) :
    r.interpreter (i.unwind tasks) = (r.interpreter i).unwind (tasks.map r.task) := by
  rw [Interpreter.unwind, Interpreter.unwind, countP_isLeave_map_task, interpreter, scope_pop]
  rfl

lemma fallible_bind {α β γ δ : Type} {f : α → β} {g : γ → δ} (x : Fallible α) {k : α → Fallible γ}
    {k' : β → Fallible δ} (h : ∀ a, k' (f a) = r.fallible g (k a)) :
    r.fallible f x >>= k' = r.fallible g (x >>= k) := by
  cases x with
  | ok a => exact h a
  | error e => rfl

end Renaming

/-! ## Expressions -/

/-- Two surroundings in which the same is seen, under the names of the script and under the new ones. -/
structure Renaming.Sees (r : Renaming) (s s' : Surroundings) : Prop where
  x : s'.x = s.x
  y : s'.y = s.y
  valueOf? (name : String) : s'.valueOf? (r.text name) = s.valueOf? name

namespace Surroundings

variable {r : Renaming} {s s' : Surroundings} {node : Node}

/-- What a token denotes is what the token denotes under its new name. -/
lemma ofToken?_renamed (h : r.Sees s s') (x : Token) :
    s'.ofToken? (r.token x) = (s.ofToken? x).map (r.fallible id) := by
  by_cases hx : x.kind = .name
  · have hword (word : String) (hmem : word ∈ ["getX", "getY"]) :
        r.text x.text = word ↔ x.text = word := by
      refine r.text_eq_iff ?_
      revert word
      decide
    rw [r.token_of_name hx]
    unfold ofToken?
    simp only [hword "getX" (by simp), hword "getY" (by simp), hx, h.valueOf?, h.x, h.y]
    split_ifs
    · rfl
    · rfl
    · cases s.valueOf? x.text <;> rfl
  · rw [r.token_of_ne hx]
    unfold ofToken?
    rw [h.x, h.y]
    split_ifs
    · rfl
    · rfl
    · split
      · exact absurd ‹_› hx
      · cases x.value? <;> rfl
      · rfl

lemma value_leaf_renamed (h : r.Sees s s') {x : Token}
    (hx : x.kind = .name ∨ x.kind = .number ∨ x.text ∈ ["getX", "getY"]) :
    s'.value (r.node (.leaf x)) = r.fallible id (s.value (.leaf x)) := by
  obtain ⟨value, hvalue⟩ := s.exists_ofToken? hx
  have hvalue' : s'.ofToken? (r.token x) = some (r.fallible id value) := by
    rw [ofToken?_renamed h, hvalue, Option.map_some]
  rw [r.node_leaf]
  change s'.primary (.leaf (r.token x)) = r.fallible id (s.primary (.leaf x))
  unfold primary
  rw [show (Tree.leaf x).value = x from rfl, show (Tree.leaf (r.token x)).value = r.token x from rfl,
    hvalue, hvalue']

/-- The value of an expression is its value under the new names. -/
theorem value_renamed (h : r.Sees s s') (hnode : Shaped .expression node) :
    s'.value (r.node node) = r.fallible id (s.value node) := by
  generalize hpart : Part.expression = part at hnode
  induction hnode with
  | name hx => exact value_leaf_renamed h (.inl hx)
  | number hx => exact value_leaf_renamed h (.inr (.inl hx))
  | coordinate hw => exact value_leaf_renamed h (.inr (.inr hw))
  | sign ho _ ih =>
    obtain ⟨operation, hoperation⟩ := exists_additive? ho
    rw [r.node_node, r.token_symbol ho]
    simp only [List.map_cons, List.map_nil, value, hoperation, ih rfl]
    exact r.fallible_bind _ fun _ => rfl
  | operation ho _ _ ihl ihr =>
    obtain ⟨operation, hoperation⟩ := exists_ofText? ho
    rw [r.node_node, r.token_symbol ho]
    simp only [List.map_cons, List.map_nil, value, hoperation, ihl rfl, ihr rfl]
    exact r.fallible_bind _ fun _ => r.fallible_bind _ fun _ => rfl
  | _ => cases hpart

theorem expression_renamed (h : r.Sees s s') (hnode : Shaped .expression node) :
    s'.expression (r.node node) = r.fallible id (s.expression node) := by
  rw [expression, expression, s.eval_eq_value .sum (unambiguous_of_shaped hnode),
    s'.eval_eq_value .sum (unambiguous_of_shaped (r.shaped_node hnode)), value_renamed h hnode]

/-- A condition holds if it holds under the new names. -/
theorem condition_renamed (h : r.Sees s s') (hnode : Shaped .condition node) :
    s'.condition (r.node node) = r.fallible id (s.condition node) := by
  cases hnode with
  | @comparison o left right ho hl hr =>
    rw [r.node_node, r.token_symbol ho]
    change (s'.expression (r.node left) >>= _) = r.fallible id (s.expression left >>= _)
    rw [expression_renamed h hl]
    refine r.fallible_bind _ fun a => ?_
    rw [expression_renamed h hr]
    refine r.fallible_bind _ fun b => ?_
    have htext : o.text = "<" ∨ o.text = "=" ∨ o.text = ">" := by simpa [comparators] using ho.2
    rcases htext with htext | htext | htext <;> simp only [Node.text, Tree.value_node, htext] <;> rfl

end Surroundings

/-! ## Effects -/

namespace Renaming

variable {A : Type} (r : Renaming)

/-- The same actuator and the same variables are seen. -/
lemma sees_interpreter [Actuator A] (i : Interpreter A) :
    r.Sees i.surroundings (r.interpreter i).surroundings where
  x := rfl
  y := rfl
  valueOf? name := r.valueOf?_scope i.scope name

/-- The result of an effect, under the new names. -/
def result {α β : Type} (f : α → β) :
    EStateM.Result RuntimeError (Interpreter A) α → EStateM.Result RuntimeError (Interpreter A) β
  | .ok a i => .ok (f a) (r.interpreter i)
  | .error e i => .error (r.error e) (r.interpreter i)

end Renaming

namespace Effect

variable {A : Type} {α β γ δ : Type} {r : Renaming}

/-- An effect that does under the new names what another one does. -/
def Renamed (r : Renaming) (f : α → β) (x : Effect A α) (x' : Effect A β) : Prop :=
  ∀ i, x' (r.interpreter i) = r.result f (x i)

section Rules

variable {f : α → β} {g : γ → δ} {x : Effect A α} {x' : Effect A β}

lemma renamed_pure (v : α) : Renamed r f (pure v : Effect A α) (pure (f v)) := fun _ => rfl

lemma renamed_throw (e : RuntimeError) :
    Renamed r f (throw e : Effect A α) (throw (r.error e)) := fun _ => rfl

lemma renamed_throw_bind (e : RuntimeError) {k : α → Effect A γ} {k' : β → Effect A δ} :
    Renamed r g (throw e >>= k) (throw (r.error e) >>= k') := fun _ => rfl

/-- Taking apart a node that has the children it must have. -/
lemma renamed_children {v : α} {w : β} {k : α → Effect A γ} {k' : β → Effect A δ}
    (h : Renamed r g (k v) (k' w)) : Renamed r g (lift (.ok v) >>= k) (lift (.ok w) >>= k') := h

lemma renamed_lift (v : Fallible α) : Renamed r f (lift v : Effect A α) (lift (r.fallible f v)) := by
  cases v with
  | ok v => exact renamed_pure v
  | error e => exact renamed_throw e

lemma renamed_modify {m m' : Interpreter A → Interpreter A}
    (h : ∀ i, m' (r.interpreter i) = r.interpreter (m i)) :
    Renamed r id (modify m : Effect A PUnit) (modify m') := by
  intro i
  rw [modify_apply, modify_apply, h]
  rfl

lemma Renamed.bind {k : α → Effect A γ} {k' : β → Effect A δ} (h : Renamed r f x x')
    (hk : ∀ v, Renamed r g (k v) (k' (f v))) : Renamed r g (x >>= k) (x' >>= k') := by
  intro i
  rw [bind_apply, bind_apply, h i]
  cases x i with
  | ok v i' => exact hk v i'
  | error e i' => rfl

lemma renamed_get_bind {k : Interpreter A → Effect A γ} {k' : Interpreter A → Effect A δ}
    (h : ∀ i, Renamed r g (k i) (k' (r.interpreter i))) : Renamed r g (get >>= k) (get >>= k') :=
  fun i => h i i

end Rules

/-- Checks of values have nothing to do with names. -/
lemma renamed_check {check : Float → Fallible α} (value : Float)
    (h : r.fallible id (check value) = check value) :
    Renamed r id (lift (check value) : Effect A α) (lift (check value)) := by
  have hlift := renamed_lift (A := A) (r := r) (f := id) (check value)
  rwa [h] at hlift

lemma fallible_colorComponent (value : Float) :
    r.fallible id (colorComponent value) = colorComponent value := by
  unfold colorComponent
  split_ifs <;> rfl

lemma fallible_loopCount (value : Float) : r.fallible id (loopCount value) = loopCount value := by
  unfold loopCount
  split_ifs <;> rfl

/-- A definition gives the same procedure, under the new names. -/
lemma renamed_ofDefinition {d : Node} (h : Shaped .definition d) :
    Procedure.ofDefinition (r.node d) =
      r.fallible (fun entry => (r.text entry.1, r.procedure entry.2)) (Procedure.ofDefinition d) := by
  cases h with
  | @definition x xs b hx hxs _ =>
    have hparameters : (xs.map r.token).map Token.text = (xs.map Token.text).map r.text := by
      simp only [List.map_map]
      exact List.map_congr_left fun y hy => by simp [r.token_of_name (hxs y hy)]
    have htexts (ys : List Token) : (ys.map Tree.leaf).map Node.text = ys.map Token.text := by
      rw [List.map_map]
      rfl
    simp only [r.node_node, r.node_leaf, r.token_keyword, List.map_cons, List.map_nil, r.map_node_leaf]
    change Except.ok (_, (⟨((xs.map r.token).map Tree.leaf).map Node.text, _⟩ : Procedure)) =
      Except.ok (_, (⟨((xs.map Tree.leaf).map Node.text).map r.text, _⟩ : Procedure))
    rw [htexts, htexts, hparameters, r.token_of_name hx]
    rfl

/-- Definitions are registered under the new names. -/
lemma renamed_register {definitions : List Node} (h : ∀ d ∈ definitions, Shaped .definition d) :
    Renamed r id (register definitions : Effect A Unit) (register (definitions.map r.node)) := by
  induction definitions with
  | nil => exact renamed_pure ()
  | cons d definitions ih =>
    obtain ⟨hd, hrest⟩ := List.forall_mem_cons.1 h
    rw [List.map_cons, register, register, renamed_ofDefinition hd]
    refine (renamed_lift _).bind fun entry => (renamed_modify fun i => ?_).bind fun _ => ih hrest
    rw [Renaming.interpreter, Renaming.interpreter, Renaming.procedures, Renaming.procedures,
      r.table_insert]

/-- An action has no names in it. -/
lemma renamed_paced (action : Action) :
    Renamed r (List.map r.task) (pure (paced action) : Effect A (List Task)) (pure (paced action)) :=
  renamed_pure (paced action)

variable [Actuator A]

lemma renamed_expression {node : Node} (h : Shaped .expression node) :
    Renamed r id (expression node : Effect A Float) (expression (r.node node)) := by
  refine renamed_get_bind fun i => ?_
  rw [Surroundings.expression_renamed (r.sees_interpreter i) h]
  exact renamed_lift _

lemma renamed_condition {node : Node} (h : Shaped .condition node) :
    Renamed r id (condition node : Effect A Bool) (condition (r.node node)) := by
  refine renamed_get_bind fun i => ?_
  rw [Surroundings.condition_renamed (r.sees_interpreter i) h]
  exact renamed_lift _

section Commands

variable {t : Token} {x y z b c : Node}

lemma renamed_move (action : Float → Action) (hx : Shaped .expression x) :
    Renamed r (List.map r.task) (move (.node t [x]) action : Effect A (List Task))
      (move (.node t [r.node x]) action) :=
  (renamed_expression hx).bind fun value => renamed_paced (action value)

omit [Actuator A] in
lemma renamed_bare (action : Action) :
    Renamed r (List.map r.task) (bare (.leaf t) action : Effect A (List Task))
      (bare (.leaf t) action) :=
  renamed_paced action

lemma renamed_color (hx : Shaped .expression x) (hy : Shaped .expression y)
    (hz : Shaped .expression z) :
    Renamed r (List.map r.task) (color (.node t [x, y, z]) : Effect A (List Task))
      (color (.node t [r.node x, r.node y, r.node z])) := by
  refine (renamed_expression hx).bind fun red => (renamed_expression hy).bind fun green =>
    (renamed_expression hz).bind fun blue => ?_
  have hcheck (value : Float) : Renamed r id (lift (colorComponent value) : Effect A UInt8)
      (lift (colorComponent value)) := renamed_check value (fallible_colorComponent value)
  exact (hcheck red).bind fun _ => (hcheck green).bind fun _ => (hcheck blue).bind fun _ =>
    renamed_paced _

lemma renamed_jump (hx : Shaped .expression x) (hy : Shaped .expression y) :
    Renamed r (List.map r.task) (jump (.node t [x, y]) : Effect A (List Task))
      (jump (.node t [r.node x, r.node y])) :=
  (renamed_expression hx).bind fun _ => (renamed_expression hy).bind fun _ => renamed_paced _

lemma renamed_assignment {name : Token} (hname : name.kind = .name) (hx : Shaped .expression x) :
    Renamed r (List.map r.task) (assignment (.node t [.leaf name, x]) : Effect A (List Task))
      (assignment (.node t [.leaf (r.token name), r.node x])) := by
  have hkind : ¬ name.kind ≠ .name := not_not.2 hname
  have hkind' : ¬ (r.token name).kind ≠ .name := not_not.2 ((r.kind_token name).trans hname)
  have htext : (r.token name).text = r.text name.text := by rw [r.token_of_name hname]
  change Renamed r _ (if name.kind ≠ .name then _ else _) (if (r.token name).kind ≠ .name then _ else _)
  rw [if_neg hkind, if_neg hkind']
  refine (renamed_expression hx).bind fun value => (renamed_modify fun i => ?_).bind fun _ =>
    renamed_pure []
  change (⟨_, _, (r.scope i.scope).store (r.token name).text value, _⟩ : Interpreter A) = _
  rw [htext, ← r.scope_store]
  rfl

lemma renamed_repetition (hx : Shaped .expression x) :
    Renamed r (List.map r.task) (repetition (.node t [x, b]) : Effect A (List Task))
      (repetition (.node t [r.node x, r.node b])) :=
  (renamed_expression hx).bind fun value =>
    (renamed_check value (fallible_loopCount value)).bind fun count =>
      renamed_pure [Task.rounds count.toNat b]

omit [Actuator A] in
lemma renamed_whileLoop :
    Renamed r (List.map r.task) (whileLoop (.node t [x, b]) : Effect A (List Task))
      (whileLoop (.node t [r.node x, r.node b])) :=
  renamed_pure [Task.loop x b]

lemma renamed_choice (t : Token) (hx : Shaped .condition x) :
    Renamed r (List.map r.task) (choice (.node t [x, b]) : Effect A (List Task))
      (choice (.node t [r.node x, r.node b])) := by
  refine (renamed_condition hx).bind fun chosen => ?_
  cases chosen
  · exact renamed_pure []
  · exact renamed_pure [Task.exec b]

lemma renamed_choiceElse (t : Token) (hx : Shaped .condition x) :
    Renamed r (List.map r.task) (choice (.node t [x, b, c]) : Effect A (List Task))
      (choice (.node t [r.node x, r.node b, r.node c])) := by
  refine (renamed_condition hx).bind fun chosen => ?_
  cases chosen
  · exact renamed_pure [Task.exec c]
  · exact renamed_pure [Task.exec b]

/-- Arguments are bound to parameters under their new names. -/
lemma renamed_bind {arguments : List (String × Node)} (frame : Frame)
    (h : ∀ argument ∈ arguments, Shaped .expression argument.2) :
    Renamed r r.frame (Effect.bind frame arguments : Effect A Frame)
      (Effect.bind (r.frame frame) (arguments.map fun pair => (r.text pair.1, r.node pair.2))) := by
  induction arguments generalizing frame with
  | nil => exact renamed_pure frame
  | cons argument arguments ih =>
    obtain ⟨hargument, hrest⟩ := List.forall_mem_cons.1 h
    refine (renamed_expression hargument).bind fun value => ?_
    rw [id, ← r.frame_insert]
    exact ih _ hrest

lemma renamed_call {name list : Token} {arguments : List Node} (hname : name.kind = .name)
    (h : ∀ argument ∈ arguments, Shaped .expression argument) :
    Renamed r (List.map r.task)
      (call (.node t [.leaf name, .node list arguments]) : Effect A (List Task))
      (call (.node t [.leaf (r.token name), .node list (arguments.map r.node)])) := by
  have htext : (r.token name).text = r.text name.text := by rw [r.token_of_name hname]
  refine renamed_children (renamed_get_bind fun i => ?_)
  have hfind : (r.interpreter i).procedures.find? (r.text name.text) =
      (i.procedures.find? name.text).map r.procedure := r.find?_table r.procedure i.procedures name.text
  have hleaf (x : Token) : Node.text (.leaf x) = x.text := rfl
  simp only [hleaf, htext, hfind]
  cases i.procedures.find? name.text with
  | none => exact renamed_throw _
  | some p =>
    have hparameters : (r.procedure p).parameters.length = p.parameters.length := List.length_map _
    have harguments : Tree.childCount (.node list (arguments.map r.node)) =
        Tree.childCount (.node list arguments) := List.length_map _
    have hdepth : (r.interpreter i).scope.depth = i.scope.depth := r.depth_scope i.scope
    have hzip : (r.procedure p).parameters.zip (Tree.children (.node list (arguments.map r.node))) =
        (p.parameters.zip arguments).map fun pair => (r.text pair.1, r.node pair.2) :=
      List.zip_map
    simp only [Option.map_some, hparameters, harguments, hdepth, hzip]
    split
    · exact renamed_throw_bind _
    · refine (renamed_bind .empty fun pair hpair => h pair.2 (List.of_mem_zip hpair).2).bind
        fun frame => ?_
      split
      · exact renamed_throw_bind _
      · refine (renamed_modify fun _ => ?_).bind fun _ => ?_
        · rfl
        · exact renamed_pure [Task.exec p.body, Task.leave]

end Commands

/-- Executing what is executable, under the new names. -/
theorem renamed_exec {node : Node} (h : Executable node) :
    Renamed r (List.map r.task) (exec node : Effect A (List Task)) (exec (r.node node)) := by
  obtain ⟨part, hpart, hshaped⟩ := h
  cases hshaped with
  | @script b ds _ hds =>
    rw [r.node_node, List.map_cons, List.map_singleton, r.node_node]
    exact (renamed_register hds).bind fun _ => renamed_pure [Task.exec b]
  | @block cs _ =>
    rw [r.node_node]
    change Renamed r _ (pure (cs.map Task.exec)) (pure ((cs.map r.node).map Task.exec))
    have hmap : (cs.map r.node).map Task.exec = (cs.map Task.exec).map r.task := by simp [Renaming.task]
    rw [hmap]
    exact renamed_pure _
  | move hw ht =>
    rw [r.node_node]
    simp only [moveWords, List.mem_cons, List.not_mem_nil, or_false] at hw
    rcases hw with rfl | rfl | rfl | rfl
    · exact renamed_move .forward ht
    · exact renamed_move .right ht
    · exact renamed_move .left ht
    · exact renamed_move .face ht
  | bare hw =>
    simp only [bareWords, List.mem_cons, List.not_mem_nil, or_false] at hw
    rw [r.node_leaf]
    rcases hw with rfl | rfl | rfl
    · exact renamed_bare .penUp
    · exact renamed_bare .penDown
    · exact renamed_bare .home
  | color hr hg hb => exact renamed_color hr hg hb
  | jump hx hy => exact renamed_jump hx hy
  | assignment hx ht => exact renamed_assignment hx ht
  | repetition ht _ => exact renamed_repetition ht
  | whileLoop _ _ => exact renamed_whileLoop
  | choice ht _ => exact renamed_choice (.keyword "if") ht
  | choiceElse ht _ _ => exact renamed_choiceElse (.keyword "if") ht
  | call hx hts =>
    simp only [r.node_node, List.map_cons, List.map_nil, r.node_leaf, r.token_keyword]
    exact renamed_call hx hts
  | _ => simp at hpart

end Effect

/-! ## Machines -/

namespace Machine

variable {A : Type} {r : Renaming} {m : Machine A}

lemma fail_renamed (error : RuntimeError) (tasks : List Task) :
    (r.machine m).fail (r.error error) (tasks.map r.task) = r.machine (m.fail error tasks) := by
  change (⟨(r.interpreter m.interpreter).unwind (tasks.map r.task), .failed (r.error error)⟩ : Machine A) = _
  rw [← r.interpreter_unwind]
  rfl

lemma action?_renamed : (r.machine m).action? = m.action? := by
  obtain ⟨i, progress⟩ := m
  match progress with
  | .working [] => rfl
  | .working (task :: rest) => cases task <;> rfl
  | .finished _ => rfl
  | .failed _ => rfl

variable [Actuator A]

/-- Doing the first part of a task, under the new names. -/
lemma perform_renamed {task : Task} {rest : List Task} (h : task.Sound) :
    (r.machine m).perform (rest.map r.task) (r.task task) = r.machine (m.perform rest task) := by
  have hrunning : (r.machine m).interpreter.control.running = m.interpreter.control.running := rfl
  cases task with
  | exec node =>
    have hexec := Effect.renamed_exec (r := r) h m.interpreter
    rw [Renaming.task, perform, perform, hrunning]
    split
    · rw [show (r.machine m).interpreter = r.interpreter m.interpreter from rfl, hexec]
      cases Effect.exec node m.interpreter with
      | ok tasks i =>
        change (⟨_, .working (tasks.map r.task ++ rest.map r.task)⟩ : Machine A) = _
        rw [← List.map_append]
        rfl
      | error e i => exact fail_renamed (m := ⟨i, m.progress⟩) e rest
    · rfl
  | act action => rfl
  | pace =>
    rw [Renaming.task, perform, perform, apply_ite r.machine]
    rfl
  | rounds count body =>
    cases count with
    | zero => rfl
    | succ count =>
      rw [Renaming.task, perform, perform, hrunning]
      split_ifs <;> rfl
  | loop condition body =>
    have hcondition := Surroundings.condition_renamed (r.sees_interpreter m.interpreter) h.1
    rw [Renaming.task, perform, perform, hrunning]
    split
    · rw [show (r.machine m).interpreter = r.interpreter m.interpreter from rfl, hcondition]
      cases m.interpreter.surroundings.condition condition with
      | ok holds => cases holds <;> rfl
      | error e => exact fail_renamed e rest
    · rfl
  | leave =>
    rw [Renaming.task, perform, perform, Renaming.machine, Renaming.interpreter, ← r.scope_pop]
    rfl

/-- A step of a run in order is its step under the new names. -/
theorem step_renamed (h : m.Sound) : (r.machine m).step = r.machine m.step := by
  obtain ⟨i, progress⟩ := m
  match progress with
  | .working [] => rfl
  | .working (task :: rest) =>
    obtain ⟨htask, -⟩ := List.forall_mem_cons.1 h.2
    exact perform_renamed htask
  | .finished _ => rfl
  | .failed _ => rfl

/-- A play of a run in order is its play under the new names, with the same actions. -/
lemma play_machine (h : m.Sound) (moves : List Move) :
    (r.machine m).actions moves = m.actions moves ∧ (r.machine m).play moves = r.machine (m.play moves) := by
  have haction (m m' : Machine A) (h : m.Sound ∧ m' = r.machine m) : m.action? = m'.action? := by
    rw [h.2, action?_renamed]
  have hstep (m m' : Machine A) (h : m.Sound ∧ m' = r.machine m) :
      m.step.Sound ∧ m'.step = r.machine m.step := by
    rw [h.2]
    exact ⟨sound_step h.1, step_renamed h.1⟩
  have hcontrol (m m' : Machine A) (action : ControlAction) (h : m.Sound ∧ m' = r.machine m) :
      (m.control action).Sound ∧ m'.control action = r.machine (m.control action) := by
    rw [h.2]
    exact ⟨sound_control h.1 action, rfl⟩
  obtain ⟨hactions, -, hplay⟩ := play_related haction hstep hcontrol ⟨h, rfl⟩ moves
  exact ⟨hactions.symm, hplay⟩

/-- User names are opaque.  Whatever happens to a parsed script and to the same script under new
names, the same actions are carried out, and at every moment both runs have come as far as each other:
they end with the same outcome or meet the same error under the new names, or neither ends.  The
variables and the procedures are the same under the new names. -/
theorem play_renamed (r : Renaming) {source : String} {t : Node} (hparse : parse source = .ok t)
    (i : Interpreter A) (moves : List Move) :
    let m := (ofProgram i t).play moves
    let m' := (ofProgram i (r.node t)).play moves
    (ofProgram i (r.node t)).actions moves = (ofProgram i t).actions moves ∧
      m'.progress = r.progress m.progress ∧
      m'.interpreter.actuator = m.interpreter.actuator ∧
      m'.interpreter.scope = r.scope m.interpreter.scope ∧
      m'.interpreter.procedures = r.procedures m.interpreter.procedures := by
  intro m m'
  have hsound : (ofProgram i t).Sound := sound_ofProgram i (parse_sound hparse).shaped
  obtain ⟨hactions, hplay⟩ := play_machine (r := r) hsound moves
  have hm' : m' = r.machine m := hplay
  rw [hm']
  exact ⟨hactions, rfl, rfl, rfl, rfl⟩

/-- A procedure named `block` reads a variable named `header`, which is not defined.  When the two names
are exchanged, the procedure `header` does not find the variable `block`. -/
theorem play_renamed_exchanged :
    let block : Name := ⟨"block", by decide⟩
    let header : Name := ⟨"header", by decide⟩
    let r : Renaming := ⟨Equiv.swap block header, (Equiv.swap block header).injective⟩
    let source := "do block\ndef block \x7b\npenup\nset list getX\nforward header\n\x7d\n"
    let name (text : String) : Token := ⟨.name, text⟩
    let script (called read : String) : Node := .node (.keyword "program")
      [.node (.keyword "block")
        [.node (.keyword "do") [.leaf (name called), .leaf (.keyword "list")]],
       .node (.keyword "list") [.node (.keyword "def")
        [.node (.keyword "header") [.leaf (name called), .leaf (.keyword "list")],
         .node (.keyword "block") [.leaf (.keyword "penup"),
          .node (.keyword "set") [.leaf (name "list"), .leaf (.keyword "getX")],
          .node (.keyword "forward") [.leaf (name read)]]]]]
    let i : Interpreter Walker := .new .centered (.ofSettings {})
    let moves : List Move := .replicate 10 .step
    parse source = .ok (script "block" "header") ∧
      r.node (script "block" "header") = script "header" "block" ∧
      ((ofProgram i (script "block" "header")).play moves).progress =
        .failed (.undefinedVariable "header") ∧
      ((ofProgram i (script "header" "block")).play moves).progress =
        .failed (.undefinedVariable "block") ∧
      (ofProgram i (script "header" "block")).actions moves = [.home, .penUp] := by
  intro block header r source name script i moves
  have hparse : parse source = .ok (script "block" "header") := by decide +kernel
  have hnode : r.node (script "block" "header") = script "header" "block" := by decide +kernel
  have hfails : ((ofProgram i (script "block" "header")).play moves).progress =
      .failed (.undefinedVariable "header") := by cbv
  have hcalls : (ofProgram i (script "block" "header")).actions moves = [.home, .penUp] := by cbv
  have hheader : r.text "header" = "block" := by decide +kernel
  obtain ⟨hactions, hprogress, -⟩ := play_renamed r hparse i moves
  rw [hnode] at hactions hprogress
  rw [hfails] at hprogress
  refine ⟨hparse, hnode, hfails, ?_, hactions.trans hcalls⟩
  rw [hprogress, Renaming.progress, Renaming.error, hheader]

end Machine

end Logo
