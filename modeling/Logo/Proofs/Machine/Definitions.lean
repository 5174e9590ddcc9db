import Logo.Proofs.Grammar.Shape
import Logo.Proofs.Grammar.Soundness.Program
import Logo.Proofs.Machine.Callers
import Logo.Proofs.Machine.Calls

/-!
# The order of definitions

All procedures of a script are registered before its first command is executed, and from then on they are
only looked up by name.  So a script cannot tell in which order its procedures were defined, nor that a
name was defined before it was defined again.

* `Table.find?_extend_of_perm`: bindings of different names may be made in any order.
* `find?_lastDefinitions`: of the definitions of one name only the last one counts.
* `Interpreter.twins_sameLookups`: no script can tell apart two registries in which it finds the same
  procedures.
* `definitions_of_parse`: so a parsed script runs alike with its definitions in another order.
-/

namespace Logo

open Grammar

variable {A : Type} {α : Type}

/-! ## Bindings of a table -/

namespace Table

/-- What a name is bound to does not depend on what else there was before. -/
lemma find?_extend_congr {t u : Table α} {bindings : List (String × α)} {name : String}
    (h : name ∈ bindings.map Prod.fst ∨ t.find? name = u.find? name) :
    (t.extend bindings).find? name = (u.extend bindings).find? name := by
  induction bindings generalizing t u with
  | nil => exact h.resolve_left List.not_mem_nil
  | cons binding bindings ih =>
    obtain ⟨key, value⟩ := binding
    rw [extend_cons, extend_cons]
    refine ih ?_
    by_cases hkey : name = key
    · subst hkey
      simp
    · rw [find?_insert_of_ne _ _ hkey, find?_insert_of_ne _ _ hkey]
      simpa [hkey] using h

/-- Where no name is bound twice, every binding counts. -/
lemma find?_extend_of_mem {t : Table α} {bindings : List (String × α)} {name : String} {value : α}
    (hdistinct : (bindings.map Prod.fst).Nodup) (hmem : (name, value) ∈ bindings) :
    (t.extend bindings).find? name = some value := by
  obtain ⟨before, after, rfl⟩ := List.append_of_mem hmem
  refine find?_extend before after ?_
  rw [List.map_append, List.map_cons] at hdistinct
  exact (List.nodup_cons.1 (List.nodup_append.1 hdistinct).2.1).1

/-- Bindings of different names may be made in any order. -/
lemma find?_extend_of_perm (t : Table α) {bindings bindings' : List (String × α)}
    (hdistinct : (bindings.map Prod.fst).Nodup) (hperm : bindings.Perm bindings') (name : String) :
    (t.extend bindings').find? name = (t.extend bindings).find? name := by
  have hnames : (bindings.map Prod.fst).Perm (bindings'.map Prod.fst) := hperm.map Prod.fst
  by_cases hbound : name ∈ bindings.map Prod.fst
  · obtain ⟨⟨_, value⟩, hmem, rfl⟩ := List.mem_map.1 hbound
    rw [find?_extend_of_mem hdistinct hmem,
      find?_extend_of_mem (hnames.nodup_iff.1 hdistinct) (hperm.mem_iff.1 hmem)]
  · rw [find?_extend_of_notMem hbound, find?_extend_of_notMem (mt hnames.mem_iff.2 hbound)]

end Table

/-! ## Definitions -/

/-- The name that a definition has in its header. -/
def Node.definedName? (definition : Node) : Option String :=
  (definition.firstChild?.bind Tree.firstChild?).map Node.text

/-- The definitions, but none of a name that is defined again later on. -/
def lastDefinitions : List Node → List Node
  | [] => []
  | d :: ds =>
    if ∃ later ∈ ds, later.definedName? = d.definedName? then lastDefinitions ds
    else d :: lastDefinitions ds

/-- The name and the procedure that a definition registers, if it is one. -/
def Node.binding? (definition : Node) : Option (String × Procedure) :=
  (Procedure.ofDefinition definition).toOption

/-- The definitions as bindings of their names. -/
def bindings (definitions : List Node) : List (String × Procedure) := definitions.filterMap Node.binding?

lemma exists_binding {d : Node} (h : Shaped .definition d) :
    ∃ name procedure, d.definedName? = some name ∧
      Procedure.ofDefinition d = .ok (name, procedure) ∧ d.binding? = some (name, procedure) := by
  cases h with
  | @definition x xs b _ _ _ => exact ⟨x.text, ⟨(xs.map Tree.leaf).map Node.text, b⟩, rfl, rfl, rfl⟩

section Bindings

variable {ds ds' : List Node} (hds : ∀ d ∈ ds, Shaped .definition d)
include hds

/-- The names that are bound are those in the headers. -/
lemma map_fst_bindings : (bindings ds).map (some ∘ Prod.fst) = ds.map Node.definedName? := by
  induction ds with
  | nil => rfl
  | cons d ds ih =>
    obtain ⟨hd, hds⟩ := List.forall_mem_cons.1 hds
    obtain ⟨name, procedure, hname, -, hbinding⟩ := exists_binding hd
    rw [bindings, List.filterMap_cons, hbinding, List.map_cons, List.map_cons, hname]
    exact congrArg _ (ih hds)

lemma mem_names_iff (name : String) :
    name ∈ (bindings ds).map Prod.fst ↔ some name ∈ ds.map Node.definedName? := by
  rw [← map_fst_bindings hds, ← List.map_map, List.mem_map_of_injective (Option.some_injective _)]

/-- Registering definitions extends the procedures by their bindings. -/
lemma Effect.register_apply (i : Interpreter A) :
    register ds i = .ok () { i with procedures := i.procedures.extend (bindings ds) } := by
  induction ds generalizing i with
  | nil => rfl
  | cons d ds ih =>
    obtain ⟨hd, hds⟩ := List.forall_mem_cons.1 hds
    obtain ⟨name, procedure, -, hprocedure, hbinding⟩ := exists_binding hd
    rw [register, hprocedure, bindings, List.filterMap_cons, hbinding]
    exact ih hds { i with procedures := i.procedures.insert name procedure }

/-- Of the definitions of one name only the last one counts. -/
lemma find?_lastDefinitions (t : Table Procedure) (name : String) :
    (t.extend (bindings (lastDefinitions ds))).find? name = (t.extend (bindings ds)).find? name := by
  induction ds generalizing t with
  | nil => rfl
  | cons d ds ih =>
    obtain ⟨hd, hds⟩ := List.forall_mem_cons.1 hds
    obtain ⟨key, procedure, hkey, -, hbinding⟩ := exists_binding hd
    have hcons (ds : List Node) : bindings (d :: ds) = (key, procedure) :: bindings ds := by
      rw [bindings, List.filterMap_cons, hbinding]
      rfl
    rw [lastDefinitions, hcons ds, Table.extend_cons]
    split
    · rename_i hlater
      -- what `d` binds is bound again by the later definition, and all else was there before
      rw [ih hds]
      refine Table.find?_extend_congr ?_
      by_cases hname : name = key
      · obtain ⟨later, hmem, hlater⟩ := hlater
        refine .inl ((mem_names_iff hds name).2 (List.mem_map.2 ⟨later, hmem, ?_⟩))
        rw [hlater, hkey, hname]
      · exact .inr (Table.find?_insert_of_ne t procedure hname).symm
    · rw [hcons, Table.extend_cons, ih hds]

lemma find?_of_perm (hdistinct : (ds.map Node.definedName?).Nodup) (hperm : ds.Perm ds')
    (t : Table Procedure) (name : String) :
    (t.extend (bindings ds')).find? name = (t.extend (bindings ds)).find? name := by
  refine t.find?_extend_of_perm ?_ (hperm.filterMap _) name
  rw [← map_fst_bindings hds, ← List.map_map] at hdistinct
  exact hdistinct.of_map

end Bindings

/-! ## Registries in which the same is found -/

/-- The two interpreters differ at most in how their procedures were registered: under every name both
find the same procedure. -/
def Interpreter.SameLookups (i j : Interpreter A) : Prop :=
  ∃ procedures : Table Procedure, j = { i with procedures } ∧
    ∀ name, procedures.find? name = i.procedures.find? name

/-- No script can tell how the procedures that it finds were registered. -/
lemma Interpreter.twins_sameLookups [Actuator A] :
    Twins (SameLookups : Interpreter A → Interpreter A → Prop) where
  surroundings := by rintro i _ ⟨procedures, rfl, -⟩; rfl
  find? := by rintro i _ ⟨procedures, rfl, h⟩ name; exact (h name).symm
  depth := by rintro i _ ⟨procedures, rfl, -⟩; rfl
  register := by
    rintro i _ ⟨procedures, rfl, h⟩ name procedure
    refine ⟨procedures.insert name procedure, rfl, fun other => ?_⟩
    by_cases hname : other = name
    · subst hname
      simp
    · simp only [Table.find?_insert_of_ne _ _ hname, h]
  store := by rintro i _ ⟨procedures, rfl, h⟩ name value; exact ⟨procedures, rfl, h⟩
  push := by rintro i _ ⟨procedures, rfl, h⟩ frame; exact ⟨procedures, rfl, h⟩
  pop := by rintro i _ ⟨procedures, rfl, h⟩ calls; exact ⟨procedures, rfl, h⟩
  perform := by rintro i _ ⟨procedures, rfl, h⟩ action; exact ⟨procedures, rfl, h⟩

/-! ## Runs -/

/-- How a run has ended, if it has. -/
def Machine.result? (m : Machine A) : Option (Fallible Outcome) :=
  match m.progress with
  | .working _ => none
  | .finished outcome => some (.ok outcome)
  | .failed e => some (.error e)

/-- Two scripts that run alike: whatever their actuator is and whatever the controller does, the same
actions are carried out, and at every moment the variables and what is found among the procedures are
the same, and both runs have ended alike or neither has ended. -/
def RunAlike (t t' : Node) : Prop :=
  ∀ (A : Type) [Actuator A] (i : Interpreter A) (moves : List Move),
    let m := (Machine.ofProgram i t).play moves
    let m' := (Machine.ofProgram i t').play moves
    (Machine.ofProgram i t').actions moves = (Machine.ofProgram i t).actions moves ∧
      m'.result? = m.result? ∧ m'.interpreter.scope = m.interpreter.scope ∧
      m'.interpreter.actuator = m.interpreter.actuator ∧
      ∀ name, m'.interpreter.procedures.find? name = m.interpreter.procedures.find? name

/-- The definitions give the same procedures, whatever there was before. -/
def DefineAlike (ds ds' : List Node) : Prop :=
  ∀ (t : Table Procedure) name,
    (t.extend (bindings ds')).find? name = (t.extend (bindings ds)).find? name

namespace Machine

/-- How far the runs of two scripts have come: each goes home and executes its own script, and from then
on both have the same left to do. -/
inductive AsFar (t t' : Node) : Progress → Progress → Prop
  | homing : AsFar t t' (.working [.act .home, .exec t]) (.working [.act .home, .exec t'])
  | starting : AsFar t t' (.working [.exec t]) (.working [.exec t'])
  | started (progress : Progress) : AsFar t t' progress progress

/-- The runs of two scripts have come as far as each other and find the same procedures. -/
structure Level (t t' : Node) (m m' : Machine A) : Prop where
  interpreter : m.interpreter.SameLookups m'.interpreter
  progress : AsFar t t' m.progress m'.progress

variable {cs ds ds' : List Node} {t t' : Node} {m m' : Machine A}

lemma Level.result? (h : Level t t' m m') : m'.result? = m.result? := by
  obtain ⟨i, progress⟩ := m
  obtain ⟨j, progress'⟩ := m'
  cases h.progress <;> rfl

lemma Level.action? (h : Level t t' m m') : m'.action? = m.action? := by
  obtain ⟨i, progress⟩ := m
  obtain ⟨j, progress'⟩ := m'
  cases h.progress <;> rfl

variable [Actuator A]

lemma exec_programNode (hds : ∀ d ∈ ds, Shaped .definition d) (i : Interpreter A) :
    Effect.exec (programNode cs ds) i =
      .ok [.exec (.node (.keyword "block") cs)]
        { i with procedures := i.procedures.extend (bindings ds) } := by
  change (Effect.register ds >>= fun _ => pure [Task.exec (.node (.keyword "block") cs)]) i = _
  rw [bind_apply, Effect.register_apply hds]
  rfl

/-- When the definitions of both scripts are registered, the same procedures are found. -/
lemma level_exec (hds : ∀ d ∈ ds, Shaped .definition d) (hds' : ∀ d ∈ ds', Shaped .definition d)
    (hsame : DefineAlike ds ds') {i j : Interpreter A} (hij : i.SameLookups j) (p p' : Progress) :
    Level t t' (perform ⟨i, p⟩ [] (.exec (programNode cs ds)))
      (perform ⟨j, p'⟩ [] (.exec (programNode cs ds'))) := by
  obtain ⟨procedures, rfl, hlookups⟩ := hij
  simp only [perform, exec_programNode hds, exec_programNode hds']
  split
  · refine ⟨⟨procedures.extend (bindings ds'), rfl, fun name => ?_⟩, .started _⟩
    rw [hsame procedures name]
    exact Table.find?_extend_congr (.inr (hlookups name))
  -- a script that was stopped before it started registers nothing
  · exact ⟨⟨procedures, rfl, hlookups⟩, .started _⟩

lemma level_step (hds : ∀ d ∈ ds, Shaped .definition d) (hds' : ∀ d ∈ ds', Shaped .definition d)
    (hsame : DefineAlike ds ds') (h : Level (programNode cs ds) (programNode cs ds') m m') :
    Level (programNode cs ds) (programNode cs ds') m.step m'.step := by
  obtain ⟨i, progress⟩ := m
  obtain ⟨j, progress'⟩ := m'
  obtain ⟨hlookups, hprogress⟩ := h
  cases hprogress with
  | homing => exact ⟨Interpreter.twins_sameLookups.perform hlookups .home, .starting⟩
  | starting => exact level_exec hds hds' hsame hlookups _ _
  | started =>
    have hcontrol : i.control = j.control := by
      obtain ⟨procedures, hj, -⟩ := hlookups
      exact (congrArg Interpreter.control hj).symm
    have hreading : reading? ⟨i, progress⟩ = reading? ⟨j, progress⟩ := by
      rw [reading?, reading?, hcontrol]
    have hblocked : blocked ⟨i, progress⟩ = blocked ⟨j, progress⟩ := by
      rw [blocked, blocked, hcontrol]
    obtain ⟨hinterpreter, hequal⟩ :=
      lockstep Interpreter.twins_sameLookups ⟨hlookups, rfl⟩ hreading hblocked
    exact ⟨hinterpreter, hequal ▸ .started _⟩

lemma level_play (hds : ∀ d ∈ ds, Shaped .definition d) (hds' : ∀ d ∈ ds', Shaped .definition d)
    (hsame : DefineAlike ds ds') (moves : List Move)
    (h : Level (programNode cs ds) (programNode cs ds') m m') :
    m'.actions moves = m.actions moves ∧
      Level (programNode cs ds) (programNode cs ds') (m.play moves) (m'.play moves) := by
  have hcontrol (m m' : Machine A) (action : ControlAction)
      (h : Level (programNode cs ds) (programNode cs ds') m m') :
      Level (programNode cs ds) (programNode cs ds') (m.control action) (m'.control action) := by
    obtain ⟨procedures, hm', hlookups⟩ := h.interpreter
    exact ⟨⟨procedures, by rw [control, control, hm'], hlookups⟩, h.progress⟩
  obtain ⟨hactions, hplay⟩ := play_related (fun _ _ h => h.action?.symm)
    (fun _ _ h => level_step hds hds' hsame h) hcontrol h moves
  exact ⟨hactions.symm, hplay⟩

end Machine

/-- Scripts whose definitions give the same procedures run alike. -/
theorem runAlike_of_defineAlike {cs ds ds' : List Node} (hds : ∀ d ∈ ds, Shaped .definition d)
    (hds' : ∀ d ∈ ds', Shaped .definition d) (hsame : DefineAlike ds ds') :
    RunAlike (programNode cs ds) (programNode cs ds') := by
  intro A _ i moves m m'
  have hstart : Machine.Level (programNode cs ds) (programNode cs ds')
      (.ofProgram i (programNode cs ds)) (.ofProgram i (programNode cs ds')) :=
    ⟨⟨.empty, rfl, fun _ => rfl⟩, .homing⟩
  obtain ⟨hactions, hlevel⟩ := Machine.level_play hds hds' hsame moves hstart
  obtain ⟨procedures, hinterpreter, hlookups⟩ := hlevel.interpreter
  have hm' : m'.interpreter = { m.interpreter with procedures } := hinterpreter
  exact ⟨hactions, hlevel.result?, by rw [hm'], by rw [hm'], by rw [hm']; exact hlookups⟩

lemma sublist_lastDefinitions (ds : List Node) : (lastDefinitions ds).Sublist ds := by
  induction ds with
  | nil => exact .slnil
  | cons d ds ih =>
    rw [lastDefinitions]
    split
    · exact ih.cons d
    · exact ih.cons_cons d

/-- A parsed script is a row of commands with a row of definitions.  If these define different names, the
script runs alike whatever their order is; and in any case it runs alike with none but the last definition
of each name. -/
theorem definitions_of_parse {source : String} {t : Node} (hparse : parse source = .ok t) :
    ∃ cs ds, t = programNode cs ds ∧
      (∀ ds', (ds.map Node.definedName?).Nodup → ds.Perm ds' → RunAlike t (programNode cs ds')) ∧
      RunAlike t (programNode cs (lastDefinitions ds)) := by
  cases (parse_sound hparse).shaped with
  | @script b ds hb hds =>
    cases hb with
    | @block cs _ =>
      refine ⟨cs, ds, rfl, fun ds' hdistinct hperm => ?_, ?_⟩
      · have hds' : ∀ d ∈ ds', Shaped .definition d := fun d hd => hds d (hperm.mem_iff.2 hd)
        exact runAlike_of_defineAlike hds hds' (find?_of_perm hds hdistinct hperm)
      · have hlast : ∀ d ∈ lastDefinitions ds, Shaped .definition d :=
          fun d hd => hds d ((sublist_lastDefinitions ds).subset hd)
        exact runAlike_of_defineAlike hds hlast (find?_lastDefinitions hds)

/-- Two procedures that call each other, and then another definition of the former. -/
theorem definitions_of_parse_mutual :
    let source := "do q\ndef p \x7b\npenup\ndo q\n\x7d\ndef q \x7b\npendown\ndo p\n\x7d\n"
    let again := "def p \x7b\nhome\n\x7d\n"
    let name (text : String) : Token := ⟨.name, text⟩
    let list (words : List Node) : Node := .node (.keyword "list") words
    let block (commands : List Node) : Node := .node (.keyword "block") commands
    let call (callee : String) : Node := .node (.keyword "do") [.leaf (name callee), list []]
    let p := definitionNode (name "p") [] (block [.leaf (.keyword "penup"), call "q"])
    let q := definitionNode (name "q") [] (block [.leaf (.keyword "pendown"), call "p"])
    let p' := definitionNode (name "p") [] (block [.leaf (.keyword "home")])
    parse source = .ok (programNode [call "q"] [p, q]) ∧
      parse (source ++ again) = .ok (programNode [call "q"] [p, q, p']) ∧
      ([p, q].map Node.definedName?).Nodup ∧ [p, q].Perm [q, p] ∧
      RunAlike (programNode [call "q"] [p, q]) (programNode [call "q"] [q, p]) ∧
      RunAlike (programNode [call "q"] [p, q, p']) (programNode [call "q"] [q, p']) := by
  intro source again name list block call p q p'
  have hparse : parse source = .ok (programNode [call "q"] [p, q]) := by decide +kernel
  have hagain : parse (source ++ again) = .ok (programNode [call "q"] [p, q, p']) := by decide +kernel
  have hdistinct : ([p, q].map Node.definedName?).Nodup := by decide
  have hswap : [p, q].Perm [q, p] := .swap q p []
  obtain ⟨cs, ds, hequal, hperm, -⟩ := definitions_of_parse hparse
  obtain ⟨cs', ds', hequal', -, hlast⟩ := definitions_of_parse hagain
  obtain ⟨rfl, rfl⟩ : [call "q"] = cs ∧ [p, q] = ds := by simpa [programNode] using hequal
  obtain ⟨rfl, rfl⟩ : [call "q"] = cs' ∧ [p, q, p'] = ds' := by simpa [programNode] using hequal'
  have hkept : lastDefinitions [p, q, p'] = [q, p'] := by decide +kernel
  rw [hkept] at hlast
  exact ⟨hparse, hagain, hdistinct, hswap, hperm _ hdistinct hswap, hlast⟩

end Logo
