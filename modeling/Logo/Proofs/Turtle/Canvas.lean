import Logo.Turtle.Basic
import Mathlib.Tactic.Common

/-!
# What a turtle leaves on its canvas

A canvas never looks at its turtle.  It knows what it has been told: each action has to write down what it
drew, from where and to where, and has to publish the outline after the last change that it makes.

Nothing is ever taken back from the log.  So each entry belongs to one action: what precedes the entry was
written by the actions before, and what follows it by the actions behind
(`Turtle.exists_split_of_trail`).  Between the actions of two lines in a row no line is drawn, so there
the position stays, but for jumps, ways home and moves with the pen up.

* `Turtle.log_performAll`: the log grows by the entries of the actions.
* `Turtle.position_performAll_or_strays`: where nothing is drawn, the turtle stays or strays.
* `Turtle.log_perform_and_lines_connected`: what an action appends, and how lines in a row are connected.
* `Turtle.Fits.performAll`: the outline fits the turtle after any actions.
* `Turtle.pose_performAll_new`: so it does on a canvas of its own.
-/

namespace Logo.Turtle

variable {t : Turtle} {action : Action} {actions : List Action} {before after : List DrawCommand}
  {entry : DrawCommand} {start stop : Point}

/-- Carries out actions one after the other. -/
def performAll (t : Turtle) (actions : List Action) : Turtle :=
  actions.foldl (fun t action => t.perform action) t

@[simp]
lemma performAll_nil (t : Turtle) : t.performAll [] = t := rfl

@[simp]
lemma performAll_cons (t : Turtle) (action : Action) (actions : List Action) :
    t.performAll (action :: actions) = (t.perform action).performAll actions := rfl

lemma performAll_append (t : Turtle) (first second : List Action) :
    t.performAll (first ++ second) = (t.performAll first).performAll second := List.foldl_append

/-! ## Entries of the log -/

/-- The log of the canvas, oldest entry first. -/
def log (t : Turtle) : List DrawCommand := t.canvas.commands.toList

/-- What an action writes into the log. -/
def written? (t : Turtle) (action : Action) : Option DrawCommand :=
  match action with
  | .forward _ => if t.penIsDown then some (.line t.position (t.perform action).position) else none
  | .color rgb => some (.color rgb)
  | _ => none

/-- An action appends its entry to the log. -/
lemma log_perform (t : Turtle) (action : Action) :
    (t.perform action).log = t.log ++ (t.written? action).toList := by
  cases action with
  | forward distance =>
    cases hpen : t.penIsDown <;>
      simp [log, written?, perform, forward, moveTo, refreshPose, Canvas.setPose, Canvas.addCommand, hpen]
  | color rgb => simp [log, written?, perform, Canvas.addCommand]
  | _ => exact (List.append_nil _).symm

/-- A line is written by moving along the heading with the pen down. -/
lemma written?_eq_line_iff :
    t.written? action = some (.line start stop) ↔ (∃ distance, action = .forward distance) ∧
      t.penIsDown = true ∧ start = t.position ∧ stop = (t.perform action).position := by
  cases action with
  | forward distance => cases hpen : t.penIsDown <;> simp [written?, hpen, eq_comm]
  | _ => simp [written?]

lemma written?_eq_color_iff {rgb : Rgb} : t.written? action = some (.color rgb) ↔ action = .color rgb := by
  cases action with
  | forward distance => cases hpen : t.penIsDown <;> simp [written?, hpen]
  | _ => simp [written?]

/-- The entries that actions write, one after the other. -/
def trail (t : Turtle) : List Action → List DrawCommand
  | [] => []
  | action :: actions => (t.written? action).toList ++ (t.perform action).trail actions

lemma trail_append (t : Turtle) (first second : List Action) :
    t.trail (first ++ second) = t.trail first ++ (t.performAll first).trail second := by
  induction first generalizing t with
  | nil => rfl
  | cons action first ih => rw [List.cons_append, trail, trail, ih, List.append_assoc, performAll_cons]

/-- The log grows by the entries of the actions. -/
theorem log_performAll (t : Turtle) (actions : List Action) :
    (t.performAll actions).log = t.log ++ t.trail actions := by
  induction actions generalizing t with
  | nil => rw [performAll_nil, trail, List.append_nil]
  | cons action actions ih =>
    rw [performAll_cons, ih, log_perform, trail, List.append_assoc]

/-- An entry belongs to one action: those before it wrote what precedes the entry, and those behind it
wrote what follows. -/
theorem exists_split_of_trail (h : t.trail actions = before ++ entry :: after) :
    ∃ first action second, actions = first ++ action :: second ∧ t.trail first = before ∧
      (t.performAll first).written? action = some entry ∧
      ((t.performAll first).perform action).trail second = after := by
  induction actions generalizing t before with
  | nil => simp [trail] at h
  | cons action actions ih =>
    rw [trail] at h
    cases hentry : t.written? action with
    | none =>
      rw [hentry] at h
      obtain ⟨first, own, second, rfl, hbefore, hown, hafter⟩ := ih h
      exact ⟨action :: first, own, second, rfl, by rwa [trail, hentry], hown, hafter⟩
    | some written =>
      rw [hentry] at h
      cases before with
      | nil =>
        obtain ⟨rfl, hafter⟩ := List.cons.inj h
        exact ⟨[], action, actions, rfl, rfl, hentry, hafter⟩
      | cons earlier before =>
        obtain ⟨rfl, htail⟩ := List.cons.inj h
        obtain ⟨first, own, second, rfl, hbefore, hown, hafter⟩ := ih htail
        exact ⟨action :: first, own, second, rfl, by rw [trail, hentry, hbefore]; rfl, hown, hafter⟩

/-! ## Lines in a row -/

/-- An action that moves the turtle without a line. -/
inductive Strays (t : Turtle) : Action → Prop
  | home : Strays t .home
  | jump (x y : Float) : Strays t (.jump x y)
  | forward (distance : Float) (hpen : t.penIsDown = false) : Strays t (.forward distance)

lemma position_perform_or_strays (hline : ∀ start stop, t.written? action ≠ some (.line start stop)) :
    (t.perform action).position = t.position ∨ t.Strays action := by
  cases action with
  | forward distance =>
    cases hpen : t.penIsDown with
    | false => exact .inr (.forward distance hpen)
    | true => exact absurd (written?_eq_line_iff.2 ⟨⟨distance, rfl⟩, hpen, rfl, rfl⟩) (hline _ _)
  | home => exact .inr .home
  | jump x y => exact .inr (.jump x y)
  | _ => exact .inl rfl

/-- Where no line is drawn, the turtle is where it was, unless one of the actions made it stray. -/
theorem position_performAll_or_strays (hcolors : ∀ entry ∈ t.trail actions, ∃ rgb, entry = .color rgb) :
    (t.performAll actions).position = t.position ∨
      ∃ first action second, actions = first ++ action :: second ∧
        (t.performAll first).Strays action := by
  induction actions generalizing t with
  | nil => exact .inl rfl
  | cons action actions ih =>
    rw [trail] at hcolors
    have hline (start stop : Point) : t.written? action ≠ some (.line start stop) := by
      intro hentry
      obtain ⟨rgb, hrgb⟩ := hcolors (.line start stop) (by simp [hentry])
      cases hrgb
    rcases position_perform_or_strays hline with hstays | hstrays
    · rcases ih fun entry hentry => hcolors entry (List.mem_append_right _ hentry) with
        hposition | ⟨first, own, second, rfl, hown⟩
      · exact .inl (hposition.trans hstays)
      · exact .inr ⟨action :: first, own, second, rfl, hown⟩
    · exact .inr ⟨[], action, actions, rfl, hstrays⟩

/-- The log is the trail.  After any actions, one more appends at most one entry: a line, exactly if it
moves along the heading with the pen down, from where the turtle was to where it is, or a color, exactly
if it sets this color.

A line starts where the line before it stopped, unless the turtle strayed in between: when of the entries
after the former line only `shown` was written, it jumped, went home or moved with the pen up. -/
theorem log_perform_and_lines_connected (t : Turtle) (actions : List Action) :
    (∀ action,
      let u := t.performAll actions
      let u' := u.perform action
      ∃ written? : Option DrawCommand, u'.log = u.log ++ written?.toList ∧
        (∀ start stop, written? = some (.line start stop) ↔ (∃ distance, action = .forward distance) ∧
          u.penIsDown = true ∧ start = u.position ∧ stop = u'.position) ∧
        ∀ rgb, written? = some (.color rgb) ↔ action = .color rgb) ∧
    ∀ before start stop colors start' stop' after, (∀ entry ∈ colors, ∃ rgb, entry = .color rgb) →
      (t.performAll actions).log =
        t.log ++ (before ++ .line start stop :: (colors ++ .line start' stop' :: after)) →
      start' = stop ∨ ∃ first action second, actions = first ++ action :: second ∧
        (t.performAll first).Strays action ∧ ∃ shown, shown <+: colors ∧
          (t.performAll first).log = t.log ++ (before ++ .line start stop :: shown) := by
  constructor
  · intro action u u'
    exact ⟨u.written? action, log_perform u action, fun _ _ => written?_eq_line_iff,
      fun _ => written?_eq_color_iff⟩
  · intro before start stop colors start' stop' after hcolors hlog
    rw [log_performAll, List.append_cancel_left_eq] at hlog
    obtain ⟨front, drawing, behind, rfl, hbefore, hdrawing, hbehind⟩ := exists_split_of_trail hlog
    obtain ⟨between, drawing', rest, rfl, hbetween, hdrawing', -⟩ := exists_split_of_trail hbehind
    obtain ⟨-, -, -, hstop⟩ := written?_eq_line_iff.1 hdrawing
    obtain ⟨-, -, hstart', -⟩ := written?_eq_line_iff.1 hdrawing'
    -- one line stops where the actions between them start, and the other starts where these end
    rw [← hbetween] at hcolors
    rcases position_performAll_or_strays hcolors with hstays | ⟨first, action, second, rfl, hstrays⟩
    · exact .inl (by rw [hstart', hstop, hstays])
    · have hfirst : t.performAll (front ++ drawing :: first) =
          ((t.performAll front).perform drawing).performAll first := by
        rw [performAll_append, performAll_cons]
      refine .inr ⟨front ++ drawing :: first, action, second ++ drawing' :: rest, by simp, ?_,
        ((t.performAll front).perform drawing).trail first, ?_, ?_⟩
      · rwa [hfirst]
      · rw [← hbetween, trail_append]
        exact List.prefix_append _ _
      · rw [log_performAll, trail_append, hbefore, trail, hdrawing]
        rfl

/-- Two lines with a turn and a color between them, and then a way home and another line. -/
theorem log_perform_and_lines_connected_home :
    let t := new (.new 200 100)
    let rgb : Rgb := ⟨255, 0, 0⟩
    let actions : List Action :=
      [.forward 10, .right 90, .color rgb, .forward 20, .home, .color rgb, .forward 30]
    ∃ start stop stop' center stop'',
      (∀ entry ∈ [DrawCommand.color rgb], ∃ rgb, entry = .color rgb) ∧
      (t.performAll actions).log = t.log ++ ([.line start stop, .color rgb] ++
        .line stop stop' :: ([.color rgb] ++ .line center stop'' :: [])) ∧
      (center = stop' ∨ ∃ first action second, actions = first ++ action :: second ∧
        (t.performAll first).Strays action ∧ ∃ shown, shown <+: [.color rgb] ∧
          (t.performAll first).log =
            t.log ++ ([.line start stop, .color rgb] ++ .line stop stop' :: shown)) := by
  intro t rgb actions
  have hcolors : ∀ entry ∈ [DrawCommand.color rgb], ∃ rgb, entry = .color rgb := by simp
  obtain ⟨-, hlines⟩ := log_perform_and_lines_connected t actions
  exact ⟨_, _, _, _, _, hcolors, rfl, hlines _ _ _ _ _ _ _ hcolors rfl⟩

/-! ## The outline -/

/-- The outline on the canvas is the one of a turtle at this position with this heading. -/
def Fits (t : Turtle) : Prop := t.canvas.pose = .of t.position t.heading

lemma fits_refreshPose (t : Turtle) : t.refreshPose.Fits := rfl

/-- What changes the position or the heading publishes the outline afterwards, and all else leaves the
three of them alone. -/
lemma Fits.perform (h : t.Fits) (action : Action) : (t.perform action).Fits := by
  cases action with
  | forward _ | right _ | left _ | face _ | home | jump _ _ => exact fits_refreshPose _
  | penUp | penDown | color _ => exact h

theorem Fits.performAll (h : t.Fits) (actions : List Action) : (t.performAll actions).Fits := by
  induction actions generalizing t with
  | nil => exact h
  | cons action actions ih => exact ih (h.perform action)

end Logo.Turtle
