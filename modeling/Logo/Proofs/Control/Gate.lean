import Logo.Control
import Mathlib.Logic.Function.Basic
import Mathlib.Tactic.Common

/-!
# The gate

The flags of a control are read by one thread and written by others.  The thread of the run waits at
a gate: it reads the flags one after the other while it has the gate, and gives it back as it falls
asleep.  A controller needs no gate to write.  It passes the gate only afterwards, in order to wake
the thread of the run.  So what the run has read may be out of date before it sleeps; but then the
controller that wrote is still on its way to the gate.

* `Gate`: the flags, the clock, the gate and what every thread is doing; `Gate.play` follows any
  interleaving of their steps.
* `Gate.Consistent`: one thread at most has the gate, and what the thread of the run has read holds,
  unless a controller has yet to announce what it wrote.
* `Gate.no_lost_wakeup`: so a run never sleeps past an action that would have let it go on.
-/

namespace Logo

/-! ## Stores -/

/-- A write to one of the flags. -/
inductive Store where
  /-- Whether the run may go on. -/
  | running (value : Bool)
  /-- Whether the run is suspended. -/
  | paused (value : Bool)
  /-- The speed. -/
  | speed (value : Nat)
  deriving DecidableEq

/-- The flags after a write. -/
def RunControl.write (c : RunControl) : Store → RunControl
  | .running value => { c with running := value }
  | .paused value => { c with paused := value }
  | .speed value => { c with speed := value }

/-- The writes of an action, in order. -/
def ControlAction.stores : ControlAction → List Store
  | .start => [.running true, .paused false]
  | .stop => [.running false]
  | .pause => [.paused true]
  | .resume => [.paused false]
  | .setSpeed speed => [.speed (min speed maxSpeed)]

/-- The writes of an action together carry it out. -/
theorem RunControl.foldl_write_stores (c : RunControl) (action : ControlAction) :
    action.stores.foldl write c = c.apply action := by
  cases action <;> rfl

/-- Whether a run that began to wait at a moment has reason to sleep, up to a deadline if there is
one: it is running, and it is paused, at speed 0, or the delay at its speed ends at that deadline.
-/
def RunControl.SleepsUntil (c : RunControl) (started : Nat) (deadline? : Option Nat) : Prop :=
  c.running = true ∧ (c.paused = true ∨ c.speed = 0 ∨
    ∃ d, c.delay = .lasting d ∧ deadline? = some (started + d.nanoseconds))

/-- Without a deadline, a run sleeps when its control holds it. -/
lemma RunControl.sleepsUntil_none_iff (c : RunControl) (started : Nat) :
    c.SleepsUntil started none ↔ c.holds = true := by
  simp [SleepsUntil, holds]

/-! ## Threads -/

/-- What the thread of the run is doing.  The moments are when it began to wait, and how long it is
going to. -/
inductive Pacer where
  /-- It does not wait. -/
  | away
  /-- It wants the gate. -/
  | arriving (started : Nat)
  /-- It has the gate and is about to read whether it may go on. -/
  | readingRunning (started : Nat)
  /-- It has the gate and is about to read whether it is suspended. -/
  | readingPaused (started : Nat)
  /-- It has the gate and is about to read the speed. -/
  | readingSpeed (started : Nat)
  /-- It has the gate and is about to look at the clock. -/
  | readingClock (started deadline : Nat)
  /-- It has the gate and is about to fall asleep, up to a deadline if there is one. -/
  | dozing (started : Nat) (deadline? : Option Nat)
  /-- It has given back the gate and sleeps. -/
  | asleep (started : Nat) (deadline? : Option Nat)
  /-- It is about to give back the gate, for good. -/
  | leaving
  deriving DecidableEq

/-- The thread of the run after a notification.  It has to get the gate again. -/
def Pacer.notified : Pacer → Pacer
  | .asleep started _ => .arriving started
  | p => p

/-- What a controller is doing. -/
inductive Controller where
  /-- Nothing. -/
  | idle
  /-- It has writes left to be made, and may have made some; then it wants the gate. -/
  | storing (made : Bool) (left : List Store)
  /-- It has the gate and is about to notify. -/
  | notifying
  /-- It has notified and is about to give back the gate. -/
  | leaving
  deriving DecidableEq

/-- Who may have the gate. -/
inductive Holder (ι : Type) where
  /-- The thread of the run. -/
  | pacer
  /-- One of the controllers. -/
  | controller (i : ι)
  deriving DecidableEq

/-- A control that is shared by the thread of a run and any number of controllers. -/
structure Gate (ι : Type) where
  /-- The flags. -/
  flags : RunControl
  /-- The moment it is. -/
  now : Nat
  /-- The first moment that is too late to be waited for. -/
  horizon : Nat
  /-- The thread that has the gate, if any. -/
  holder : Option (Holder ι)
  /-- What the thread of the run is doing. -/
  pacer : Pacer
  /-- What the controllers are doing. -/
  controllers : ι → Controller

namespace Gate

variable {ι : Type}

/-- A control that nobody is using. -/
def unused (flags : RunControl) (now horizon : Nat) : Gate ι :=
  ⟨flags, now, horizon, none, .away, fun _ => .idle⟩

/-! ## Steps -/

/-- A step of the thread of the run.  A moment that is too late to be waited for is a fault, which
also gives back the gate. -/
def pacerStep (g : Gate ι) : Gate ι :=
  match g.pacer with
  | .away => { g with pacer := .arriving g.now }
  | .arriving started =>
    if g.holder = none then { g with holder := some .pacer, pacer := .readingRunning started }
    else g
  | .readingRunning started =>
    { g with pacer := if g.flags.running then .readingPaused started else .leaving }
  | .readingPaused started =>
    { g with pacer := if g.flags.paused then .dozing started none else .readingSpeed started }
  | .readingSpeed started =>
    match g.flags.delay with
    | .endless => { g with pacer := .dozing started none }
    | .lasting d =>
      if started + d.nanoseconds < g.horizon then
        { g with pacer := .readingClock started (started + d.nanoseconds) }
      else { g with pacer := .leaving }
    | .tooLong => { g with pacer := .leaving }
  | .readingClock started deadline =>
    { g with pacer := if deadline ≤ g.now then .leaving else .dozing started (some deadline) }
  | .dozing started deadline? => { g with holder := none, pacer := .asleep started deadline? }
  | .asleep started deadline? =>
    if ∃ deadline ∈ deadline?, deadline ≤ g.now then { g with pacer := .arriving started } else g
  | .leaving => { g with holder := none, pacer := .away }

variable [DecidableEq ι]

/-- The control with a controller doing something else. -/
def withController (g : Gate ι) (i : ι) (c : Controller) : Gate ι :=
  { g with controllers := Function.update g.controllers i c }

/-- A step of a controller. -/
def controllerStep (g : Gate ι) (i : ι) : Gate ι :=
  match g.controllers i with
  | .idle => g
  | .storing _ (s :: left) =>
    { g.withController i (.storing true left) with flags := g.flags.write s }
  | .storing _ [] =>
    if g.holder = none then
      { g.withController i .notifying with holder := some (.controller i) }
    else g
  | .notifying => { g.withController i .leaving with pacer := g.pacer.notified }
  | .leaving => { g.withController i .idle with holder := none }

/-- A controller that does nothing begins to carry out an action. -/
def begin (g : Gate ι) (i : ι) (action : ControlAction) : Gate ι :=
  match g.controllers i with
  | .idle => g.withController i (.storing false action.stores)
  | _ => g

/-- What can happen at the gate. -/
inductive Event (ι : Type) where
  /-- The thread of the run takes a step. -/
  | pacer
  /-- A controller takes a step. -/
  | controller (i : ι)
  /-- A controller begins to carry out an action. -/
  | action (i : ι) (action : ControlAction)
  /-- Time goes by. -/
  | elapse (nanoseconds : Nat)

/-- The control after an event. -/
def after (g : Gate ι) : Event ι → Gate ι
  | .pacer => g.pacerStep
  | .controller i => g.controllerStep i
  | .action i action => g.begin i action
  | .elapse nanoseconds => { g with now := g.now + nanoseconds }

/-- The control after some events. -/
def play (g : Gate ι) (events : List (Event ι)) : Gate ι := events.foldl after g

@[simp] lemma play_nil (g : Gate ι) : g.play [] = g := rfl

@[simp] lemma play_cons (g : Gate ι) (e : Event ι) (events : List (Event ι)) :
    g.play (e :: events) = (g.after e).play events := rfl

lemma play_append (g : Gate ι) (events more : List (Event ι)) :
    g.play (events ++ more) = (g.play events).play more := by
  simp [play]

end Gate

/-! ## What is known at the gate -/

/-- Whether the thread of the run has the gate. -/
def Pacer.HasGate : Pacer → Prop
  | .away | .arriving _ | .asleep _ _ => False
  | _ => True

/-- Whether a controller has the gate. -/
def Controller.HasGate : Controller → Prop
  | .notifying | .leaving => True
  | _ => False

/-- Whether a controller is between a write and its notification. -/
def Controller.Unannounced : Controller → Prop
  | .storing made _ => made = true
  | .notifying => True
  | _ => False

/-- Whether what the thread of the run has read so far is what the flags say. -/
def Pacer.Knows (c : RunControl) : Pacer → Prop
  | .readingPaused _ | .readingSpeed _ => c.running = true
  | .readingClock started deadline =>
    c.running = true ∧ ∃ d, c.delay = .lasting d ∧ deadline = started + d.nanoseconds
  | .dozing started deadline? | .asleep started deadline? => c.SleepsUntil started deadline?
  | _ => True

/-- Without the gate and awake, the thread of the run takes nothing for granted. -/
lemma Pacer.knows_notified {p : Pacer} (h : ¬ p.HasGate) (c : RunControl) : p.notified.Knows c := by
  cases p with
  | away | arriving | asleep => trivial
  | _ => exact absurd trivial h

lemma Pacer.not_hasGate_notified {p : Pacer} (h : ¬ p.HasGate) : ¬ p.notified.HasGate := by
  cases p with
  | away | arriving | asleep => exact id
  | _ => exact absurd trivial h

namespace Gate

variable {ι : Type} {g : Gate ι} {i : ι}

/-- Whether some controller is between a write and its notification. -/
def Unannounced (g : Gate ι) : Prop := ∃ i, (g.controllers i).Unannounced

/-- One thread at most has the gate, and what the thread of the run has read holds, unless a
controller has yet to announce what it wrote. -/
structure Consistent (g : Gate ι) : Prop where
  pacer : g.pacer.HasGate ↔ g.holder = some .pacer
  controller (i : ι) : (g.controllers i).HasGate ↔ g.holder = some (.controller i)
  knows : ¬ g.Unannounced → g.pacer.Knows g.flags

lemma consistent_unused (flags : RunControl) (now horizon : Nat) :
    (unused flags now horizon : Gate ι).Consistent := by
  constructor
  · exact ⟨nofun, nofun⟩
  · exact fun i => ⟨nofun, nofun⟩
  · exact fun _ => trivial

/-! ## Steps of the run -/

/-- The thread of the run goes on, with the gate or without it, as before. -/
lemma Consistent.withPacer (h : g.Consistent) {p q : Pacer} (hq : g.pacer = q)
    (hgate : p.HasGate ↔ q.HasGate) (hknows : q.Knows g.flags → p.Knows g.flags) :
    { g with pacer := p }.Consistent := by
  subst hq
  exact ⟨hgate.trans h.pacer, h.controller, fun hall => hknows (h.knows hall)⟩

/-- The thread of the run gives back the gate. -/
lemma Consistent.released (h : g.Consistent) {p q : Pacer} (hq : g.pacer = q) (hhas : q.HasGate)
    (hgate : ¬ p.HasGate) (hknows : q.Knows g.flags → p.Knows g.flags) :
    { g with holder := none, pacer := p }.Consistent := by
  subst hq
  have hnone (i : ι) : ¬ (g.controllers i).HasGate := by
    rw [h.controller i, h.pacer.1 hhas]
    exact nofun
  refine ⟨iff_of_false hgate nofun, fun i => ?_, fun hall => hknows (h.knows hall)⟩
  exact iff_of_false (hnone i) nofun

/-- The thread of the run gets the gate. -/
lemma Consistent.entered (h : g.Consistent) (hfree : g.holder = none) (started : Nat) :
    { g with holder := some .pacer, pacer := .readingRunning started }.Consistent := by
  have hnone (i : ι) : ¬ (g.controllers i).HasGate := by
    rw [h.controller i, hfree]
    exact nofun
  refine ⟨iff_of_true trivial rfl, fun i => ?_, fun _ => trivial⟩
  exact iff_of_false (hnone i) nofun

/-- Only at speed 0 there is no end to a delay. -/
lemma speed_eq_zero_of_delay {c : RunControl} (h : c.delay = .endless) : c.speed = 0 := by
  unfold RunControl.delay at h
  split at h
  · assumption
  · split at h <;> cases h

/-- The thread of the run keeps the gate consistent. -/
theorem consistent_pacerStep (h : g.Consistent) : g.pacerStep.Consistent := by
  fun_cases pacerStep g with
  | case1 hpacer => exact h.withPacer hpacer Iff.rfl fun _ => trivial
  | case2 started hpacer hfree => exact h.entered hfree started
  | case3 started hpacer hfree => exact h
  | case4 started hpacer =>
    by_cases hrunning : g.flags.running = true
    · rw [if_pos hrunning]
      exact h.withPacer hpacer Iff.rfl fun _ => hrunning
    · rw [if_neg hrunning]
      exact h.withPacer hpacer Iff.rfl fun _ => trivial
  | case5 started hpacer =>
    by_cases hpaused : g.flags.paused = true
    · rw [if_pos hpaused]
      exact h.withPacer hpacer Iff.rfl fun hrunning => ⟨hrunning, .inl hpaused⟩
    · rw [if_neg hpaused]
      exact h.withPacer hpacer Iff.rfl fun hrunning => hrunning
  | case6 started hpacer hdelay =>
    have hspeed : g.flags.speed = 0 := speed_eq_zero_of_delay hdelay
    exact h.withPacer hpacer Iff.rfl fun hrunning => ⟨hrunning, .inr (.inl hspeed)⟩
  | case7 started hpacer d hdelay hearly =>
    exact h.withPacer hpacer Iff.rfl fun hrunning => ⟨hrunning, d, hdelay, rfl⟩
  | case8 started hpacer d hdelay hlate => exact h.withPacer hpacer Iff.rfl fun _ => trivial
  | case9 started hpacer hdelay => exact h.withPacer hpacer Iff.rfl fun _ => trivial
  | case10 started deadline hpacer =>
    by_cases hover : deadline ≤ g.now
    · rw [if_pos hover]
      exact h.withPacer hpacer Iff.rfl fun _ => trivial
    · rw [if_neg hover]
      refine h.withPacer hpacer Iff.rfl fun ⟨hrunning, d, hdelay, hdeadline⟩ => ?_
      exact ⟨hrunning, .inr (.inr ⟨d, hdelay, congrArg some hdeadline⟩)⟩
  | case11 started deadline? hpacer => exact h.released hpacer trivial id id
  | case12 started deadline? hpacer hover => exact h.withPacer hpacer Iff.rfl fun _ => trivial
  | case13 started deadline? hpacer hover => exact h
  | case14 hpacer => exact h.released hpacer trivial id fun _ => trivial

lemma controllers_pacerStep (g : Gate ι) : g.pacerStep.controllers = g.controllers := by
  fun_cases pacerStep g <;> rfl

/-! ## Steps of controllers -/

section Controllers

variable [DecidableEq ι]

lemma controllers_withController_self (g : Gate ι) (i : ι) (c : Controller) :
    (g.withController i c).controllers i = c := by
  simp [withController]

lemma controllers_withController_of_ne {j : ι} (hji : j ≠ i) (c : Controller) :
    (g.withController i c).controllers j = g.controllers j := by
  simp [withController, hji]

lemma unannounced_withController_self (g : Gate ι) (i : ι) {c : Controller} (hc : c.Unannounced) :
    ((g.withController i c).controllers i).Unannounced := by
  rwa [controllers_withController_self]

/-- The gate passes from one holder to another, by a step of a controller. -/
lemma controller_withController {holder : Option (Holder ι)} {c : Controller}
    (hself : c.HasGate ↔ holder = some (.controller i))
    (hother : ∀ j, j ≠ i → ((g.controllers j).HasGate ↔ holder = some (.controller j))) (j : ι) :
    ((g.withController i c).controllers j).HasGate ↔ holder = some (.controller j) := by
  by_cases hj : j = i
  · rw [hj, controllers_withController_self]
    exact hself
  · rw [controllers_withController_of_ne hj]
    exact hother j hj

/-- What is unannounced stays so if the controller that takes a step announces nothing. -/
lemma Unannounced.withController {c : Controller} (h : g.Unannounced)
    (hc : (g.controllers i).Unannounced → c.Unannounced) :
    (g.withController i c).Unannounced := by
  obtain ⟨j, hj⟩ := h
  by_cases hji : j = i
  · subst hji
    exact ⟨j, unannounced_withController_self g j (hc hj)⟩
  · exact ⟨j, by rwa [controllers_withController_of_ne hji]⟩

/-- A controller goes on, without the gate. -/
lemma Consistent.withController (h : g.Consistent) {c : Controller}
    (hgate : c.HasGate ↔ (g.controllers i).HasGate)
    (hannounced : (g.controllers i).Unannounced → c.Unannounced) :
    (g.withController i c).Consistent where
  pacer := h.pacer
  controller := controller_withController (hgate.trans (h.controller i)) fun j _ => h.controller j
  knows hall := h.knows fun hsome => hall (hsome.withController hannounced)

lemma consistent_begin (h : g.Consistent) (action : ControlAction) :
    (g.begin i action).Consistent := by
  unfold begin
  split
  · rename_i hidle
    refine h.withController ?_ ?_
    · rw [hidle]
      exact Iff.rfl
    · rw [hidle]
      exact False.elim
  · exact h

/-- A controller makes a write, which leaves the flags unannounced. -/
lemma Consistent.written (h : g.Consistent) (hc : ¬ (g.controllers i).HasGate) (s : Store)
    (left : List Store) :
    { g.withController i (.storing true left) with flags := g.flags.write s }.Consistent where
  pacer := h.pacer
  controller :=
    controller_withController (iff_of_false id (mt (h.controller i).2 hc)) fun j _ => h.controller j
  knows hall := by
    have hsome : (g.withController i (.storing true left)).Unannounced :=
      ⟨i, unannounced_withController_self g i rfl⟩
    exact absurd hsome hall

/-- A controller gets the gate, in order to announce what it wrote. -/
lemma Consistent.locked (h : g.Consistent) (hfree : g.holder = none) :
    { g.withController i .notifying with holder := some (.controller i) }.Consistent where
  pacer := by
    have hnot : ¬ g.pacer.HasGate := by simp [h.pacer, hfree]
    exact iff_of_false hnot nofun
  controller := by
    refine controller_withController (iff_of_true trivial rfl) fun j hj => ?_
    have hnot : ¬ (g.controllers j).HasGate := by simp [h.controller j, hfree]
    exact iff_of_false hnot fun heq => hj (by cases heq; rfl)
  knows hall := by
    have hsome : (g.withController i .notifying).Unannounced :=
      ⟨i, unannounced_withController_self g i trivial⟩
    exact absurd hsome hall

/-- A controller notifies, which finds the thread of the run without the gate. -/
lemma Consistent.announced (h : g.Consistent) (hc : (g.controllers i).HasGate) :
    { g.withController i .leaving with pacer := g.pacer.notified }.Consistent := by
  have hholder : g.holder = some (.controller i) := (h.controller i).1 hc
  have hnot : ¬ g.pacer.HasGate := by simp [h.pacer, hholder]
  constructor
  · exact iff_of_false (Pacer.not_hasGate_notified hnot) (mt h.pacer.2 hnot)
  · exact controller_withController (iff_of_true trivial hholder) fun j _ => h.controller j
  · exact fun _ => Pacer.knows_notified hnot _

/-- A controller gives back the gate, with nothing left to be announced. -/
lemma Consistent.unlocked (h : g.Consistent) (hc : g.controllers i = .leaving) :
    { g.withController i .idle with holder := none }.Consistent := by
  have hholder : g.holder = some (.controller i) := (h.controller i).1 (by rw [hc]; trivial)
  have hnot : ¬ g.pacer.HasGate := by simp [h.pacer, hholder]
  constructor
  · exact iff_of_false hnot nofun
  · refine controller_withController (iff_of_false id nofun) fun j hj => ?_
    have hother : ¬ (g.controllers j).HasGate := by
      rw [h.controller j, hholder]
      exact fun heq => hj (by cases heq; rfl)
    exact iff_of_false hother nofun
  · refine fun hall => h.knows fun hsome => hall (hsome.withController ?_)
    rw [hc]
    exact False.elim

/-- Controllers keep the gate consistent. -/
theorem consistent_controllerStep (h : g.Consistent) (i : ι) : (g.controllerStep i).Consistent := by
  fun_cases controllerStep g i with
  | case1 hc => exact h
  | case2 made s left hc => exact h.written (by rw [hc]; exact id) s left
  | case3 made hc hfree => exact h.locked hfree
  | case4 made hc hfree => exact h
  | case5 hc => exact h.announced (by rw [hc]; trivial)
  | case6 hc => exact h.unlocked hc

/-- Whatever happens keeps the gate consistent. -/
theorem consistent_play (h : g.Consistent) (events : List (Event ι)) :
    (g.play events).Consistent := by
  induction events generalizing g with
  | nil => exact h
  | cons e events ih =>
    cases e with
    | pacer => exact ih (consistent_pacerStep h)
    | controller i => exact ih (consistent_controllerStep h i)
    | action i action => exact ih (consistent_begin h action)
    | elapse nanoseconds => exact ih ⟨h.pacer, h.controller, h.knows⟩

/-! ## Waking -/

/-- Whether the thread of the run sleeps and has not been woken. -/
def Asleep (g : Gate ι) : Prop := ∃ started deadline?, g.pacer = .asleep started deadline?

/-- Whether the thread of the run is awake at some moment of a play. -/
def Woken (g : Gate ι) (events : List (Event ι)) : Prop :=
  ∃ front, front <+: events ∧ ¬ (g.play front).Asleep

lemma controllers_controllerStep_of_ne {j : ι} (hij : i ≠ j) :
    (g.controllerStep j).controllers i = g.controllers i := by
  fun_cases controllerStep g j with
  | case1 | case4 => rfl
  | case2 | case3 | case5 | case6 => exact controllers_withController_of_ne hij _

lemma controllers_begin_of_ne {j : ι} (hij : i ≠ j) (action : ControlAction) :
    (g.begin j action).controllers i = g.controllers i := by
  fun_cases begin g j action with
  | case1 => exact controllers_withController_of_ne hij _
  | case2 => rfl

/-- A controller that is to announce a write still is after its step, unless it wakes the run. -/
lemma unannounced_controllerStep (hasleep : g.Asleep) (hi : (g.controllers i).Unannounced) :
    ¬ (g.controllerStep i).Asleep ∨ ((g.controllerStep i).controllers i).Unannounced := by
  fun_cases controllerStep g i with
  | case1 hc | case6 hc =>
    rw [hc] at hi
    exact hi.elim
  | case2 made s left hc => exact .inr (unannounced_withController_self g i rfl)
  | case3 made hc hfree => exact .inr (unannounced_withController_self g i trivial)
  | case4 made hc hfree => exact .inr hi
  | case5 hc =>
    obtain ⟨started, deadline?, hpacer⟩ := hasleep
    left
    rintro ⟨started', deadline?', hstill⟩
    change g.pacer.notified = _ at hstill
    rw [hpacer] at hstill
    cases hstill

lemma unannounced_after (hasleep : g.Asleep) (hi : (g.controllers i).Unannounced) (e : Event ι) :
    ¬ (g.after e).Asleep ∨ ((g.after e).controllers i).Unannounced := by
  cases e with
  | pacer =>
    right
    rwa [after, controllers_pacerStep]
  | controller j =>
    by_cases hij : i = j
    · subst hij
      exact unannounced_controllerStep hasleep hi
    · right
      rwa [after, controllers_controllerStep_of_ne hij]
  | action j action =>
    right
    by_cases hij : i = j
    · subst hij
      rw [after, begin]
      split
      · rename_i hidle
        rw [hidle] at hi
        exact hi.elim
      · exact hi
    · rwa [after, controllers_begin_of_ne hij]
  | elapse nanoseconds => exact .inr hi

/-- No play gets past a controller that is to announce a write without waking the run. -/
lemma woken_or_unannounced (hasleep : g.Asleep) (hi : (g.controllers i).Unannounced)
    (events : List (Event ι)) :
    g.Woken events ∨ ((g.play events).controllers i).Unannounced := by
  induction events generalizing g with
  | nil => exact .inr hi
  | cons e events ih =>
    by_cases hasleep' : (g.after e).Asleep
    · have hstill := (unannounced_after hasleep hi e).resolve_left (not_not.2 hasleep')
      refine (ih hasleep' hstill).imp_left ?_
      rintro ⟨front, hfront, hawake⟩
      exact ⟨e :: front, (List.prefix_cons_inj e).2 hfront, hawake⟩
    · exact .inl ⟨[e], by simp, hasleep'⟩

section Arriving

variable {started : Nat} {deadline? : Option Nat}

lemma pacer_controllerStep (hasleep : g.pacer = .asleep started deadline?)
    (hi : g.controllers i = .notifying) : (g.controllerStep i).pacer = .arriving started := by
  simp [controllerStep, hi, hasleep, Pacer.notified]

/-- At a gate that nobody has, a controller locks and notifies. -/
lemma exists_arriving_of_free (hasleep : g.pacer = .asleep started deadline?)
    (hfree : g.holder = none) {made : Bool} (hi : g.controllers i = .storing made []) :
    ∃ steps : List ι, (g.play (steps.map .controller)).pacer = .arriving started := by
  have hlock : g.controllerStep i =
      { g.withController i .notifying with holder := some (.controller i) } := by
    simp [controllerStep, hi, hfree]
  refine ⟨[i, i], ?_⟩
  change ((g.controllerStep i).controllerStep i).pacer = _
  rw [hlock]
  exact pacer_controllerStep hasleep (controllers_withController_self g i _)

/-- Whoever else has the gate notifies or gives it back. -/
lemma exists_arriving_of_wanting (h : g.Consistent) (hasleep : g.pacer = .asleep started deadline?)
    {made : Bool} (hi : g.controllers i = .storing made []) :
    ∃ steps : List ι, (g.play (steps.map .controller)).pacer = .arriving started := by
  cases hholder : g.holder with
  | none => exact exists_arriving_of_free hasleep hholder hi
  | some holder =>
    cases holder with
    | pacer =>
      have hhas := h.pacer.2 hholder
      rw [hasleep] at hhas
      exact hhas.elim
    | controller j =>
      have hhas := (h.controller j).2 hholder
      cases hj : g.controllers j with
      | idle | storing =>
        rw [hj] at hhas
        exact hhas.elim
      | notifying => exact ⟨[j], pacer_controllerStep hasleep hj⟩
      | leaving =>
        have hij : i ≠ j := by
          rintro rfl
          rw [hi] at hj
          cases hj
        have hunlock : g.controllerStep j = { g.withController j .idle with holder := none } := by
          simp [controllerStep, hj]
        have hfree : (g.controllerStep j).holder = none := by rw [hunlock]
        have hpacer : (g.controllerStep j).pacer = .asleep started deadline? := by
          rw [hunlock]
          exact hasleep
        have hwants : (g.controllerStep j).controllers i = .storing made [] := by
          rw [controllers_controllerStep_of_ne hij, hi]
        obtain ⟨steps, hsteps⟩ := exists_arriving_of_free hpacer hfree hwants
        exact ⟨j :: steps, hsteps⟩

lemma exists_arriving_of_storing (h : g.Consistent) (hasleep : g.pacer = .asleep started deadline?)
    {made : Bool} {left : List Store} (hi : g.controllers i = .storing made left) :
    ∃ steps : List ι, (g.play (steps.map .controller)).pacer = .arriving started := by
  induction left generalizing g made with
  | nil => exact exists_arriving_of_wanting h hasleep hi
  | cons s left ih =>
    have hwrite : g.controllerStep i =
        { g.withController i (.storing true left) with flags := g.flags.write s } := by
      simp [controllerStep, hi]
    have hpacer : (g.controllerStep i).pacer = .asleep started deadline? := by
      rw [hwrite]
      exact hasleep
    have hstores : (g.controllerStep i).controllers i = .storing true left := by
      rw [hwrite]
      exact controllers_withController_self g i _
    obtain ⟨steps, hsteps⟩ := ih (consistent_controllerStep h i) hpacer hstores
    exact ⟨i :: steps, hsteps⟩

/-- A controller that is to announce a write can get through, whatever the other threads are doing.
-/
lemma exists_arriving (h : g.Consistent) (hasleep : g.pacer = .asleep started deadline?)
    (hi : (g.controllers i).Unannounced) :
    ∃ steps : List ι, (g.play (steps.map .controller)).pacer = .arriving started := by
  cases hc : g.controllers i with
  | idle | leaving =>
    rw [hc] at hi
    exact hi.elim
  | storing made left => exact exists_arriving_of_storing h hasleep hc
  | notifying => exact ⟨[i], pacer_controllerStep hasleep hc⟩

end Arriving

/-- Whatever the threads do: while the run sleeps and no controller is to announce a write, it is
running, and it is paused, at speed 0, or it sleeps up to the end of the delay at its speed.  A
controller that is to announce a write wakes the run before it is through, unless the run is awake
earlier; and no thread can keep the controller from getting through. -/
theorem no_lost_wakeup (flags : RunControl) (now horizon : Nat) (events : List (Event ι)) :
    let g : Gate ι := (unused flags now horizon).play events
    ∀ started deadline?, g.pacer = .asleep started deadline? →
      (¬ g.Unannounced → g.flags.SleepsUntil started deadline?) ∧
      ∀ i, (g.controllers i).Unannounced →
        (∀ more, g.Woken more ∨ ((g.play more).controllers i).Unannounced) ∧
        ∃ steps : List ι, (g.play (steps.map .controller)).pacer = .arriving started := by
  intro g started deadline? hasleep
  have hconsistent : g.Consistent := consistent_play (consistent_unused flags now horizon) events
  refine ⟨fun hall => ?_, fun i hi => ⟨woken_or_unannounced ⟨_, _, hasleep⟩ hi, ?_⟩⟩
  · have hknows := hconsistent.knows hall
    rwa [hasleep] at hknows
  · exact exists_arriving hconsistent hasleep hi

/-- A run reads that it is paused.  It is resumed before it falls asleep, but not yet notified. -/
theorem no_lost_wakeup_resume :
    let doze : List (Event Bool) := [.action false .pause, .controller false, .controller false,
      .controller false, .controller false, .pacer, .pacer, .pacer, .pacer]
    let g : Gate Bool := unused (.ofSettings {}) 0 1
    let paused := g.play (doze ++ [.pacer])
    let resumed := g.play (doze ++ [.action true .resume, .controller true, .pacer])
    (paused.pacer = .asleep 0 none ∧ paused.flags.SleepsUntil 0 none) ∧
      resumed.pacer = .asleep 0 none ∧ ¬ resumed.flags.SleepsUntil 0 none ∧
      ∃ steps : List Bool, (resumed.play (steps.map .controller)).pacer = .arriving 0 := by
  intro doze g paused resumed
  have hpaused : paused.pacer = .asleep 0 none := by cbv
  have hresumed : resumed.pacer = .asleep 0 none := by cbv
  have hidle : paused.controllers false = .idle ∧ paused.controllers true = .idle := by
    constructor <;> cbv
  have hstoring : resumed.controllers true = .storing true [] := by cbv
  have hall : ¬ paused.Unannounced := by
    rintro ⟨i, hi⟩
    cases i with
    | false => rwa [hidle.1] at hi
    | true => rwa [hidle.2] at hi
  have hawake : ¬ resumed.flags.SleepsUntil 0 none := by
    have hholds : resumed.flags.holds = false := by cbv
    rw [RunControl.sleepsUntil_none_iff, hholds]
    exact Bool.false_ne_true
  have hone : (resumed.controllers true).Unannounced := by
    rw [hstoring]
    rfl
  have hsleeping := no_lost_wakeup (.ofSettings {}) 0 1 (doze ++ [.pacer]) 0 none
  have hreason : paused.flags.SleepsUntil 0 none := (hsleeping hpaused).1 hall
  have hwaking := no_lost_wakeup (.ofSettings {}) 0 1
    (doze ++ [.action true .resume, .controller true, .pacer]) 0 none
  have hreach := ((hwaking hresumed).2 true hone).2
  exact ⟨⟨hpaused, hreason⟩, hresumed, hawake, hreach⟩

end Controllers

end Gate

end Logo
