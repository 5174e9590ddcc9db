import Mathlib.Tactic.Common

/-!
# Contracts of computations with a state

A computation in `EStateM` ends with an answer or an error, and with a state in both cases.
`Meets x s Q E` says what holds of the two when `x` was started in `s`.  It commutes with every
construct of a `do` block (`meets_bind` and the lemmas around it), so a proof about a block follows
the block.
-/

namespace Logo

variable {ε σ α β : Type}

/-! ## Running a computation -/

lemma bind_apply (x : EStateM ε σ α) (f : α → EStateM ε σ β) (s : σ) :
    (x >>= f) s =
      match x s with
      | .ok v s' => f v s'
      | .error e s' => .error e s' := by
  simp only [bind, EStateM.bind]
  cases x s <;> rfl

lemma get_apply (s : σ) : (get : EStateM ε σ σ) s = .ok s s := rfl

lemma set_apply (s s' : σ) : (set s' : EStateM ε σ PUnit) s = .ok () s' := rfl

lemma modify_apply (f : σ → σ) (s : σ) : (modify f : EStateM ε σ PUnit) s = .ok () (f s) := rfl

lemma discard_apply (x : EStateM ε σ α) (s : σ) :
    (discard x : EStateM ε σ PUnit) s =
      match x s with
      | .ok _ s' => .ok () s'
      | .error e s' => .error e s' := by
  simp only [discard, Functor.discard, Functor.mapConst, EStateM.map, Function.comp]
  cases x s <;> rfl

/-! ## What holds afterwards -/

/-- What holds of the answer of a computation, or of its error, and of the state afterwards. -/
def Meets (x : EStateM ε σ α) (s : σ) (Q : α → σ → Prop) (E : ε → σ → Prop) : Prop :=
  match x s with
  | .ok v s' => Q v s'
  | .error e s' => E e s'

variable {x : EStateM ε σ α} {f : α → EStateM ε σ β} {s : σ}
variable {Q Q' : α → σ → Prop} {E E' : ε → σ → Prop}

lemma Meets.mono (h : Meets x s Q E) (hQ : ∀ v s', Q v s' → Q' v s')
    (hE : ∀ e s', E e s' → E' e s') : Meets x s Q' E' := by
  unfold Meets at h ⊢
  cases hx : x s with
  | ok v s' =>
    rw [hx] at h
    exact hQ v s' h
  | error e s' =>
    rw [hx] at h
    exact hE e s' h

theorem meets_bind {Q : β → σ → Prop} :
    Meets (x >>= f) s Q E ↔ Meets x s (fun v s' => Meets (f v) s' Q E) E := by
  unfold Meets
  rw [bind_apply]
  cases x s <;> rfl

/-- A computation, then another one that goes on from what the first one leaves. -/
lemma Meets.bind {Q' : β → σ → Prop} (h : Meets x s Q E) (hE : ∀ e s', E e s' → E' e s')
    (hf : ∀ v s', Q v s' → Meets (f v) s' Q' E') : Meets (x >>= f) s Q' E' :=
  meets_bind.2 (h.mono hf hE)

lemma meets_pure {v : α} : Meets (pure v) s Q E ↔ Q v s := Iff.rfl

lemma meets_throw {e : ε} : Meets (throw e) s Q E ↔ E e s := Iff.rfl

lemma meets_get {Q : σ → σ → Prop} : Meets get s Q E ↔ Q s s := Iff.rfl

lemma meets_modify {g : σ → σ} {Q : PUnit → σ → Prop} :
    Meets (modify g) s Q E ↔ Q () (g s) := Iff.rfl

lemma meets_discard {Q : Unit → σ → Prop} :
    Meets (discard x) s Q E ↔ Meets x s (fun _ s' => Q () s') E := by
  unfold Meets
  rw [discard_apply]
  cases x s <;> rfl

/-- A computation that succeeds meets a condition if its result does. -/
lemma meets_of_ok {v : α} {s' : σ} (h : x s = .ok v s') (hQ : Q v s') : Meets x s Q E := by
  unfold Meets
  rw [h]
  exact hQ

lemma meets_of_error {e : ε} {s' : σ} (h : x s = .error e s') (hE : E e s') : Meets x s Q E := by
  unfold Meets
  rw [h]
  exact hE

/-- What a computation meets holds of its result. -/
lemma Meets.of_ok {v : α} {s' : σ} (h : Meets x s Q E) (hx : x s = .ok v s') : Q v s' := by
  unfold Meets at h
  rwa [hx] at h

lemma Meets.of_error {e : ε} {s' : σ} (h : Meets x s Q E) (hx : x s = .error e s') : E e s' := by
  unfold Meets at h
  rwa [hx] at h

/-- A computation of whose errors nothing can hold succeeds. -/
lemma Meets.exists_ok (h : Meets x s Q fun _ _ => False) : ∃ v s', x s = .ok v s' ∧ Q v s' := by
  cases hx : x s with
  | ok v s' => exact ⟨v, s', rfl, h.of_ok hx⟩
  | error e s' => exact (h.of_error hx).elim

lemma Meets.exists_error (h : Meets x s (fun _ _ => False) E) :
    ∃ e s', x s = .error e s' ∧ E e s' := by
  cases hx : x s with
  | ok v s' => exact (h.of_ok hx).elim
  | error e s' => exact ⟨e, s', rfl, h.of_error hx⟩

end Logo
