import Mathlib.Tactic.Common
import TreeMachine.Fault

/-! # Outcomes of stateful operations

  An operation ends with an answer or stops early, and in both cases with a new state.
  `Yields x s Q E` says what holds of the end: `Q` of an answer and `E` of a stop.  The
  lemmas take an operation apart along its steps.
-/

namespace TreeMachine

variable {ε ε' σ α β : Type}

/-- From the state `s` the operation `x` ends as `Q` says or stops as `E` says. -/
def Yields (x : EStateM ε σ α) (s : σ) (Q : α → σ → Prop) (E : ε → σ → Prop) : Prop :=
  match x s with
  | .ok a s' => Q a s'
  | .error e s' => E e s'

/-- The answer of an operation and the new state, if it has one. -/
def answer? : EStateM.Result ε σ α → Option (α × σ)
  | .ok a s => some (a, s)
  | .error _ _ => none

theorem answer?_eq_some {r : EStateM.Result ε σ α} {p : α × σ} :
    answer? r = some p ↔ r = .ok p.1 p.2 := by
  cases r <;> simp [answer?, Prod.ext_iff]

/-- The ordinary error of an operation and the new state, if it stops with one. -/
def error? : EStateM.Result (Stop ε) σ α → Option (ε × σ)
  | .error (.error e) s => some (e, s)
  | .error (.fault _) _ | .ok _ _ => none

theorem error?_eq_some {r : EStateM.Result (Stop ε) σ α} {p : ε × σ} :
    error? r = some p ↔ r = .error (.error p.1) p.2 := by
  rcases r with ⟨a, s⟩ | ⟨⟨f⟩ | ⟨e⟩, s⟩ <;> simp [error?, Prod.ext_iff]

theorem toOption_eq_some {x : Except ε α} {a : α} : x.toOption = some a ↔ x = .ok a := by
  cases x <;> simp [Except.toOption]

variable {Q Q' : α → σ → Prop} {E E' : ε → σ → Prop} {s s' : σ}

namespace Yields

theorem mono {x : EStateM ε σ α} (h : Yields x s Q E) (hq : ∀ a s', Q a s' → Q' a s')
    (he : ∀ e s', E e s' → E' e s') : Yields x s Q' E' := by
  unfold Yields at h ⊢
  split
  · rename_i heq
    rw [heq] at h
    exact hq _ _ h
  · rename_i heq
    rw [heq] at h
    exact he _ _ h

theorem imp {x : EStateM ε σ α} (h : Yields x s Q E) (hq : ∀ a s', Q a s' → Q' a s') :
    Yields x s Q' E :=
  h.mono hq fun _ _ => id

theorem of_ok {x : EStateM ε σ α} {a : α} (h : x s = .ok a s') (hq : Q a s') :
    Yields x s Q E := by
  rw [Yields, h]
  exact hq

theorem of_error {x : EStateM ε σ α} {e : ε} (h : x s = .error e s') (he : E e s') :
    Yields x s Q E := by
  rw [Yields, h]
  exact he

/-- Operations with the same outcome. -/
theorem congr {x y : EStateM ε σ α} (heq : x s = y s') (h : Yields y s' Q E) :
    Yields x s Q E := by
  rw [Yields, heq]
  exact h

theorem ok {x : EStateM ε σ α} {a : α} (h : Yields x s Q E) (heq : x s = .ok a s') : Q a s' := by
  rw [Yields, heq] at h
  exact h

theorem error {x : EStateM ε σ α} {e : ε} (h : Yields x s Q E) (heq : x s = .error e s') :
    E e s' := by
  rw [Yields, heq] at h
  exact h

/-- An operation that cannot stop has an answer. -/
theorem exists_ok {x : EStateM ε σ α} (h : Yields x s Q fun _ _ => False) :
    ∃ a s', x s = .ok a s' ∧ Q a s' := by
  unfold Yields at h
  split at h
  · exact ⟨_, _, ‹_›, h⟩
  · exact h.elim

/-- One step after the other. -/
theorem bind {x : EStateM ε σ α} {f : α → EStateM ε σ β} {R : β → σ → Prop}
    (h : Yields x s (fun a s' => Yields (f a) s' R E) E) : Yields (x >>= f) s R E := by
  unfold Yields at h ⊢
  show match (match x s with | .ok a s' => f a s' | .error e s' => .error e s' :
    EStateM.Result ε σ β) with | .ok a s' => R a s' | .error e s' => E e s'
  cases heq : x s with
  | ok a s' => rw [heq] at h; exact h
  | error e s' => rw [heq] at h; exact h

/-- A first step with a known answer. -/
theorem bind_ok {x : EStateM ε σ α} {f : α → EStateM ε σ β} {R : β → σ → Prop} {a : α}
    (heq : x s = .ok a s') (h : Yields (f a) s' R E) : Yields (x >>= f) s R E :=
  bind (of_ok heq h)

theorem pure {a : α} (h : Q a s) : Yields (Pure.pure a) s Q E := h

end Yields

/-! ### Steps with a known end -/

theorem bind_eq_ok {x : EStateM ε σ α} {f : α → EStateM ε σ β} {a : α}
    (heq : x s = .ok a s') : (x >>= f) s = f a s' := by
  show (match x s with | .ok a s' => f a s' | .error e s' => .error e s') = _
  rw [heq]

/-- A first step that reads the state. -/
theorem get_bind_eq {f : σ → EStateM ε σ β} : (get >>= f) s = f s s := rfl

/-- A first step with the outcome of another one. -/
theorem bind_run_congr {x y : EStateM ε σ α} {f : α → EStateM ε σ β} (heq : x s = y s') :
    (x >>= f) s = (y >>= f) s' := by
  show (match x s with | .ok a s' => f a s' | .error e s' => .error e s')
    = (match y s' with | .ok a s' => f a s' | .error e s' => .error e s')
  rw [heq]

theorem bind_eq_error {x : EStateM ε σ α} {f : α → EStateM ε σ β} {e : ε}
    (heq : x s = .error e s') : (x >>= f) s = .error e s' := by
  show (match x s with | .ok a s' => f a s' | .error e s' => .error e s') = _
  rw [heq]

/-- Sequences that go on alike after each answer of their first step. -/
theorem bind_congr_ok {x : EStateM ε σ α} {f g : α → EStateM ε σ β}
    (h : ∀ a t, x s = .ok a t → f a t = g a t) : (x >>= f) s = (x >>= g) s := by
  cases hx : x s with
  | ok a t => rw [bind_eq_ok hx, bind_eq_ok hx, h a t hx]
  | error e t => rw [bind_eq_error hx, bind_eq_error hx]

/-- A sequence that has an answer has one after its first step. -/
theorem of_bind_eq_ok {x : EStateM ε σ α} {f : α → EStateM ε σ β} {b : β}
    (h : (x >>= f) s = .ok b s') : ∃ a t, x s = .ok a t ∧ f a t = .ok b s' := by
  cases heq : x s with
  | ok a t => exact ⟨a, t, rfl, by rw [← h, bind_eq_ok heq]⟩
  | error e t => rw [bind_eq_error heq] at h; cases h

/-- A step that may only fault, among steps with errors. -/
theorem lift_eq_ok {x : EStateM Fault σ α} {a : α} (h : x s = .ok a s') :
    (liftM x : EStateM (Stop ε) σ α) s = .ok a s' := by
  simp only [liftM, monadLift, MonadLift.monadLift, h]

theorem lift_eq_ok_iff {x : EStateM Fault σ α} {a : α} :
    (liftM x : EStateM (Stop ε) σ α) s = .ok a s' ↔ x s = .ok a s' := by
  cases hx : x s <;> simp [liftM, monadLift, MonadLift.monadLift, hx]

theorem lift_eq_error {x : EStateM Fault σ α} {f : Fault} (h : x s = .error f s') :
    (liftM x : EStateM (Stop ε) σ α) s = .error (.fault f) s' := by
  simp only [liftM, monadLift, MonadLift.monadLift, h]

theorem mapStop_eq_ok {f : ε → ε'} {x : EStateM (Stop ε) σ α} {a : α} (h : x s = .ok a s') :
    mapStop f x s = .ok a s' := by
  simp only [mapStop, h]

theorem mapStop_eq_ok_iff {f : ε → ε'} {x : EStateM (Stop ε) σ α} {a : α} :
    mapStop f x s = .ok a s' ↔ x s = .ok a s' := by
  cases hx : x s <;> simp [mapStop, hx]

theorem mapStop_eq_error {f : ε → ε'} {x : EStateM (Stop ε) σ α} {e : Stop ε}
    (h : x s = .error e s') : mapStop f x s = .error (e.map f) s' := by
  simp only [mapStop, h]

theorem inspect_eq_ok {f : σ → Except ε α} {a : α} (h : f s = .ok a) :
    inspect f s = .ok a s := by
  simp only [inspect, h]

theorem inspect_eq_ok_iff {f : σ → Except ε α} {a : α} :
    inspect f s = .ok a s' ↔ f s = .ok a ∧ s' = s := by
  cases hf : f s <;> simp [inspect, hf, eq_comm]

theorem inspect_eq_error {f : σ → Except ε α} {e : ε} (h : f s = .error e) :
    inspect f s = .error e s := by
  simp only [inspect, h]

theorem inspect_eq_error_iff {f : σ → Except ε α} {e : ε} :
    inspect f s = .error e s' ↔ f s = .error e ∧ s' = s := by
  cases hf : f s <;> simp [inspect, hf, eq_comm]

/-- Looking at the state leaves it alone. -/
theorem Yields.inspect {f : σ → Except ε α} (hq : ∀ a, f s = .ok a → Q a s)
    (he : ∀ e, f s = .error e → E e s) : Yields (inspect f) s Q E := by
  cases hf : f s with
  | ok a => exact of_ok (inspect_eq_ok hf) (hq a hf)
  | error e => exact of_error (inspect_eq_error hf) (he e hf)

/-- A stateless step. -/
theorem Yields.bind_read {x : Except ε α} {f : α → EStateM ε σ β} {R : β → σ → Prop}
    (hf : ∀ a, x = .ok a → Yields (f a) s R E) (he : ∀ e, x = .error e → E e s) :
    Yields (liftM x >>= f) s R E := by
  cases x with
  | ok a => exact hf a rfl
  | error e => exact he e rfl

/-- A stateless step with a known answer. -/
theorem Yields.read_ok {x : Except ε α} {f : α → EStateM ε σ β} {R : β → σ → Prop} {a : α}
    (heq : x = .ok a) (h : Yields (f a) s R E) : Yields (liftM x >>= f) s R E := by
  subst heq
  exact h

/-- A first step that reads the state. -/
theorem Yields.get_bind {f : σ → EStateM ε σ β} {R : β → σ → Prop} (h : Yields (f s) s R E) :
    Yields (get >>= f) s R E := h

/-- A sequence of reads that has an answer has one after its first step. -/
theorem of_except_bind_eq_ok {x : Except ε α} {f : α → Except ε β} {b : β}
    (h : (x >>= f) = .ok b) : ∃ a, x = .ok a ∧ f a = .ok b := by
  cases x with
  | ok a => exact ⟨a, rfl, h⟩
  | error e => cases h

theorem except_bind_ok {x : Except ε α} {f : α → Except ε β} {a : α} (h : x = .ok a) :
    (x >>= f) = f a := by
  rw [h]
  rfl

end TreeMachine
