import Mathlib.Algebra.Order.Ring.Int

/-!
# Postconditions of computations that can fail

`Ensures x E Q` says how a computation in `Except ε` may end: with a result that
satisfies `Q`, or with an error that satisfies `E`. The rules follow the
computation: one for each way it is put together.
-/

namespace AndroidKernel

variable {ε α β : Type}

/-- A result of `x` satisfies `Q`, an error of `x` satisfies `E`. -/
def Ensures (x : Except ε α) (E : ε → Prop) (Q : α → Prop) : Prop :=
  match x with
  | .ok a => Q a
  | .error e => E e

namespace Ensures

variable {x : Except ε α} {f : α → Except ε β} {E E' : ε → Prop} {P Q Q' : α → Prop} {R : β → Prop}

@[simp] theorem pure_iff {a : α} : Ensures (pure a) E Q ↔ Q a := Iff.rfl

/-- A sequence ensures what its second part ensures after any result of its
first part. -/
theorem bind (hx : Ensures x E P) (hf : ∀ a, P a → Ensures (f a) E R) : Ensures (x >>= f) E R := by
  cases x with
  | ok a => exact hf a hx
  | error e => exact hx

theorem ok_bind {a : α} (h : Ensures (f a) E R) : Ensures (.ok a >>= f) E R := h

theorem mono (h : Ensures x E P) (hE : ∀ e, E e → E' e) (hP : ∀ a, P a → Q a) : Ensures x E' Q := by
  cases x with
  | ok a => exact hP a h
  | error e => exact hE e h

theorem weaken (h : Ensures x E P) (hP : ∀ a, P a → Q a) : Ensures x E Q :=
  h.mono (fun _ he => he) hP

/-- Two postconditions hold together. -/
theorem and (h : Ensures x E Q) (h' : Ensures x E' Q') :
    Ensures x (fun e => E e ∧ E' e) fun a => Q a ∧ Q' a := by
  cases x with
  | ok a | error e => exact ⟨h, h'⟩

end Ensures

end AndroidKernel
