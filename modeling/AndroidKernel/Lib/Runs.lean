import Mathlib.Algebra.Order.Ring.Int

/-!
# Runs of a machine

A machine is a partial function `step` that says to which state an operation
leads. `Reached` are the states that its runs lead to; only operations that meet
a condition `ok`, which may depend on the state, are used in them.
-/

namespace AndroidKernel

open Option

variable {σ ω : Type}

/-- A step that looks something up and then has a condition on it. -/
theorem bind_ite_eq_some {o : Option σ} {p : σ → Prop} [DecidablePred p] {f : σ → ω} {y : ω} :
    (o.bind fun x => if p x then some (f x) else none) = some y ↔
      ∃ x, o = some x ∧ p x ∧ f x = y := by
  simp only [bind_eq_some_iff, ite_some_none_eq_some]

/-- The states that a machine reaches from `init` by operations that meet `ok`. -/
inductive Reached (step : σ → ω → Option σ) (ok : σ → ω → Prop) (init : σ) : σ → Prop
  | init : Reached step ok init init
  | step {s s' : σ} {op : ω} :
      Reached step ok init s → ok s op → step s op = some s' → Reached step ok init s'

namespace Reached

variable {step : σ → ω → Option σ} {ok ok' : σ → ω → Prop} {init s s' : σ} {P : σ → Prop}

/-- What is true at the start and kept by every step is true in every state
reached. -/
theorem invariant (h : Reached step ok init s) (hinit : P init)
    (hstep : ∀ s s' op, P s → ok s op → step s op = some s' → P s') : P s := by
  induction h with
  | init => exact hinit
  | step _ hok hs ih => exact hstep _ _ _ ih hok hs

/-- A weaker condition allows more runs. -/
theorem mono (h : Reached step ok init s) (hok : ∀ s op, ok s op → ok' s op) :
    Reached step ok' init s := by
  induction h with
  | init => exact .init
  | step _ h hs ih => exact .step ih (hok _ _ h) hs

/-- A list of operations is a run if each meets the condition where it is used. -/
theorem of_checked [∀ s op, Decidable (ok s op)] (h : Reached step ok init s) {ops : List ω}
    (hops : ops.foldlM (fun s op => if ok s op then step s op else none) s = some s') :
    Reached step ok init s' := by
  induction ops generalizing s with
  | nil =>
    cases hops
    exact h
  | cons op ops ih =>
    obtain ⟨s₁, hs, hops⟩ := bind_eq_some_iff.mp hops
    obtain ⟨hok, hs⟩ := ite_none_right_eq_some.mp hs
    exact ih (h.step hok hs) hops

/-- A run to a state with a property, from an evaluation of the machine. -/
theorem exists_of_checked [∀ s op, Decidable (ok s op)] [DecidablePred P] (ops : List ω)
    (hops : (ops.foldlM (fun s op => if ok s op then step s op else none) init).any
      (fun s => decide (P s)) = true) : ∃ s, Reached step ok init s ∧ P s := by
  obtain ⟨s, hs, hp⟩ := (any_eq_true _ _).mp hops
  exact ⟨s, Reached.init.of_checked hs, of_decide_eq_true hp⟩

/-- The same with what is true in every state reached that has the property. -/
theorem exists_of_checked_and {Q : σ → Prop} [∀ s op, Decidable (ok s op)] [DecidablePred P]
    (ops : List ω) (hops : (ops.foldlM (fun s op => if ok s op then step s op else none) init).any
      (fun s => decide (P s)) = true) (h : ∀ s, Reached step ok init s → P s → Q s) :
    ∃ s, Reached step ok init s ∧ P s ∧ Q s := by
  obtain ⟨s, hs, hp⟩ := exists_of_checked ops hops
  exact ⟨s, hs, hp, h s hs hp⟩

end Reached

/-! ## Traces

A run with what can be seen of it: the events of its steps. -/

/-- The runs of a step relation with events. -/
inductive Trace {ε : Type} (step : σ → ε → σ → Prop) (init : σ) : List ε → σ → Prop
  | nil : Trace step init [] init
  | snoc {s s' : σ} {events : List ε} {e : ε} :
      Trace step init events s → step s e s' → Trace step init (events ++ [e]) s'

/-- If each step of one machine can be followed by another, so can each run. -/
theorem Trace.simulate {τ ε : Type} {step : σ → ε → σ → Prop} {step' : τ → ε → τ → Prop}
    {R : σ → τ → Prop} {init s : σ} {init' : τ} {events : List ε} (h : Trace step init events s)
    (hinit : R init init')
    (hstep : ∀ s s' t e, R s t → step s e s' → ∃ t', step' t e t' ∧ R s' t') :
    ∃ t, Trace step' init' events t ∧ R s t := by
  induction h with
  | nil => exact ⟨init', .nil, hinit⟩
  | snoc _ hs ih =>
    obtain ⟨t, ht, hR⟩ := ih
    obtain ⟨t', ht', hR'⟩ := hstep _ _ _ _ hR hs
    exact ⟨t', ht.snoc ht', hR'⟩

end AndroidKernel
