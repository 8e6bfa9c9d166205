import Mathlib.Algebra.Order.Ring.Int

/-!
# Heaps of objects

A `Heap α` holds the live objects of one type. An object is named by the number
under which it was allocated. Numbers are not used again, so that a pointer to a
freed object never comes to mean another one; reading such a pointer finds
nothing.
-/

namespace AndroidKernel

/-- The live objects of one type. Everything from `next` on is still to be
allocated. -/
structure Heap (α : Type) where
  cells : Nat → Option α
  next : Nat
  fresh : ∀ i, next ≤ i → cells i = none

namespace Heap

variable {α : Type}

/-- No object has been allocated yet. -/
def empty : Heap α := ⟨fun _ => none, 0, fun _ _ => rfl⟩

/-- The object under number `i`, if it is live. -/
def get (h : Heap α) (i : Nat) : Option α := h.cells i

/-- The heap with one more object, whose number is `h.next`. -/
def alloc (h : Heap α) (x : α) : Heap α where
  cells j := if j = h.next then some x else h.cells j
  next := h.next + 1
  fresh j hj := by
    rw [if_neg (by omega)]
    exact h.fresh j (by omega)

/-- An assignment to a live object; it does not bring a freed one back. -/
def set (h : Heap α) (i : Nat) (x : α) : Heap α where
  cells j := if j = i then (h.cells j).map fun _ => x else h.cells j
  next := h.next
  fresh j hj := by simp [h.fresh j hj]

/-- `kfree`. -/
def free (h : Heap α) (i : Nat) : Heap α where
  cells j := if j = i then none else h.cells j
  next := h.next
  fresh j hj := by simp [h.fresh j hj]

variable {h : Heap α} {i j : Nat} {x y : α}

theorem lt_next_of_get (hi : h.get i = some x) : i < h.next := by
  by_contra hlt
  have := h.fresh i (by omega)
  simp_all [get]

@[simp] theorem get_next : h.get h.next = none := h.fresh _ le_rfl

@[simp] theorem next_alloc : (h.alloc x).next = h.next + 1 := rfl

@[simp] theorem next_set : (h.set i x).next = h.next := rfl

@[simp] theorem next_free : (h.free i).next = h.next := rfl

theorem get_alloc : (h.alloc x).get j = if j = h.next then some x else h.get j := rfl

@[simp] theorem get_alloc_next : (h.alloc x).get h.next = some x := by simp [get_alloc]

theorem get_set : (h.set i x).get j = if j = i then (h.get j).map fun _ => x else h.get j := rfl

theorem get_set_self (hi : h.get i = some y) : (h.set i x).get i = some x := by
  simp [get_set, hi]

@[simp] theorem get_set_of_ne (hne : j ≠ i) : (h.set i x).get j = h.get j := by
  simp [get_set, hne]

theorem get_free : (h.free i).get j = if j = i then none else h.get j := rfl

@[simp] theorem get_free_self : (h.free i).get i = none := by simp [get_free]

@[simp] theorem get_free_of_ne (hne : j ≠ i) : (h.free i).get j = h.get j := by
  simp [get_free, hne]

theorem get_free_eq_some : (h.free i).get j = some y ↔ j ≠ i ∧ h.get j = some y := by
  rw [get_free]
  split <;> simp_all

theorem get_set_eq_some : (h.set i x).get j = some y ↔
    (j = i ∧ y = x ∧ (h.get i).isSome) ∨ (j ≠ i ∧ h.get j = some y) := by
  rw [get_set]
  split
  next hji =>
    subst hji
    cases h.get j <;> simp [eq_comm]
  · simp [*]

theorem get_alloc_eq_some : (h.alloc x).get j = some y ↔
    (j = h.next ∧ y = x) ∨ (j ≠ h.next ∧ h.get j = some y) := by
  rw [get_alloc]
  split <;> simp_all [eq_comm]

/-- What is true of the new object and of those that were there. -/
theorem forall_get_set {P : Nat → α → Prop} (hx : P i x) (hold : ∀ j y, h.get j = some y → P j y) :
    ∀ j y, (h.set i x).get j = some y → P j y := by
  intro j y hy
  rcases get_set_eq_some.mp hy with ⟨rfl, rfl, -⟩ | ⟨-, hy⟩
  · exact hx
  · exact hold j y hy

theorem forall_get_alloc {P : Nat → α → Prop} (hx : P h.next x)
    (hold : ∀ j y, h.get j = some y → P j y) : ∀ j y, (h.alloc x).get j = some y → P j y := by
  intro j y hy
  rcases get_alloc_eq_some.mp hy with ⟨rfl, rfl⟩ | ⟨-, hy⟩
  · exact hx
  · exact hold j y hy

/-! ## Heaps that evolve

Numbers are not used again, so that an object of a later heap is an earlier one,
changed, or a new one. -/

/-- Every object of `h'` is one of `h`, as `P` lets it change, or a new one for which
`N` is true. -/
structure Evolves (P : α → α → Prop) (N : α → Prop) (h h' : Heap α) : Prop where
  next : h.next ≤ h'.next
  get : ∀ i x', h'.get i = some x' → (∃ x, h.get i = some x ∧ P x x') ∨ h.next ≤ i ∧ N x'

namespace Evolves

variable {P : α → α → Prop} {N : α → Prop} {h' h'' : Heap α} {x' : α}

theorem refl (hP : ∀ x, P x x) : Evolves P N h h :=
  ⟨le_rfl, fun _ x hx => .inl ⟨x, hx, hP x⟩⟩

theorem trans (hP : ∀ x y z, P x y → P y z → P x z) (hN : ∀ x y, N x → P x y → N y)
    (h₁ : Evolves P N h h') (h₂ : Evolves P N h' h'') : Evolves P N h h'' := by
  refine ⟨h₁.next.trans h₂.next, ?_⟩
  intro i z hz
  rcases h₂.get i z hz with ⟨y, hy, hyz⟩ | ⟨hle, hz⟩
  · rcases h₁.get i y hy with ⟨x, hx, hxy⟩ | ⟨hle, hy⟩
    · exact .inl ⟨x, hx, hP x y z hxy hyz⟩
    · exact .inr ⟨hle, hN y z hy hyz⟩
  · exact .inr ⟨h₁.next.trans hle, hz⟩

/-- An object that was there is the one that was there. -/
theorem get_old (he : Evolves P N h h') (hx : h.get i = some x) (hx' : h'.get i = some x') :
    P x x' := by
  rcases he.get i x' hx' with ⟨y, hy, hP⟩ | ⟨hle, -⟩
  · obtain rfl := Option.some.inj (hx.symm.trans hy)
    exact hP
  · exact absurd (lt_next_of_get hx) (not_lt.mpr hle)

protected theorem set (hP : ∀ x, P x x) (hx : ∀ x, h.get i = some x → P x y) :
    Evolves P N h (h.set i y) := by
  refine ⟨Nat.le_refl _, ?_⟩
  intro j z hz
  rcases get_set_eq_some.mp hz with ⟨rfl, rfl, hsome⟩ | ⟨-, hj⟩
  · obtain ⟨x, hi⟩ := Option.isSome_iff_exists.mp hsome
    exact Or.inl ⟨x, hi, hx x hi⟩
  · exact Or.inl ⟨z, hj, hP z⟩

protected theorem alloc (hP : ∀ x, P x x) (hx : N x) : Evolves P N h (h.alloc x) :=
  ⟨Nat.le_succ _, forall_get_alloc (.inr ⟨le_rfl, hx⟩) fun _ z hz => .inl ⟨z, hz, hP z⟩⟩

protected theorem free (hP : ∀ x, P x x) : Evolves P N h (h.free i) :=
  ⟨Nat.le_refl _, fun _ z hz => Or.inl ⟨z, (get_free_eq_some.mp hz).2, hP z⟩⟩

end Evolves

end Heap

end AndroidKernel
