import Mathlib.Algebra.Order.Ring.Int

/-!
# Descending lists of spans

A list whose items each stand for the numbers from `lo` to `hi`, kept so that
every item lies below all items before it. A scan from the front for the numbers
from `a` on can stop at the first item that ends below `a`. An item may be empty,
with `lo` one past `hi`; it still has its place.
-/

namespace AndroidKernel

variable {α : Type} (lo hi : α → Nat)

/-- The numbers that the items of a list stand for. -/
def covered (l : List α) : Set Nat := { p | ∃ x ∈ l, lo x ≤ p ∧ p ≤ hi x }

/-- Every item lies below all items before it. -/
def Descending (l : List α) : Prop := l.Pairwise fun x y => hi y < lo x

variable {lo hi} {x y : α} {l l' : List α} {a p : Nat}

@[simp] theorem mem_covered_append :
    p ∈ covered lo hi (l ++ l') ↔ p ∈ covered lo hi l ∨ p ∈ covered lo hi l' := by
  simp only [covered, List.mem_append]
  constructor
  · rintro ⟨x, hx | hx, hp⟩
    · exact .inl ⟨x, hx, hp⟩
    · exact .inr ⟨x, hx, hp⟩
  · rintro (⟨x, hx, hp⟩ | ⟨x, hx, hp⟩)
    · exact ⟨x, .inl hx, hp⟩
    · exact ⟨x, .inr hx, hp⟩

@[simp] theorem descending_nil : Descending lo hi [] := List.Pairwise.nil

@[simp] theorem descending_cons :
    Descending lo hi (x :: l) ↔ (∀ y ∈ l, hi y < lo x) ∧ Descending lo hi l :=
  List.pairwise_cons

/-- Nothing behind an item that ends below `a` reaches `a`. -/
theorem Descending.below (h : Descending lo hi (x :: l)) (hx : lo x ≤ hi x + 1) (ha : hi x < a)
    (hy : y ∈ l) : hi y < a := by
  have := (descending_cons.mp h).1 y hy
  omega

end AndroidKernel
