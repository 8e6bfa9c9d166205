import AndroidKernel.Lib.Heap
import Mathlib.Algebra.BigOperators.Group.Finset.Basic

/-!
# Sums over a heap

What the live objects of a heap add up to, in any commutative monoid: a number, or
the multiset of all they own. `sum_split` is the rule for a change to one object:
everything else is a rest that the change leaves alone.
-/

namespace AndroidKernel.Heap

variable {α M : Type} [AddCommMonoid M] {h : Heap α} {f : Nat → α → M} {i : Nat} {x : α}

/-- What the live objects add up to. -/
def sum (h : Heap α) (f : Nat → α → M) : M :=
  ∑ i ∈ Finset.range h.next, (h.get i).elim 0 (f i)

theorem sum_alloc : (h.alloc x).sum f = h.sum f + f h.next x := by
  unfold sum
  rw [next_alloc, Finset.sum_range_succ, get_alloc_next]
  congr 1
  refine Finset.sum_congr rfl fun j hj => ?_
  rw [get_alloc, if_neg (Nat.ne_of_lt (Finset.mem_range.mp hj))]

/-- One object and the rest. -/
theorem sum_split (hi : h.get i = some x) : ∃ rest, h.sum f = rest + f i x ∧
    (∀ y, (h.set i y).sum f = rest + f i y) ∧ (h.free i).sum f = rest := by
  have hmem : i ∈ Finset.range h.next := Finset.mem_range.mpr (lt_next_of_get hi)
  refine ⟨∑ j ∈ (Finset.range h.next).erase i, (h.get j).elim 0 (f j), ?_, fun y => ?_, ?_⟩
  · rw [sum, ← Finset.sum_erase_add _ _ hmem, hi]
    rfl
  · rw [sum, next_set, ← Finset.sum_erase_add _ _ hmem, get_set_self hi]
    congr 1
    refine Finset.sum_congr rfl fun j hj => ?_
    rw [get_set_of_ne (Finset.ne_of_mem_erase hj)]
  · rw [sum, next_free, ← Finset.sum_erase_add _ _ hmem, get_free_self]
    refine (add_zero _).trans (Finset.sum_congr rfl fun j hj => ?_)
    rw [get_free_of_ne (Finset.ne_of_mem_erase hj)]

end AndroidKernel.Heap
