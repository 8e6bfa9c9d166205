import Mathlib.Algebra.Order.Ring.Int

/-!
# Scans

A loop that looks at one place after the other, up or down, and stops at the first that
fits. Since to look at a place can be wrong in itself, the places looked at are kept.
-/

namespace AndroidKernel

open List Bool

/-- Where a scan has stopped, and the places it has looked at. -/
structure Scan where
  found : Option Nat
  looked : List Nat

namespace Scan

variable {p : Nat → Bool} {i j k n : Nat}

/-- One place looked at before. -/
def after (s : Scan) (i : Nat) : Scan := { s with looked := i :: s.looked }

@[simp] theorem looked_after (s : Scan) (i : Nat) : (s.after i).looked = i :: s.looked := rfl

/-- The `n` places from `i` on. -/
def up (p : Nat → Bool) : (n i : Nat) → Scan
  | 0, _ => ⟨none, []⟩
  | n + 1, i => if p i then ⟨some i, [i]⟩ else (up p n (i + 1)).after i

/-- The places below `n`, the last one first. -/
def down (p : Nat → Bool) : (n : Nat) → Scan
  | 0 => ⟨none, []⟩
  | i + 1 => if p i then ⟨some i, [i]⟩ else (down p i).after i

theorem found_up : (up p n i).found = (range' i n).find? p := by
  induction n generalizing i with
  | zero => rfl
  | succ n ih =>
    rw [up, range'_succ, find?_cons]
    split
    next hp => rw [hp]
    next hp =>
      rw [eq_false_iff.mpr hp]
      exact ih

theorem of_found_up_none (h : (up p n i).found = none) (hlo : i ≤ k) (hhi : k < i + n) :
    p k = false := by
  rw [found_up, find?_range'_eq_none] at h
  simpa using h k hlo hhi

theorem of_found_up_some (h : (up p n i).found = some j) :
    (i ≤ j ∧ j < i + n) ∧ p j = true ∧ ∀ k, i ≤ k → k < j → p k = false := by
  rw [found_up, find?_range'_eq_some, mem_range'_1] at h
  obtain ⟨hp, hj, hbefore⟩ := h
  exact ⟨hj, hp, by simpa using hbefore⟩

/-- A scan up that stops has looked at all places up to there. -/
theorem mem_looked_up (h : (up p n i).found = some j) : k ∈ (up p n i).looked ↔ i ≤ k ∧ k ≤ j := by
  induction n generalizing i with
  | zero => cases h
  | succ n ih =>
    rw [up] at h ⊢
    split at h
    next hp =>
      cases h
      rw [if_pos hp, mem_singleton]
      omega
    next hp =>
      have hj := (of_found_up_some h).1
      rw [if_neg hp, looked_after, mem_cons, ih h]
      omega

theorem le_of_mem_looked_up (h : k ∈ (up p n i).looked) : i ≤ k ∧ k < i + n := by
  induction n generalizing i with
  | zero => cases h
  | succ n ih =>
    rw [up] at h
    split at h
    next hp =>
      rw [mem_singleton] at h
      omega
    next hp =>
      rw [looked_after, mem_cons] at h
      rcases h with rfl | h
      · omega
      · have := ih h
        omega

theorem of_found_down_none (h : (down p n).found = none) (hk : k < n) : p k = false := by
  induction n with
  | zero => omega
  | succ n ih =>
    rw [down] at h
    split at h
    next => cases h
    next hp =>
      rcases (Nat.le_of_lt_succ hk).eq_or_lt with rfl | hlt
      · exact eq_false_iff.mpr hp
      · exact ih h hlt

theorem of_found_down_some (h : (down p n).found = some j) :
    j < n ∧ p j = true ∧ ∀ k, j < k → k < n → p k = false := by
  induction n with
  | zero => cases h
  | succ n ih =>
    rw [down] at h
    split at h
    next hp =>
      cases h
      exact ⟨by omega, hp, fun k hlo hhi => by omega⟩
    next hp =>
      obtain ⟨hj, hpj, habove⟩ := ih h
      refine ⟨by omega, hpj, fun k hlo hhi => ?_⟩
      rcases (Nat.le_of_lt_succ hhi).eq_or_lt with rfl | hlt
      · exact eq_false_iff.mpr hp
      · exact habove k hlo hlt

theorem lt_of_mem_looked_down (h : k ∈ (down p n).looked) : k < n := by
  induction n with
  | zero => cases h
  | succ n ih =>
    rw [down] at h
    split at h
    next hp =>
      rw [mem_singleton] at h
      omega
    next hp =>
      rw [looked_after, mem_cons] at h
      rcases h with rfl | h
      · exact Nat.lt_succ_self k
      · exact Nat.lt_succ_of_lt (ih h)

end Scan

end AndroidKernel
