import Mathlib.Algebra.Order.Ring.Int
import Mathlib.Data.List.Nodup

/-!
# Singly linked lists

A list whose elements point to their successors. `Seg next p l q` says that the elements reached
from the pointer `p` are those of `l`, and that the last of them points to `q`; a whole list ends
with `q = none`, the null pointer.

- `Seg.append_iff`: a segment is cut anywhere.
- `Seg.congr`, `Seg.update`: what other elements point to does not matter.
- `Seg.relink`: the last element of a segment is made to point elsewhere. With a segment cut in
  two this is how an element is put in or taken out.
- `Seg.unique`: pointers determine the list.
-/

namespace AndroidKernel

variable {α : Type} {next next' : α → Option α} {p q q' : Option α} {l l' l₁ l₂ : List α} {x y : α}

def Seg (next : α → Option α) : Option α → List α → Option α → Prop
  | p, [], q => p = q
  | p, x :: l, q => p = some x ∧ Seg next (next x) l q

namespace Seg

theorem append_iff : Seg next p (l₁ ++ l₂) q ↔ ∃ r, Seg next p l₁ r ∧ Seg next r l₂ q := by
  induction l₁ generalizing p with
  | nil =>
    constructor
    · intro h
      exact ⟨p, rfl, h⟩
    · rintro ⟨r, rfl, h⟩
      exact h
  | cons x l ih =>
    constructor
    · rintro ⟨hp, h⟩
      obtain ⟨r, h₁, h₂⟩ := ih.mp h
      exact ⟨r, ⟨hp, h₁⟩, h₂⟩
    · rintro ⟨r, ⟨hp, h₁⟩, h₂⟩
      exact ⟨hp, ih.mpr ⟨r, h₁, h₂⟩⟩

theorem append (h₁ : Seg next p l₁ q) (h₂ : Seg next q l₂ q') : Seg next p (l₁ ++ l₂) q' :=
  append_iff.mpr ⟨q, h₁, h₂⟩

theorem congr (h : Seg next p l q) (hsame : ∀ x ∈ l, next' x = next x) : Seg next' p l q := by
  induction l generalizing p with
  | nil => exact h
  | cons x l ih =>
    obtain ⟨hp, h⟩ := h
    refine ⟨hp, ?_⟩
    rw [hsame x List.mem_cons_self]
    exact ih h fun y hy => hsame y (List.mem_cons_of_mem x hy)

/-- A whole list is pointed to by its head. -/
theorem head_eq (h : Seg next p l none) : p = l.head? := by
  cases l with
  | nil => exact h
  | cons x l => exact h.1

/-- A null pointer leads nowhere. -/
theorem eq_nil (h : Seg next none l q) : l = [] := by
  cases l with
  | nil => rfl
  | cons x l => cases h.1

theorem exists_cons (h : Seg next (some x) l none) :
    ∃ l', l = x :: l' ∧ Seg next (next x) l' none := by
  cases l with
  | nil => cases h
  | cons y l =>
    obtain ⟨hx, h⟩ := h
    cases hx
    exact ⟨l, rfl, h⟩

theorem unique (h : Seg next p l none) (h' : Seg next p l' none) : l = l' := by
  induction l generalizing p l' with
  | nil =>
    cases h
    exact h'.eq_nil.symm
  | cons x l ih =>
    obtain ⟨rfl, h⟩ := h
    obtain ⟨l'', rfl, h''⟩ := h'.exists_cons
    rw [ih h h'']

section Update

variable [DecidableEq α]

theorem update (h : Seg next p l q) (hx : x ∉ l) : Seg (Function.update next x q') p l q := by
  refine h.congr fun y hy => Function.update_of_ne ?_ ..
  rintro rfl
  exact hx hy

/-- The last element is made to point elsewhere. -/
theorem relink (h : Seg next p (l ++ [x]) q) (hx : x ∉ l) :
    Seg (Function.update next x q') p (l ++ [x]) q' := by
  obtain ⟨r, hl, hr, -⟩ := append_iff.mp h
  refine (hl.update hx).append ⟨hr, ?_⟩
  exact Function.update_self ..

end Update

end Seg

end AndroidKernel
