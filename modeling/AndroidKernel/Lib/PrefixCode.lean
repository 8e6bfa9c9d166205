import Mathlib.Algebra.Order.Ring.Int

/-!
# Codes that say where they end

A code is self-delimiting if the code of one item followed by anything is not the code of
another item followed by anything. Sequences of such codes can be cut in one way only.
-/

namespace AndroidKernel

open List

variable {ι α : Type} {encode : ι → List α}

/-- The code says where it ends. -/
structure SelfDelimiting (encode : ι → List α) : Prop where
  inj : ∀ {i j : ι} {x y : List α}, encode i ++ x = encode j ++ y → i = j
  ne_nil : ∀ i, encode i ≠ []

namespace SelfDelimiting

/-- A sequence of codes at the start of another one is taken off. -/
theorem exists_append (h : SelfDelimiting encode) {is js : List ι} {x : List α}
    (heq : is.flatMap encode ++ x = js.flatMap encode) :
    ∃ ks, js = is ++ ks ∧ x = ks.flatMap encode := by
  induction is generalizing js with
  | nil => exact ⟨js, rfl, heq⟩
  | cons i is ih =>
    cases js with
    | nil =>
      rw [flatMap_cons, append_assoc] at heq
      exact absurd (append_eq_nil_iff.mp heq).1 (h.ne_nil i)
    | cons j js =>
      rw [flatMap_cons, append_assoc] at heq
      obtain rfl := h.inj heq
      obtain ⟨ks, rfl, hx⟩ := ih (append_cancel_left heq)
      exact ⟨ks, rfl, hx⟩

/-- A part of one code is not a sequence of codes. -/
theorem take_ne_flatMap (h : SelfDelimiting encode) {i : ι} {n : Nat} (hpos : 0 < n)
    (hn : n < (encode i).length) (is : List ι) : (encode i).take n ≠ is.flatMap encode := by
  intro heq
  cases is with
  | nil =>
    have hlen := congrArg length heq
    rw [length_take, flatMap_nil, length_nil] at hlen
    omega
  | cons j is =>
    -- the first of them would be the code itself, which is longer
    have hsplit : encode j ++ (is.flatMap encode ++ (encode i).drop n) = encode i ++ [] := by
      rw [append_nil, ← append_assoc, ← flatMap_cons, ← heq,
        take_append_drop]
    obtain rfl := h.inj hsplit
    have hlen := congrArg length heq
    rw [length_take, flatMap_cons, length_append] at hlen
    omega

end SelfDelimiting

end AndroidKernel
