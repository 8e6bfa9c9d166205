import AndroidKernel.Binder.BufferPages

/-!
# Which pages an operation on the list touches

Four changes of the list occur: a free buffer becomes allocated as a whole, it
becomes allocated with a new free buffer behind it, an allocated buffer becomes
free, and a free buffer disappears into the free buffer before it. For each of
them this module shows that the page range the driver maps or frees is the
difference between the used pages before and after.
-/

namespace AndroidKernel.Binder

open BufferArea

section Changes

variable {fin start q : Nat} {l₁ l₂ : List BinderBuffer} {x y : BinderBuffer}

theorem used_cons_iff (q : Nat) : used fin (x :: l₂) q = true ↔
      (x.addr < (q + 1) * 4096 ∧ q * 4096 < x.usedEnd (endOf fin l₂)) ∨ used fin l₂ q = true := by
  rw [used, Bool.or_eq_true, Bool.and_eq_true, decide_eq_true_eq, decide_eq_true_eq]

theorem used_middle (q : Nat) : used fin (l₁ ++ x :: l₂) q = true ↔ used x.addr l₁ q = true ∨
      (x.addr < (q + 1) * 4096 ∧ q * 4096 < x.usedEnd (endOf fin l₂)) ∨ used fin l₂ q = true := by
  rw [used_append, Bool.or_eq_true, endOf_cons, used_cons_iff]

/-- What page `q` sees around a buffer from `a` to `e`: what is before the buffer ends where
it begins, and what is behind it begins where it ends, in the same page unless that is a
page boundary. -/
structure Around (a e q : Nat) (before after : Prop) : Prop where
  before_lt : before → q * 4096 < a
  lt_after : after → e < (q + 1) * 4096
  shared : q = e / 4096 → e % 4096 ≠ 0 → after
  room : a + 40 ≤ e

/-- The pages between the one in which the header ends and the one in which the buffer ends
are those that its data up to `b` needs and the header alone does not. -/
theorem Around.data_pages {a b e : Nat} {before after : Prop} (h : Around a e q before after)
    (hab : a + 40 ≤ b) (hbe : b ≤ e) (he : e + 4095 < 2 ^ 32) :
    (pageAlign (a + 40) / 4096 ≤ q ∧ q < min (pageAlign b) (pageMask e) / 4096 →
      ¬(before ∨ (a < (q + 1) * 4096 ∧ q * 4096 < a + 40) ∨ after)) ∧
    ((before ∨ (a < (q + 1) * 4096 ∧ q * 4096 < b) ∨ after) ↔
      (before ∨ (a < (q + 1) * 4096 ∧ q * 4096 < a + 40) ∨ after) ∨
        pageAlign (a + 40) / 4096 ≤ q ∧ q < min (pageAlign b) (pageMask e) / 4096) := by
  have hlo : pageAlign (a + 40) / 4096 ≤ q ↔ a + 40 ≤ q * 4096 := by
    unfold pageAlign ulong
    omega
  have hhi : q < min (pageAlign b) (pageMask e) / 4096 ↔ q * 4096 < b ∧ (q + 1) * 4096 ≤ e := by
    unfold pageAlign pageMask ulong
    omega
  rw [hlo, hhi]
  refine ⟨?_, ?_, ?_⟩
  · rintro ⟨hdata, -, hend⟩ (hb | hheader | ha)
    · have := h.before_lt hb
      omega
    · omega
    · have := h.lt_after ha
      omega
  · rintro (hb | ⟨hstart, hdata⟩ | ha)
    · exact .inl (.inl hb)
    · by_cases hheader : q * 4096 < a + 40
      · exact .inl (.inr (.inl ⟨hstart, hheader⟩))
      · by_cases hend : (q + 1) * 4096 ≤ e
        · exact .inr ⟨by omega, hdata, hend⟩
        · -- the page in which the buffer ends belongs to the next header
          exact .inl (.inr (.inr (h.shared (by omega) (by omega))))
    · exact .inl (.inr (.inr ha))
  · rintro ((hb | ⟨hstart, hheader⟩ | ha) | ⟨hdata, hlt, -⟩)
    · exact .inl hb
    · exact .inr (.inl ⟨hstart, by omega⟩)
    · exact .inr (.inr ha)
    · exact .inr (.inl ⟨by omega, hlt⟩)

/-- A request may be up to 44 bytes smaller than the buffer that it takes; that slack never
reaches a page of its own. -/
theorem min_pageMask_of_slack {b e : Nat} (hsize : b ≤ e) (hslack : e ≤ b + 44)
    (he : e + 4095 < 2 ^ 32) : min (pageAlign b) (pageMask e) = pageMask e := by
  unfold pageAlign pageMask ulong
  omega

section

variable (hl : Layout fin start (l₁ ++ x :: l₂))

include hl

theorem used_around (hfin : fin % 4096 = 0) (q : Nat) :
    Around x.addr (endOf fin l₂) q (used x.addr l₁ q = true) (used fin l₂ q = true) := by
  obtain ⟨h1, h2, h3⟩ := layout_middle.mp hl
  refine ⟨fun h => (used_bounds h1 h).2, fun h => (used_bounds h3 h).1, fun hq hne => ?_, h2⟩
  refine used_head h3 ?_ hq
  refine lt_of_le_of_ne h3.le fun heq => hne ?_
  rw [heq, hfin]

/-- A whole buffer that becomes allocated, or free again: the pages are those inside its
data. -/
theorem gains_whole (hfin : fin % 4096 = 0) (hbound : fin < 2 ^ 32) (hx : x.free = true)
    (hy : y.free = false) (hyx : y.addr = x.addr) :
    Gains fin (l₁ ++ x :: l₂) (l₁ ++ y :: l₂) (pageAlign (x.addr + headerSize))
      (pageMask (endOf fin l₂)) := by
  intro q
  have haround := used_around hl hfin q
  have hle := (layout_middle.mp hl).2.2.le
  have hend : pageMask (endOf fin l₂) =
      min (pageAlign (endOf fin l₂)) (pageMask (endOf fin l₂)) := by
    unfold pageAlign pageMask ulong
    omega
  rw [hend, used_middle, used_middle, hyx, BinderBuffer.usedEnd, BinderBuffer.usedEnd, hx, hy]
  exact haround.data_pages haround.room le_rfl (by omega)

/-- Allocating the front of a free buffer, with a new free buffer `y'` behind it. -/
theorem gains_split {size : Nat} {y' : BinderBuffer} (hfin : fin % 4096 = 0)
    (hbound : fin < 2 ^ 32) (hx : x.free = true) (hy : y.free = false)
    (hyx : y.addr = x.addr) (hy' : y'.free = true)
    (haddr : y'.addr = x.addr + headerSize + size)
    (hroom : x.addr + headerSize + size + headerSize + 4 < endOf fin l₂) :
    Gains fin (l₁ ++ x :: l₂) (l₁ ++ y :: y' :: l₂) (pageAlign (x.addr + headerSize))
      (min (pageAlign (x.addr + headerSize + (size + headerSize))) (pageMask (endOf fin l₂))) := by
  intro q
  have haround := used_around hl hfin q
  have hle := (layout_middle.mp hl).2.2.le
  -- data and new header together
  have hboth : (x.addr < (q + 1) * 4096 ∧ q * 4096 < y'.addr ∨
      (y'.addr < (q + 1) * 4096 ∧ q * 4096 < y'.addr + headerSize) ∨ used fin l₂ q = true) ↔
      (x.addr < (q + 1) * 4096 ∧ q * 4096 < x.addr + headerSize + (size + headerSize)) ∨
        used fin l₂ q = true := by
    rw [← or_assoc, haddr]
    refine or_congr_left ?_
    omega
  rw [used_middle, used_middle, used_cons_iff, hyx, endOf_cons, BinderBuffer.usedEnd,
    BinderBuffer.usedEnd, BinderBuffer.usedEnd, hx, hy, hy']
  simp only [if_true, Bool.false_eq_true, if_false, hboth]
  exact haround.data_pages (by unfold headerSize; omega) (by unfold headerSize at *; omega)
    (by omega)

end

/-- The range that the flags choose, in page numbers: the header before ends in page `p`, the
deleted one reaches from `s` to `t`, and the next one begins in page `n`. -/
theorem deleted_pages {p s t n : Nat} {f₁ f₂ : Bool} (hps : p ≤ s) (hst : s ≤ t) (hts : t ≤ s + 1)
    (htn : t ≤ n) (h₁ : f₁ = true ↔ ¬(p = s ∨ n = t ∧ n = s))
    (h₂ : f₂ = true ↔ ¬(p = s ∧ p = t ∨ n = t)) (q : Nat) :
    ((f₁ || f₂) = true ∧ (if f₁ then s else t) ≤ q ∧ q < (if f₂ then t else s) + 1) ↔
      (q = s ∨ q = t) ∧ q ≠ p ∧ q ≠ n := by
  cases f₁ <;> cases f₂ <;>
    simp only [Bool.false_eq_true, false_iff, true_iff, Bool.or_false, Bool.or_true, if_true,
      if_false, false_and, true_and] at h₁ h₂ ⊢ <;> omega

theorem pageMask_eq_iff (a b : Nat) : pageMask a = pageMask b ↔ a / 4096 = b / 4096 := by
  unfold pageMask
  omega

/-- The flags of `binder_delete_free_buffer` in page numbers. The end of the area counts as
the next header, which is never in the same page. -/
theorem freePageFlags_iff (a : Nat) {b : Nat} (hfin : fin % 4096 = 0)
    (hbe : b + 40 ≤ endOf fin l₂) :
    ((freePageFlags b a l₂.head?).1 = true ↔ ¬((a + 39) / 4096 = b / 4096 ∨
        endOf fin l₂ / 4096 = (b + 39) / 4096 ∧ endOf fin l₂ / 4096 = b / 4096)) ∧
    ((freePageFlags b a l₂.head?).2 = true ↔ ¬((a + 39) / 4096 = b / 4096 ∧
        (a + 39) / 4096 = (b + 39) / 4096 ∨ endOf fin l₂ / 4096 = (b + 39) / 4096)) := by
  have hend (c : Nat) : bufferEndPage c = pageMask (c + 39) := rfl
  cases l₂ with
  | nil =>
    have hfar : fin / 4096 ≠ (b + 39) / 4096 := by
      rw [endOf_nil] at hbe
      omega
    simp only [freePageFlags, bufferStartPage, hend, List.head?_nil, endOf_nil, Bool.not_eq_true',
      ← Bool.not_eq_true, Bool.or_eq_true, Bool.and_eq_true, beq_iff_eq, pageMask_eq_iff,
      Bool.false_eq_true, hfar, false_and, and_self]
  | cons n l₂ =>
    simp only [freePageFlags, bufferStartPage, hend, List.head?_cons, endOf_cons,
      Bool.not_eq_true', ← Bool.not_eq_true, Bool.or_eq_true, Bool.and_eq_true, beq_iff_eq,
      pageMask_eq_iff, and_self]

/-- Deleting a free buffer behind the free buffer `x`: the range that the flags
of `binder_delete_free_buffer` choose is what only the deleted header used. -/
theorem used_delete (hl : Layout fin start (l₁ ++ x :: y :: l₂)) (hfin : fin % 4096 = 0)
    (hx : x.free = true) (hy : y.free = true) (q : Nat) :
    let flags := freePageFlags y.addr x.addr l₂.head?
    let lo := (if flags.1 then bufferStartPage y.addr else bufferEndPage y.addr) / 4096
    let hi := ((if flags.2 then bufferEndPage y.addr else bufferStartPage y.addr) + 4096) / 4096
    ((flags.1 || flags.2) = true ∧ lo ≤ q ∧ q < hi → ¬used fin (l₁ ++ x :: l₂) q = true) ∧
      (used fin (l₁ ++ x :: y :: l₂) q = true ↔ used fin (l₁ ++ x :: l₂) q = true ∨
        (flags.1 || flags.2) = true ∧ lo ≤ q ∧ q < hi) := by
  intro flags lo hi
  have hprev := used_around hl hfin q
  have hl' : Layout fin start ((l₁ ++ [x]) ++ y :: l₂) := by simpa using hl
  have hnext := used_around hl' hfin q
  have hxy := hprev.room
  have hye := hnext.room
  rw [endOf_cons] at hxy
  obtain ⟨h₁, h₂⟩ := freePageFlags_iff x.addr hfin hye
  have hlo : lo = if flags.1 then y.addr / 4096 else (y.addr + 39) / 4096 := by
    simp only [lo, bufferStartPage, bufferEndPage, pageMask, headerSize]
    split <;> omega
  have hhi : hi = (if flags.2 then (y.addr + 39) / 4096 else y.addr / 4096) + 1 := by
    simp only [hi, bufferStartPage, bufferEndPage, pageMask, headerSize]
    split <;> omega
  rw [hlo, hhi, deleted_pages (by omega)
    (by omega) (by omega) (by omega) h₁ h₂, used_middle, used_middle, used_cons_iff]
  simp only [BinderBuffer.usedEnd, hx, hy, if_true, headerSize]
  refine ⟨?_, ?_, ?_⟩
  · rintro ⟨hq, hqp, hqn⟩ (hb | hb | ha)
    · have := hprev.before_lt hb
      omega
    · omega
    · have := hnext.lt_after ha
      omega
  · rintro (hb | hb | hheader | ha)
    · exact .inl (.inl hb)
    · exact .inl (.inr (.inl hb))
    · -- a page of the deleted header that is kept has one of its neighbours on it
      by_cases hqp : q = (x.addr + 39) / 4096
      · exact .inl (.inr (.inl (by omega)))
      · by_cases hqn : q = endOf fin l₂ / 4096
        · exact .inl (.inr (.inr (hnext.shared hqn (by omega))))
        · exact .inr ⟨by omega, hqp, hqn⟩
    · exact .inl (.inr (.inr ha))
  · rintro ((hb | hb | ha) | ⟨hq, -⟩)
    · exact .inl hb
    · exact .inr (.inl hb)
    · exact .inr (.inr (.inr ha))
    · exact .inr (.inr (.inl (by omega)))

end Changes

end AndroidKernel.Binder
