import AndroidKernel.Lib.Ring

/-!
# Queues in a ring of cells

A queue occupies `n` cells of a ring from `tail` on. It grows by blocks that are put at
its end and shrinks by moving `tail`. Neither a block nor what is read at a time goes
over the end of the ring.
-/

namespace AndroidKernel.Fifo

open List

variable {α : Type} {size tail n m : Nat} {buf : Nat → α} {block : List α}

/-- The `n` cells from `tail` on. -/
def window (size : Nat) (buf : Nat → α) (tail n : Nat) : List α :=
  (range n).map fun k => buf ((tail + k) % size)

@[simp] theorem length_window (size : Nat) (buf : Nat → α) (tail n : Nat) :
    (window size buf tail n).length = n := by
  simp [window]

theorem getElem?_window {k : Nat} (h : k < n) :
    (window size buf tail n)[k]? = some (buf ((tail + k) % size)) := by
  simp only [window, getElem?_map, getElem?_range h, Option.map_some]

/-- A queue in two parts. -/
theorem window_add (size : Nat) (buf : Nat → α) (tail m n : Nat) : window size buf tail (m + n) =
      window size buf tail m ++ window size buf ((tail + m) % size) n := by
  refine ext_getElem? fun k => ?_
  rcases Nat.lt_or_ge k m with hk | hk
  · rw [getElem?_append_left (by simpa using hk), getElem?_window hk,
      getElem?_window (by omega)]
  · rw [getElem?_append_right (by simpa using hk), length_window]
    rcases Nat.lt_or_ge k (m + n) with hk' | hk'
    · rw [getElem?_window hk', getElem?_window (by omega), Nat.mod_add_mod]
      congr 3
      omega
    · rw [getElem?_eq_none (by simpa using hk'), getElem?_eq_none (by simp; omega)]

/-- Cells that do not go over the end of the ring are a block. -/
theorem slice_eq_window (h : tail + n ≤ size) : Ring.slice buf tail n = window size buf tail n := by
  refine ext_getElem? fun k => ?_
  rcases Nat.lt_or_ge k n with hk | hk
  · rw [Ring.getElem?_slice hk, getElem?_window hk, Nat.mod_eq_of_lt (by omega)]
  · rw [getElem?_eq_none (by simpa using hk), getElem?_eq_none (by simpa using hk)]

/-- A block is put at the end of a queue. -/
theorem window_push {head : Nat} (hhead : head = (tail + n) % size)
    (hend : head + block.length ≤ size) (hroom : n + block.length ≤ size) :
    window size (Ring.put buf head block) tail (n + block.length) =
      window size buf tail n ++ block := by
  subst hhead
  refine ext_getElem? fun k => ?_
  rcases Nat.lt_or_ge k n with hk | hk
  · -- the cells before it are not touched
    have hsame : Ring.SameBut size buf (Ring.put buf ((tail + n) % size) block) (tail + n)
        block.length := .put (by rw [add_zero]) hend (by omega)
    rw [getElem?_append_left (by simpa using hk), getElem?_window hk,
      getElem?_window (by omega), hsame (tail + k) (by omega) (by omega)]
  · rw [getElem?_append_right (by simpa using hk), length_window]
    rcases Nat.lt_or_ge k (n + block.length) with hk' | hk'
    · have hcell : (tail + k) % size = (tail + n) % size + (k - n) := by
        have hadd := Ring.mod_add (show k - n < size by omega) (tail + n)
        rw [if_pos (by omega)] at hadd
        rw [← hadd]
        congr 1
        omega
      rw [getElem?_window hk', Ring.put_apply (by omega) (by omega)]
      congr 1
      omega
    · rw [getElem?_eq_none (by simpa using hk'), getElem?_eq_none (by omega)]

end AndroidKernel.Fifo
