import Mathlib.Algebra.Order.Ring.Int
import Mathlib.Data.List.Basic

/-!
# Ring buffers

A buffer of `size` cells holds a part of a stream that grows at its end: position `p` of
the stream is in cell `p % size`. Cells are written in blocks, which may go on at the
start of the buffer.
-/

namespace AndroidKernel.Ring

open List

variable {α : Type}

variable (size : Nat) (buf : Nat → α)

/-- A block is copied to `off`. -/
def put (off : Nat) (block : List α) : Nat → α := fun i =>
  if off ≤ i then (block[i - off]?).getD (buf i) else buf i

/-- The block of `n` cells from `off` on. -/
def slice (off n : Nat) : List α := (range n).map fun k => buf (off + k)

/-- From `lo` to `hi`, the stream is in the buffer. -/
def Holds (stream : List α) (lo hi : Nat) : Prop :=
  ∀ p, lo ≤ p → p < hi → stream[p]? = some (buf (p % size))

/-- Nothing changed but the cells of the `n` positions from `hi` on. -/
def SameBut (buf' : Nat → α) (hi n : Nat) : Prop :=
  ∀ p, p < hi → hi + n ≤ p + size → buf' (p % size) = buf (p % size)

variable {size lo lo' hi n m off : Nat} {buf buf' buf'' : Nat → α} {stream block : List α}

@[simp] theorem put_nil (buf : Nat → α) (off : Nat) : put buf off [] = buf := by
  funext i
  simp [put]

theorem put_apply (h : off ≤ n) (hn : n < off + block.length) :
    some (put buf off block n) = block[n - off]? := by
  have hlt : n - off < block.length := by omega
  simp [put, h, getElem?_eq_getElem hlt]

theorem put_other (h : n < off ∨ off + block.length ≤ n) : put buf off block n = buf n := by
  unfold put
  split
  · rw [getElem?_eq_none (by omega), Option.getD_none]
  · rfl

@[simp] theorem length_slice (buf : Nat → α) (off n : Nat) : (slice buf off n).length = n := by
  simp [slice]

theorem getElem?_slice {k : Nat} (h : k < n) : (slice buf off n)[k]? = some (buf (off + k)) := by
  simp only [slice, getElem?_map, getElem?_range h, Option.map_some]

/-! ## Positions and cells -/

/-- The cell of a later position, seen from the cell of an earlier one. -/
theorem mod_add (hm : m < size) (p : Nat) :
    (p + m) % size = if p % size + m < size then p % size + m else p % size + m - size := by
  have hlt : p % size < size := Nat.mod_lt _ (by omega)
  rw [Nat.add_mod, Nat.mod_eq_of_lt hm]
  split
  · exact Nat.mod_eq_of_lt ‹_›
  · rw [Nat.mod_eq_sub_mod (by omega), Nat.mod_eq_of_lt (by omega)]

/-- Positions that are less than `size` apart have different cells. -/
theorem mod_ne {p q : Nat} (hlt : p < q) (hsize : q < p + size) : p % size ≠ q % size := by
  obtain ⟨d, rfl⟩ : ∃ d, q = p + d := ⟨q - p, by omega⟩
  rw [mod_add (by omega) p]
  split <;> omega

/-! ## Writing -/

namespace SameBut

theorem refl (size : Nat) (buf : Nat → α) (hi n : Nat) : SameBut size buf buf hi n :=
  fun _ _ _ => rfl

/-- A block within the `n` positions from `hi` on, at the cell of its first position. -/
theorem put {k : Nat} (hk : (hi + k) % size = off) (hoff : off + block.length ≤ size)
    (hn : k + block.length ≤ n) : SameBut size buf (Ring.put buf off block) hi n := by
  intro p hp hsize
  refine put_other ?_
  rcases Nat.lt_or_ge (p % size) off with hlt | hge
  · exact .inl hlt
  right
  by_contra hcon
  -- the cell of `p` would be the cell of a position of the block
  have hj : (hi + k + (p % size - off)) % size = p % size := by
    rw [mod_add (by omega), if_pos (by omega)]
    omega
  have hne : p % size ≠ (hi + k + (p % size - off)) % size := mod_ne (by omega) (by omega)
  exact hne hj.symm

/-- The positions may be taken to start earlier and to be more. -/
theorem weaken {k : Nat} (h : SameBut size buf buf' (hi + k) m) (hle : k + m ≤ n) :
    SameBut size buf buf' hi n :=
  fun p hp hsize => h p (by omega) (by omega)

theorem trans (h : SameBut size buf buf' hi n) (h' : SameBut size buf' buf'' hi n) :
    SameBut size buf buf'' hi n :=
  fun p hp hsize => (h' p hp hsize).trans (h p hp hsize)

end SameBut

/-- Two blocks, the second at the start of the buffer, where the first has filled it up to
its end. -/
theorem sameBut_put_put {rest : List α} (hsize : 0 < size)
    (hblock : block.length ≤ size - hi % size) (hrest : rest = [] ∨ block.length = size - hi % size)
    (hn : block.length + rest.length ≤ n) (hle : n ≤ size) :
    SameBut size buf (put (put buf (hi % size) block) 0 rest) hi n := by
  have hlt : hi % size < size := Nat.mod_lt _ hsize
  have hfirst : SameBut size buf (put buf (hi % size) block) hi n :=
    SameBut.put (by rw [add_zero]) (by omega) (by omega)
  rcases hrest with rfl | hfull
  · exact hfirst
  · refine hfirst.trans (SameBut.put (k := size - hi % size) ?_ (by omega) (by omega))
    rcases Nat.eq_zero_or_pos (hi % size) with h0 | hpos
    · rw [h0, Nat.sub_zero, Nat.add_mod_right, h0]
    · rw [mod_add (by omega), if_neg (by omega)]
      omega

/-- A block that goes on at the start of the buffer is found at its positions. -/
theorem put_wrapped (hsize : 0 < size) (hblock : block.length ≤ size) {k : Nat}
    (hk : k < block.length) :
    block[k]? = some (put (put buf (hi % size) (block.take (size - hi % size))) 0
      (block.drop (size - hi % size)) ((hi + k) % size)) := by
  have hlt : hi % size < size := Nat.mod_lt _ hsize
  rw [mod_add (by omega)]
  split
  · -- the second part does not reach up to here
    rw [put_other (by rw [length_drop]; omega), put_apply (by omega)
      (by rw [length_take]; omega), getElem?_take_of_lt (by omega)]
    congr 1
    omega
  · rw [put_apply (by omega) (by rw [length_drop]; omega), getElem?_drop]
    congr 1
    omega

namespace Holds

section

variable (h : Holds size buf stream lo hi)

include h

theorem mono (hlo : lo ≤ lo') : Holds size buf stream lo' hi :=
  fun p hp hhi => h p (hlo.trans hp) hhi

/-- What was there stays, if it is far enough from what is written. -/
theorem sameBut (hs : SameBut size buf buf' hi n)
    (hroom : hi + n ≤ lo + size) : Holds size buf' stream lo hi := by
  intro p hp hhi
  rw [hs p hhi (by omega)]
  exact h p hp hhi

/-- The stream goes on with a block. -/
theorem append (hlen : stream.length = hi)
    (hblock : ∀ k, k < block.length → block[k]? = some (buf ((hi + k) % size))) :
    Holds size buf (stream ++ block) lo (hi + block.length) := by
  intro p hp hhi
  rcases Nat.lt_or_ge p hi with hlt | hge
  · rw [getElem?_append_left (by omega)]
    exact h p hp hlt
  · rw [getElem?_append_right (by omega), hlen, hblock (p - hi) (by omega)]
    congr 3
    omega

/-- A block of the stream is read in two parts. -/
theorem slice_wrapped {p : Nat} (hlo : lo ≤ p) (hhi : p + n ≤ hi) (hn : n < size) :
    slice buf (p % size) (min n (size - p % size)) ++
      slice buf 0 (n - min n (size - p % size)) = (stream.drop p).take n := by
  have hlt : p % size < size := Nat.mod_lt _ (by omega)
  refine ext_getElem? fun k => ?_
  rcases Nat.lt_or_ge k n with hk | hk
  · have hpos := h (p + k) (by omega) (by omega)
    rw [getElem?_take_of_lt hk, getElem?_drop, hpos, mod_add (by omega)]
    split
    · rw [getElem?_append_left (by rw [length_slice]; omega), getElem?_slice (by omega)]
    · rw [getElem?_append_right (by rw [length_slice]; omega), length_slice,
        getElem?_slice (by omega)]
      congr 2
      omega
  · rw [getElem?_eq_none (by simp; omega), getElem?_eq_none (by simp; omega)]

end

end Holds

end AndroidKernel.Ring
