import AndroidKernel.Lib.Ring
import AndroidKernel.Lib.Runs

/-!
# FIFOs of bytes (`kernel/kfifo.c`)

A producer and a consumer use a FIFO without its lock. A call samples the index of the other side,
copies byte by byte and then stores its own index; the other side may go on between any two of
these.
-/

namespace AndroidKernel

open List

/-- `struct kfifo`; what a put adds and how much of it is copied; how much a get removes and what is
copied; what the calls that are over accepted and returned. A call that has nothing to copy is over
at once. -/
structure Kfifo where
  buffer : Nat → UInt8
  size : Nat
  inIdx : Nat := 0
  outIdx : Nat := 0
  data : List UInt8 := []
  copied : Nat := 0
  len : Nat := 0
  got : List UInt8 := []
  accepted : List UInt8 := []
  returned : List UInt8 := []

namespace Kfifo

variable (s : Kfifo)

/-- `__kfifo_len`. -/
def length : Nat := (s.inIdx + 2 ^ 32 - s.outIdx) % 2 ^ 32

/-- Where byte `k` of `len` bytes from index `i` on is: `l` of them go up to the end of the buffer,
the rest is at its beginning. -/
def cell (i len k : Nat) : Nat :=
  let l := min len (s.size - (i &&& (s.size - 1)))
  if k < l then (i &&& (s.size - 1)) + k else k - l

/-- `__kfifo_put` up to where it samples `out`. -/
def putStart (data : List UInt8) : Kfifo :=
  let free := (s.size + 2 ^ 32 - s.inIdx + s.outIdx) % 2 ^ 32
  { s with data := data.take (min data.length free), copied := 0 }

/-- A step of the rest of it. -/
def putStep : Kfifo :=
  match s.data[s.copied]? with
  | some byte => { s with
      buffer := Ring.put s.buffer (s.cell s.inIdx s.data.length s.copied) [byte]
      copied := s.copied + 1 }
  | none => { s with
      inIdx := (s.inIdx + s.data.length) % 2 ^ 32
      data := []
      copied := 0
      accepted := s.accepted ++ s.data }

/-- `__kfifo_get` up to where it samples `in`. -/
def getStart (len : Nat) : Kfifo := { s with len := min len s.length, got := [] }

/-- A step of the rest of it. -/
def getStep : Kfifo :=
  if s.got.length < s.len then { s with
    got := s.got ++ [s.buffer (s.cell s.outIdx s.len s.got.length)] }
  else { s with
    outIdx := (s.outIdx + s.len) % 2 ^ 32
    len := 0
    got := []
    returned := s.returned ++ s.got }

inductive Op where
  | put (data : List UInt8)
  | get (len : Nat)
  | producer
  | consumer

def step : Op → Option Kfifo
  | .put data => if s.data = [] then some (s.putStart data) else none
  | .get len => if s.len = 0 then some (s.getStart len) else none
  | .producer => some s.putStep
  | .consumer => some s.getStep

/-- What is accepted and not returned is in the buffer, with what is copied of `data`, and there is
room for the rest of `data`. -/
structure Inv (n : Nat) (s : Kfifo) : Prop where
  order : n < 32
  size : s.size = 2 ^ n
  inIdx : s.inIdx = s.accepted.length % 2 ^ 32
  outIdx : s.outIdx = s.returned.length % 2 ^ 32
  room : s.accepted.length + s.data.length ≤ s.returned.length + 2 ^ n
  holds : Ring.Holds (2 ^ n) s.buffer (s.accepted ++ s.data.take s.copied) s.returned.length
    (s.accepted ++ s.data.take s.copied).length
  got_le : s.got.length ≤ s.len
  len_le : s.returned.length + s.len ≤ s.accepted.length
  got : s.returned ++ s.got <+: s.accepted

variable {s} {n : Nat}

namespace Inv

variable (h : Inv n s)

include h

/-- The indices count modulo `2 ^ 32`, which the size divides. -/
theorem cell_eq {p len k : Nat} (hk : k < len) (hlen : len ≤ 2 ^ n) :
    s.cell (p % 2 ^ 32) len k = (p + k) % 2 ^ n := by
  rw [cell, h.size, Nat.and_two_pow_sub_one_eq_mod,
    Nat.mod_mod_of_dvd _ (Nat.pow_dvd_pow 2 h.order.le), Ring.mod_add (by omega)]
  have := Nat.mod_lt p (Nat.two_pow_pos n)
  split <;> split <;> omega

theorem length_eq : s.length = s.accepted.length - s.returned.length := by
  have hsize : 2 ^ n < 2 ^ 32 := Nat.pow_lt_pow_right (by decide) h.order
  have hroom := h.room
  have hle := h.len_le
  rw [Kfifo.length, h.inIdx, h.outIdx]
  omega

theorem putStart (hdata : s.data = []) (data : List UInt8) : Inv n (s.putStart data) := by
  have hsize : 2 ^ n < 2 ^ 32 := Nat.pow_lt_pow_right (by decide) h.order
  have hroom := h.room
  have hle := h.len_le
  refine { h with room := ?_, holds := ?_ }
  · simp only [Kfifo.putStart, h.size, h.inIdx, h.outIdx, length_take]
    omega
  · simpa [Kfifo.putStart, hdata] using h.holds

theorem putStep : Inv n s.putStep := by
  have hroom := h.room
  have hle := h.len_le
  rw [Kfifo.putStep]
  split
  next byte hbyte =>
    have hk := (List.getElem?_eq_some_iff.mp hbyte).1
    have hend : (s.accepted ++ s.data.take s.copied).length = s.accepted.length + s.copied := by
      rw [length_append, length_take, Nat.min_eq_left hk.le]
    have hcell := h.cell_eq (p := s.accepted.length) hk (by omega)
    rw [← h.inIdx, ← hend] at hcell
    -- the cell is none of those that hold bytes
    have hsame := h.holds.sameBut (n := 1) (.put (k := 0) hcell.symm
      (hcell ▸ Nat.mod_lt _ (Nat.two_pow_pos n) : _ + [byte].length ≤ _) le_rfl) (by omega)
    have hholds := hsame.append rfl fun j (hj : j < [byte].length) => by
      obtain rfl : j = 0 := by simpa using hj
      rw [add_zero, ← hcell, Ring.put_apply le_rfl (by simp), Nat.sub_self]
    refine { h with holds := ?_ }
    simpa [take_add_one, hbyte, add_assoc] using hholds
  next hend =>
    have htake := take_of_length_le (getElem?_eq_none_iff.mp hend)
    exact { h with
      inIdx := by simp [h.inIdx]
      room := by simpa using hroom
      holds := by simpa [htake] using h.holds
      len_le := by simp; omega
      got := h.got.trans (prefix_append ..) }

theorem getStart (len : Nat) : Inv n (s.getStart len) := by
  have hlen := h.length_eq
  have hle := h.len_le
  refine { h with got_le := Nat.zero_le _, len_le := ?_, got := ?_ }
  · simp only [Kfifo.getStart]
    omega
  · simpa [Kfifo.getStart] using (prefix_append ..).trans h.got

theorem getStep : Inv n s.getStep := by
  have hroom := h.room
  have hle := h.len_le
  have hgot := prefix_iff_eq_take.mp h.got
  rw [length_append] at hgot
  rw [Kfifo.getStep]
  split
  next hlt =>
    have hbyte := h.holds (s.returned.length + s.got.length) (by omega)
      (by rw [length_append]; omega)
    rw [getElem?_append_left (by omega), ← h.cell_eq hlt (by omega), ← h.outIdx] at hbyte
    refine { h with got_le := ?_, got := ?_ }
    · simpa using Nat.succ_le_of_lt hlt
    · rw [prefix_iff_eq_take]
      simp [← add_assoc, take_add_one, hbyte, ← hgot]
  next hend =>
    have hlen := Nat.le_antisymm h.got_le (Nat.le_of_not_lt hend)
    exact { h with
      outIdx := by simp [h.outIdx, hlen]
      room := by simp; omega
      holds := by simpa using h.holds.mono (by omega)
      got_le := le_rfl
      len_le := by simp; omega
      got := by simpa using h.got }

theorem step {op : Op} {s' : Kfifo} (hstep : s.step op = some s') : Inv n s' := by
  cases op with
  | put data =>
    obtain ⟨hdata, hstep⟩ := Option.ite_none_right_eq_some.mp hstep
    cases hstep
    exact h.putStart hdata data
  | get len =>
    obtain ⟨-, hstep⟩ := Option.ite_none_right_eq_some.mp hstep
    cases hstep
    exact h.getStart len
  | producer =>
    cases hstep
    exact h.putStep
  | consumer =>
    cases hstep
    exact h.getStep

end Inv

/-- What the gets returned is the start of what the puts accepted, and no more than `size` bytes are
in the FIFO. -/
theorem kfifo_ok {n : Nat} (hn : n < 32) {buffer : Nat → UInt8} {s : Kfifo}
    (h : Reached step (fun _ _ => True) { buffer, size := 2 ^ n } s) :
    s.returned <+: s.accepted ∧ s.length ≤ s.size := by
  have hinv : Inv n s := h.invariant
    ⟨hn, rfl, rfl, rfl, Nat.zero_le _, fun p _ hp => absurd hp (Nat.not_lt_zero p), le_rfl, le_rfl,
      prefix_rfl⟩ fun _ _ _ hinv _ => hinv.step
  have hroom := hinv.room
  have hle := hinv.len_le
  rw [hinv.length_eq, hinv.size]
  exact ⟨(prefix_append ..).trans hinv.got, by omega⟩

/-- Two puts into a buffer of two bytes; the second goes on at its beginning. -/
theorem kfifo_ok_two : ∃ s, Reached step (fun _ _ => True) { buffer := fun _ => 0, size := 2 ^ 1 }
    s ∧ (s.accepted = [1, 2, 3] ∧ s.returned = [1, 2]) ∧
      s.returned <+: s.accepted ∧ s.length ≤ s.size :=
  Reached.exists_of_checked_and [.put [1, 2, 3], .producer, .producer, .producer, .get 1, .put [3],
    .consumer, .consumer, .put [3], .get 1, .producer, .consumer, .consumer, .producer]
    (by decide +kernel) fun _ h _ => kfifo_ok (by decide) h

/-- The bytes accepted and not returned are in the cells from `out` up to `in`. -/
theorem accepted_held (hn : n < 32) {buffer : Nat → UInt8}
    (h : Reached step (fun _ _ => True) { buffer, size := 2 ^ n } s) :
    s.outIdx = s.returned.length % 2 ^ 32 ∧ s.inIdx = s.accepted.length % 2 ^ 32 ∧
      Ring.Holds s.size s.buffer s.accepted s.returned.length s.accepted.length := by
  have hinv : Inv n s := h.invariant
    ⟨hn, rfl, rfl, rfl, Nat.zero_le _, by simp [Ring.Holds], le_rfl, le_rfl, prefix_rfl⟩
    fun _ _ _ hinv _ => hinv.step
  refine ⟨hinv.outIdx, hinv.inIdx, fun p hlo hhi => ?_⟩
  rw [hinv.size, ← hinv.holds p hlo (by simp; omega), getElem?_append_left hhi]

theorem accepted_held_one : ∃ s, Reached step (fun _ _ => True)
    { buffer := fun _ => 0, size := 2 ^ 1 } s ∧ (s.accepted = [1] ∧ s.copied = 1) ∧
      Ring.Holds s.size s.buffer s.accepted s.returned.length s.accepted.length :=
  Reached.exists_of_checked_and [.put [1], .producer, .producer, .put [2], .producer]
    (by decide +kernel) fun _ h _ => (accepted_held (by decide) h).2.2

end Kfifo

end AndroidKernel
