import Mathlib.Algebra.Order.Ring.Int
import Mathlib.Data.Nat.ModEq
import Mathlib.Tactic.Ring

/-!
# Timing wheels

A level of a timing wheel has `2 ^ bits` buckets, each for `2 ^ shift` times in a row. Times are
natural numbers that do not wrap around. A bucket comes round at the first of its times; what is
in it has to be taken out then at the latest, and put in a level with a smaller shift.
-/

namespace AndroidKernel.Wheel

variable {shift bits now due i : Nat}

/-- The time at which the bucket of `due` comes round. -/
def turn (shift due : Nat) : Nat := due / 2 ^ shift * 2 ^ shift

/-- The number of the bucket for a time. -/
def slot (shift bits time : Nat) : Nat := time / 2 ^ shift % 2 ^ bits

theorem turn_le (shift due : Nat) : turn shift due ≤ due := Nat.div_mul_le_self ..

theorem dvd_turn (shift due : Nat) : 2 ^ shift ∣ turn shift due := dvd_mul_left ..

theorem lt_turn_add (shift due : Nat) : due < turn shift due + 2 ^ shift :=
  Nat.lt_div_mul_add (Nat.two_pow_pos shift)

@[simp]
theorem turn_zero (due : Nat) : turn 0 due = due := by
  rw [turn, pow_zero, Nat.div_one, mul_one]

/-- The lower bits of a time are enough to find its bucket. -/
theorem slot_mod {width : Nat} (h : shift + bits ≤ width) (time : Nat) :
    slot shift bits (time % 2 ^ width) = slot shift bits time := by
  obtain ⟨k, rfl⟩ := Nat.exists_eq_add_of_le h
  have hdvd : 2 ^ bits ∣ 2 ^ (bits + k) := pow_dvd_pow 2 (Nat.le_add_right ..)
  rw [slot, add_assoc, pow_add, Nat.mod_mul_right_div_self, Nat.mod_mod_of_dvd _ hdvd, slot]

/-- The bucket of a time that is at least a bucket's width away comes round later. -/
theorem lt_turn (h : now + 2 ^ shift ≤ due) : now < turn shift due := by
  have := lt_turn_add shift due
  omega

/-- The bucket that comes round now is that of `now`. -/
theorem slot_eq_of_turn_eq (h : turn shift due = now) :
    slot shift bits due = slot shift bits now := by
  rw [← h, slot, slot, turn, Nat.mul_div_cancel _ (Nat.two_pow_pos shift)]

/-- When the first bucket of a level comes round, so does the next level. -/
theorem slot_eq_zero_iff (h : 2 ^ shift ∣ now) :
    slot shift bits now = 0 ↔ 2 ^ (shift + bits) ∣ now := by
  rw [slot, ← Nat.dvd_iff_mod_eq_zero, pow_add, Nat.dvd_div_iff_mul_dvd h]

/-- `due` is in the bucket `i`, which has not come round yet. -/
structure Placed (shift bits now i due : Nat) : Prop where
  slot : i = slot shift bits due
  ahead : now ≤ turn shift due
  near : due < now + 2 ^ (shift + bits)

/-- A time that is at least a bucket's width away, but not too far. -/
theorem placed_of_far (hfar : now + 2 ^ shift ≤ due) (hnear : due < now + 2 ^ (shift + bits)) :
    Placed shift bits now (slot shift bits due) due where
  slot := rfl
  ahead := (lt_turn hfar).le
  near := hnear

namespace Placed

section

variable (h : Placed shift bits now i due)

include h

theorem le : now ≤ due := h.ahead.trans (turn_le shift due)

/-- Time goes on, if the bucket does not come round now. -/
theorem tick (hlt : now < turn shift due) : Placed shift bits (now + 1) i due where
  slot := h.slot
  ahead := hlt
  near := by
    have := h.near
    omega

/-- What is not in the bucket of `now` does not come round now. -/
theorem lt_turn_of_slot (hi : i ≠ Wheel.slot shift bits now) : now < turn shift due :=
  lt_of_le_of_ne h.ahead fun heq => hi (h.slot.trans (slot_eq_of_turn_eq heq.symm))

end

end Placed

/-! ## The buckets ahead -/

/-- `next` is the first time from `now` on at which a bucket of the level comes round. -/
structure Next (shift now next : Nat) : Prop where
  dvd : 2 ^ shift ∣ next
  le : now ≤ next
  lt : next < now + 2 ^ shift

variable {next : Nat}

theorem next_zero (now : Nat) : Next 0 now now where
  dvd := Nat.one_dvd now
  le := le_rfl
  lt := lt_add_one now

/-- A number that is rounded up to a multiple of `2 ^ bits`. -/
def ceil (bits v : Nat) : Nat := if v % 2 ^ bits = 0 then v else v + (2 ^ bits - v % 2 ^ bits)

/-- The first time from `next` on at which the next level turns. -/
def up (shift bits next : Nat) : Nat := ceil bits (next / 2 ^ shift) * 2 ^ shift

theorem dvd_ceil (bits v : Nat) : 2 ^ bits ∣ ceil bits v := by
  unfold ceil
  split
  next h => exact Nat.dvd_of_mod_eq_zero h
  next h =>
    have hdiv := Nat.div_add_mod v (2 ^ bits)
    refine ⟨v / 2 ^ bits + 1, ?_⟩
    rw [Nat.mul_succ]
    omega

theorem le_ceil (bits v : Nat) : v ≤ ceil bits v := by
  unfold ceil
  split
  · exact le_rfl
  · exact Nat.le_add_right ..

theorem ceil_lt (bits v : Nat) : ceil bits v < v + 2 ^ bits := by
  unfold ceil
  split <;> omega

theorem up_mul (p : Nat) : up shift bits (2 ^ shift * p) = 2 ^ shift * ceil bits p := by
  rw [up, Nat.mul_div_cancel_left _ (Nat.two_pow_pos shift), mul_comm]

namespace Next

variable (h : Next shift now next)

include h

theorem le_of_dvd {time : Nat} (hdvd : 2 ^ shift ∣ time) (hle : now ≤ time) : next ≤ time := by
  have hlt := h.lt
  obtain ⟨p, rfl⟩ := h.dvd
  obtain ⟨q, rfl⟩ := hdvd
  by_contra hnot
  have hqp : q + 1 ≤ p := Nat.lt_of_mul_lt_mul_left (not_le.mp hnot)
  have := Nat.mul_le_mul_left (2 ^ shift) hqp
  rw [Nat.mul_succ] at this
  omega

/-- Each bucket that is in use comes round once before the level is through, in their order. -/
theorem exists_round (hp : Placed shift bits now i due) :
    ∃ j < 2 ^ bits, turn shift due = next + j * 2 ^ shift ∧
      i = (slot shift bits next + j) % 2 ^ bits := by
  have hle := h.le_of_dvd (dvd_turn shift due) hp.ahead
  have hnear := hp.near
  have hdue := turn_le shift due
  have hnow := h.le
  obtain ⟨p, hp'⟩ := h.dvd
  have hslot : slot shift bits next = p % 2 ^ bits := by
    rw [slot, hp', Nat.mul_div_cancel_left _ (Nat.two_pow_pos shift)]
  have hturn : turn shift due = 2 ^ shift * (due / 2 ^ shift) := mul_comm ..
  have hpq : p ≤ due / 2 ^ shift := by
    refine Nat.le_of_mul_le_mul_left ?_ (Nat.two_pow_pos shift)
    rw [← hp', ← hturn]
    exact hle
  obtain ⟨j, hj⟩ := Nat.exists_eq_add_of_le hpq
  refine ⟨j, ?_, ?_, ?_⟩
  · refine Nat.lt_of_mul_lt_mul_left (a := 2 ^ shift) (Nat.lt_of_add_lt_add_left (n := next) ?_)
    rw [hj, mul_add] at hturn
    rw [← pow_add]
    omega
  · rw [hturn, hj, mul_add, ← hp', mul_comm j]
  · rw [hp.slot, slot, hj, hslot, Nat.mod_add_mod]

theorem up : Next (shift + bits) now (Wheel.up shift bits next) := by
  have hnow := h.le
  have hlt := h.lt
  obtain ⟨p, rfl⟩ := h.dvd
  rw [up_mul]
  refine ⟨?_, ?_, ?_⟩
  · rw [pow_add]
    exact Nat.mul_dvd_mul_left _ (dvd_ceil bits p)
  · exact hnow.trans (Nat.mul_le_mul_left _ (le_ceil bits p))
  · have hceil := Nat.mul_le_mul_left (2 ^ shift) (ceil_lt bits p)
    rw [Nat.mul_succ, mul_add] at hceil
    rw [pow_add]
    omega

theorem le_up : next ≤ Wheel.up shift bits next := by
  obtain ⟨p, rfl⟩ := h.dvd
  rw [up_mul]
  exact Nat.mul_le_mul_left _ (le_ceil bits p)

/-- If the first bucket comes round next, so does the next level. -/
theorem up_eq (hslot : slot shift bits next = 0) : Wheel.up shift bits next = next := by
  rw [slot] at hslot
  rw [Wheel.up, ceil, if_pos hslot, Nat.div_mul_cancel h.dvd]

/-- Otherwise the remaining buckets come round before. -/
theorem up_eq_add (hslot : slot shift bits next ≠ 0) :
    Wheel.up shift bits next = next + (2 ^ bits - slot shift bits next) * 2 ^ shift := by
  rw [slot] at hslot ⊢
  rw [Wheel.up, ceil, if_neg hslot, add_mul, Nat.div_mul_cancel h.dvd]

end Next

/-- The lower bits of a time are enough to find the time of the next level. -/
theorem ceil_div_mod {width a b : Nat} (h : a % 2 ^ (bits + width) = b % 2 ^ (bits + width)) :
    ceil bits a / 2 ^ bits % 2 ^ width = ceil bits b / 2 ^ bits % 2 ^ width := by
  have hlow : a % 2 ^ bits = b % 2 ^ bits := by
    have hdvd : 2 ^ bits ∣ 2 ^ (bits + width) := pow_dvd_pow 2 (Nat.le_add_right ..)
    rw [← Nat.mod_mod_of_dvd a hdvd, h, Nat.mod_mod_of_dvd b hdvd]
  have hceil : ceil bits a % 2 ^ (bits + width) = ceil bits b % 2 ^ (bits + width) := by
    unfold ceil
    rw [hlow]
    split
    · exact h
    · exact Nat.ModEq.add_right _ h
  rw [← Nat.mod_mul_right_div_self, ← Nat.mod_mul_right_div_self, ← pow_add, hceil]

end AndroidKernel.Wheel
