import Mathlib.Algebra.Order.Ring.Int
import Mathlib.Data.Nat.Log

/-!
# Division of 64-bit numbers on 32 bits (`lib/div64.c`)

For a divisor of more than 32 bits `div64_u64` shifts both numbers to the right first, so that the
quotient may be too large.
-/

namespace AndroidKernel.Div64

/-- The loop of `__div64_32` that doubles `b` and `d`. -/
def double (rem : Nat) : Nat → Nat → Nat → Nat × Nat
  | 0, b, d => (b, d)
  | fuel + 1, b, d =>
    if 0 < b ∧ b < 2 ^ 63 ∧ b < rem then double rem fuel ((b + b) % 2 ^ 64) ((d + d) % 2 ^ 64)
    else (b, d)

/-- The loop that subtracts: the result and the remainder. -/
def subtract : Nat → Nat → Nat → Nat → Nat → Nat × Nat
  | 0, rem, res, _, _ => (res, rem)
  | fuel + 1, rem, res, b, d =>
    let (rem, res) := if b ≤ rem then (rem - b, (res + d) % 2 ^ 64) else (rem, res)
    if d / 2 = 0 then (res, rem) else subtract fuel rem res (b / 2) (d / 2)

/-- `__div64_32`: the new `*n`, and the remainder. -/
def div6432 (n base : Nat) : Nat × Nat :=
  let high := n / 2 ^ 32
  let (res, rem) :=
    if base ≤ high then (high / base * 2 ^ 32, n - high / base * base % 2 ^ 32 * 2 ^ 32) else (0, n)
  let (b, d) := double rem 64 base 1
  subtract 64 rem res b d

def fls (x : Nat) : Nat := if x = 0 then 0 else Nat.log2 x + 1

/-- `div64_u64`, where `div_u64` divides with `__div64_32`. -/
def div64U64 (dividend divisor : Nat) : Nat :=
  let high := divisor / 2 ^ 32
  if high ≠ 0 then (div6432 (dividend / 2 ^ fls high) (divisor / 2 ^ fls high % 2 ^ 32)).1
  else (div6432 dividend (divisor % 2 ^ 32)).1

variable {n base rem res k : Nat}

theorem double_spec {fuel j : Nat} (hbase : 0 < base) (hrem : rem < 2 ^ 64)
    (hb : base * 2 ^ j < 2 ^ 64) (hfuel : fuel + j = 64) :
    ∃ k < 64, double rem fuel (base * 2 ^ j) (2 ^ j) = (base * 2 ^ k, 2 ^ k) ∧
      rem < 2 * (base * 2 ^ k) := by
  have hle : 2 ^ j ≤ base * 2 ^ j := Nat.le_mul_of_pos_left _ hbase
  induction fuel generalizing j with
  | zero =>
    obtain rfl : j = 64 := by omega
    omega
  | succ fuel ih =>
    rw [double]
    split
    next h =>
      have hd : (2 ^ j + 2 ^ j) % 2 ^ 64 = 2 ^ (j + 1) := by
        rw [Nat.mod_eq_of_lt (by omega), pow_succ, mul_two]
      have hdouble : (base * 2 ^ j + base * 2 ^ j) % 2 ^ 64 = base * 2 ^ (j + 1) := by
        rw [Nat.mod_eq_of_lt (by omega), pow_succ, ← mul_assoc, mul_two]
      rw [hd, hdouble]
      have hb' : base * 2 ^ (j + 1) < 2 ^ 64 := by omega
      exact ih hb' (by omega) (Nat.le_mul_of_pos_left _ hbase)
    next h =>
      have hpos : 0 < 2 ^ j := Nat.two_pow_pos j
      exact ⟨j, by omega, rfl, by omega⟩

/-- The remainder is less than `2 * b`, and with `res` it makes up the dividend. -/
theorem subtract_spec {fuel : Nat} (hbase : 0 < base) (hn : n < 2 ^ 64)
    (heq : res * base + rem = n) (hrem : rem < 2 * (base * 2 ^ k)) (hfuel : k < fuel) :
    subtract fuel rem res (base * 2 ^ k) (2 ^ k) = (n / base, n % base) := by
  induction fuel generalizing k rem res with
  | zero => omega
  | succ fuel ih =>
    -- one step: the remainder is less than `b` then
    obtain ⟨rem', res', hstep, heq', hrem'⟩ : ∃ rem' res',
        (if base * 2 ^ k ≤ rem then (rem - base * 2 ^ k, (res + 2 ^ k) % 2 ^ 64) else (rem, res)) =
          (rem', res') ∧ res' * base + rem' = n ∧ rem' < base * 2 ^ k := by
      split
      next hle =>
        have hsum : (res + 2 ^ k) * base + (rem - base * 2 ^ k) = n := by
          rw [add_mul, mul_comm (2 ^ k)]
          omega
        have hlt : res + 2 ^ k < 2 ^ 64 := by
          have := Nat.le_mul_of_pos_right (res + 2 ^ k) hbase
          omega
        exact ⟨_, _, rfl, by rw [Nat.mod_eq_of_lt hlt, hsum], by omega⟩
      next hlt => exact ⟨_, _, rfl, heq, by omega⟩
    rw [subtract, hstep]
    dsimp only
    cases k with
    | zero =>
      rw [if_pos (by decide)]
      rw [pow_zero, mul_one] at hrem'
      rw [← heq', mul_comm, Nat.mul_add_div hbase, Nat.mul_add_mod, Nat.div_eq_of_lt hrem',
        Nat.mod_eq_of_lt hrem', add_zero]
    | succ k =>
      have hhalf : 2 ^ (k + 1) / 2 = 2 ^ k := by
        rw [pow_succ, Nat.mul_div_cancel _ (by decide)]
      have hb : base * 2 ^ (k + 1) / 2 = base * 2 ^ k := by
        rw [pow_succ, ← mul_assoc, Nat.mul_div_cancel _ (by decide)]
      rw [hhalf, hb, if_neg (Nat.two_pow_pos k).ne']
      refine ih heq' ?_ (by omega)
      rw [pow_succ, ← mul_assoc] at hrem'
      omega

theorem div6432_eq (hbase : 0 < base) (hlt : base < 2 ^ 32) (hn : n < 2 ^ 64) :
    div6432 n base = (n / base, n % base) := by
  -- what is reduced first
  obtain ⟨res, rem, hreduce, heq⟩ : ∃ res rem, (if base ≤ n / 2 ^ 32 then
      (n / 2 ^ 32 / base * 2 ^ 32, n - n / 2 ^ 32 / base * base % 2 ^ 32 * 2 ^ 32) else (0, n)) =
        (res, rem) ∧ res * base + rem = n := by
    split
    · refine ⟨_, _, rfl, ?_⟩
      have hle := Nat.div_mul_le_self (n / 2 ^ 32) base
      rw [Nat.mod_eq_of_lt (by omega), mul_right_comm]
      omega
    · exact ⟨_, _, rfl, by omega⟩
  obtain ⟨k, hk, hdouble, hrem⟩ := @double_spec base rem 64 0 hbase (by omega) (by omega) rfl
  rw [pow_zero, mul_one] at hdouble
  rw [div6432]
  dsimp only
  rw [hreduce]
  dsimp only
  rw [hdouble]
  exact subtract_spec hbase hn heq hrem hk

/-- The divisor without the bits that are shifted out. -/
def shortened (divisor : Nat) : Nat :=
  divisor / 2 ^ fls (divisor / 2 ^ 32) * 2 ^ fls (divisor / 2 ^ 32)

theorem shortened_eq {divisor : Nat} (h : divisor / 2 ^ 32 = 0) : shortened divisor = divisor := by
  rw [shortened, h]
  simp [fls]

/-- What is left of the divisor fits into 32 bits. -/
theorem shifted_lt {divisor : Nat} (hhigh : divisor / 2 ^ 32 ≠ 0) :
    divisor / 2 ^ fls (divisor / 2 ^ 32) < 2 ^ 32 ∧ 2 ^ fls (divisor / 2 ^ 32) ≤ divisor := by
  have hupper := Nat.lt_log2_self (n := divisor / 2 ^ 32)
  have hlower := Nat.log2_self_le hhigh
  rw [fls, if_neg hhigh]
  refine ⟨Nat.div_lt_of_lt_mul ?_, ?_⟩
  · omega
  · rw [pow_succ]
    omega

/-- `div64_u64` divides by the shortened divisor. -/
theorem div64U64_eq {dividend divisor : Nat} (hdividend : dividend < 2 ^ 64) (hpos : 0 < divisor) :
    div64U64 dividend divisor = dividend / shortened divisor := by
  rw [div64U64]
  split
  next hhigh =>
    obtain ⟨hlt, hle⟩ := shifted_lt hhigh
    rw [Nat.mod_eq_of_lt hlt, div6432_eq (Nat.div_pos hle (Nat.two_pow_pos _)) hlt
      ((Nat.div_le_self ..).trans_lt hdividend), Nat.div_div_eq_div_mul, mul_comm, shortened]
  next hhigh =>
    rw [shortened_eq (by omega), Nat.mod_eq_of_lt (by omega), div6432_eq hpos (by omega) hdividend]

/-- **The quotient is exact** if and only if the bits of the divisor that are shifted out, times the
quotient by the others, are not more than the remainder. -/
theorem div64U64_exact_iff {dividend divisor : Nat} (hdividend : dividend < 2 ^ 64)
    (hpos : 0 < divisor) :
    div64U64 dividend divisor = dividend / shortened divisor ∧
    (div64U64 dividend divisor = dividend / divisor ↔
      dividend / shortened divisor * (divisor - shortened divisor) ≤
        dividend % shortened divisor) := by
  refine ⟨div64U64_eq hdividend hpos, ?_⟩
  rw [div64U64_eq hdividend hpos]
  have hle : shortened divisor ≤ divisor := Nat.div_mul_le_self ..
  have hshort : 0 < shortened divisor := by
    by_cases hhigh : divisor / 2 ^ 32 = 0
    · rwa [shortened_eq hhigh]
    · exact Nat.mul_pos (Nat.div_pos (shifted_lt hhigh).2 (Nat.two_pow_pos _)) (Nat.two_pow_pos _)
  -- the quotient by the smaller divisor is never less
  have hge : dividend / divisor ≤ dividend / shortened divisor := Nat.div_le_div_left hle hshort
  rw [← hge.ge_iff_eq', Nat.le_div_iff_mul_le hpos]
  have hsplit := Nat.div_add_mod dividend (shortened divisor)
  have hmul : dividend / shortened divisor * divisor =
      shortened divisor * (dividend / shortened divisor) +
        dividend / shortened divisor * (divisor - shortened divisor) := by
    rw [mul_comm (shortened divisor), ← mul_add, Nat.add_sub_cancel' hle]
  omega

/-- The bit of the divisor that is shifted out does not matter for this dividend. -/
theorem div64U64_exact_iff_odd : div64U64 (2 ^ 34 + 7) (2 ^ 33 + 1) = 2 :=
  (div64U64_exact_iff (by decide) (by decide)).2.mpr (by decide +kernel)

/-- The dividend is less than the divisor, and the quotient is one. -/
theorem div64U64_wrong : div64U64 (2 ^ 32) (2 ^ 32 + 1) = 1 ∧ 2 ^ 32 / (2 ^ 32 + 1) = 0 := by
  decide +kernel

end AndroidKernel.Div64
