import Mathlib.Algebra.Order.Ring.Int

/-!
# Numbers as bytes

A number as `k` bytes, the lowest first, and back.
-/

namespace AndroidKernel.Bytes

/-- `n` as `k` bytes. -/
def le : Nat → Nat → List UInt8
  | 0, _ => []
  | k + 1, n => UInt8.ofNat (n % 256) :: le k (n / 256)

/-- The number that bytes stand for. -/
def value : List UInt8 → Nat
  | [] => 0
  | b :: bs => b.toNat + 256 * value bs

@[simp] theorem length_le (k n : Nat) : (le k n).length = k := by
  induction k generalizing n with
  | zero => rfl
  | succ k ih => simp [le, ih]

/-- The bytes of a number that fits are those of no other. -/
theorem value_le {k n : Nat} (h : n < 256 ^ k) : value (le k n) = n := by
  induction k generalizing n with
  | zero =>
    have : n = 0 := by simpa using h
    simp [le, value, this]
  | succ k ih =>
    have hdiv : n / 256 < 256 ^ k := by
      omega
    have hlow : (UInt8.ofNat (n % 256)).toNat = n % 256 := by simp
    simp only [le, value, ih hdiv]
    omega

theorem value_lt (bs : List UInt8) : value bs < 256 ^ bs.length := by
  induction bs with
  | nil => simp [value]
  | cons b bs ih =>
    have hb := b.toNat_lt
    rw [List.length_cons]
    unfold value
    omega

end AndroidKernel.Bytes
