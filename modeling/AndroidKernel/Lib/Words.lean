import Mathlib.Algebra.Order.Ring.Int

/-!
# Machine words

`unsigned long` and `long`, which have 32 bits, and `s64` as numbers. Differences of
`unsigned long` values are compared as `long`, so that they survive a wrap.
-/

namespace AndroidKernel

/-- The value of an expression of type `unsigned long`. -/
def ulong (x : Int) : Nat := (x % 2 ^ 32).toNat

/-- The value of an expression that is converted to `long`. -/
def long (x : Int) : Int := (x + 2 ^ 31) % 2 ^ 32 - 2 ^ 31

/-- The value of an expression of type `s64`. -/
def s64 (x : Int) : Int := (x + 2 ^ 63) % 2 ^ 64 - 2 ^ 63

def longMax : Int := 2 ^ 31 - 1

/-- `PAGE_ALIGN`, with pages of 4096 bytes. -/
def pageAlign (x : Nat) : Nat := ulong (x + 4095) / 4096 * 4096

theorem ulong_lt (x : Int) : ulong x < 2 ^ 32 := by
  unfold ulong
  omega

theorem ulong_of_lt {n : Nat} (hn : n < 2 ^ 32) : ulong n = n := by
  unfold ulong
  omega

theorem long_of_mem {x : Int} (hlo : -(2 ^ 31) ≤ x) (hhi : x < 2 ^ 31) : long x = x := by
  unfold long
  omega

theorem long_lt (x : Int) : long x < 2 ^ 31 := by
  unfold long
  omega

theorem pageAlign_mod (x : Nat) : pageAlign x % 4096 = 0 := Nat.mul_mod_left ..

/-- The difference to a time so far ahead is that far, in either direction. -/
theorem long_ulong_add_sub (x y : Int) : long ((ulong (x + y) : Int) - x) = long y := by
  unfold long ulong
  omega

end AndroidKernel
