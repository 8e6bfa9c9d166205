import AndroidKernel.Lib.Words

/-!
# Kernel times and the start of a high resolution timer

`ktime_t` on a 32-bit machine (`include/linux/ktime.h`): the upper word of `tv64` holds
seconds, the lower one nanoseconds of less than a second, so that times are compared by
`tv64`. Seconds wrap. `ns` is the time in nanoseconds, which is what a time means.

`hrtimer_start_expires` (`include/linux/hrtimer.h`, `kernel/hrtimer.c`) starts a timer
from its soft expiry time and the distance to the hard one, which it takes as an
`unsigned long`, and adds the two with `ktime_add_safe`.
-/

namespace AndroidKernel

/-- `ktime_t`, with nanoseconds in their range. -/
structure KTime where
  tv64 : Int
  lower : -(2 ^ 63) ≤ tv64
  upper : tv64 < 2 ^ 63
  normal : tv64 % 2 ^ 32 < 10 ^ 9
  deriving DecidableEq

namespace KTime

/-- `tv.sec`. -/
def sec (t : KTime) : Int := t.tv64 / 2 ^ 32

/-- `tv.nsec`. -/
def nsec (t : KTime) : Int := t.tv64 % 2 ^ 32

/-- `ktime_to_ns`. -/
def ns (t : KTime) : Int := t.sec * 10 ^ 9 + t.nsec

/-- `ktime_set`. -/
def set (secs : Int) (nsecs : Nat) (h : nsecs < 10 ^ 9) : KTime where
  tv64 := long secs * 2 ^ 32 + nsecs
  lower := by unfold long; omega
  upper := by unfold long; omega
  normal := by unfold long; omega

/-- `ktime_add`: a carry into the seconds is made by adding the lower word of
`-NSEC_PER_SEC`. -/
def add (add1 add2 : KTime) : KTime :=
  let res := s64 (add1.tv64 + add2.tv64)
  { tv64 := if 10 ^ 9 ≤ long (res % 2 ^ 32) then s64 (res + (2 ^ 32 - 10 ^ 9)) else res
    lower := by
      have := add1.normal
      have := add2.normal
      unfold res s64 long
      split <;> omega
    upper := by
      have := add1.normal
      have := add2.normal
      unfold res s64 long
      split <;> omega
    normal := by
      have := add1.normal
      have := add2.normal
      have : res % 2 ^ 32 = (add1.tv64 + add2.tv64) % 2 ^ 32 := by unfold res s64; omega
      unfold s64 long at *
      split <;> omega }

/-- `ktime_sub`: a borrow has already been taken from the seconds. -/
def sub (lhs rhs : KTime) : KTime :=
  let res := s64 (lhs.tv64 - rhs.tv64)
  let nsec := long (res % 2 ^ 32)
  { tv64 := if nsec < 0 then res / 2 ^ 32 * 2 ^ 32 + (nsec + 10 ^ 9) else res
    lower := by
      have := lhs.normal
      have := rhs.normal
      unfold nsec res s64 long
      split <;> omega
    upper := by
      have := lhs.normal
      have := rhs.normal
      unfold nsec res s64 long
      split <;> omega
    normal := by
      have := lhs.normal
      have := rhs.normal
      have : res % 2 ^ 32 = (lhs.tv64 - rhs.tv64) % 2 ^ 32 := by unfold res s64; omega
      unfold nsec long
      split <;> omega }

theorem zero_lt_nsecPerSec : 0 < 10 ^ 9 := by decide

def zero : KTime := set 0 0 zero_lt_nsecPerSec

/-- `ns_to_ktime`, through `ktime_add_ns`. -/
def ofNs (ns : Nat) : KTime :=
  if h : ns < 10 ^ 9 then add zero (set 0 ns h)
  else add zero (set (ns / 10 ^ 9 : Nat) (ns % 10 ^ 9) (Nat.mod_lt _ (by decide)))

/-- `ktime_add_safe`: `KTIME_SEC_MAX` seconds stand for every sum that is negative or
less than one of its terms. -/
def addSafe (lhs rhs : KTime) : KTime :=
  let res := add lhs rhs
  if res.tv64 < 0 ∨ res.tv64 < lhs.tv64 ∨ res.tv64 < rhs.tv64 then
    set longMax 0 (by decide)
  else res

/-! ## Nanoseconds -/

variable {a b : KTime}

theorem ns_le_iff : a.ns ≤ b.ns ↔ a.tv64 ≤ b.tv64 := by
  have := a.normal
  have := b.normal
  unfold ns sec nsec
  omega

theorem ns_lt (a : KTime) : a.ns < 2 ^ 31 * 10 ^ 9 := by
  have := a.normal
  have := a.upper
  unfold ns sec nsec
  omega

theorem ns_nonneg_iff : 0 ≤ a.ns ↔ 0 ≤ a.tv64 := by
  have := a.normal
  unfold ns sec nsec
  omega

/-- Whether there is a carry can be seen from the nanoseconds. -/
theorem add_tv64 (a b : KTime) : (add a b).tv64 =
    if 10 ^ 9 ≤ a.nsec + b.nsec then s64 (a.tv64 + b.tv64 + (2 ^ 32 - 10 ^ 9))
    else s64 (a.tv64 + b.tv64) := by
  have ha := a.normal
  have hb := b.normal
  have hlow : long (s64 (a.tv64 + b.tv64) % 2 ^ 32) = a.nsec + b.nsec := by
    have : s64 (a.tv64 + b.tv64) % 2 ^ 32 = a.nsec + b.nsec := by
      unfold s64 nsec
      omega
    rw [this]
    exact long_of_mem (by unfold nsec; omega) (by unfold nsec; omega)
  unfold add
  dsimp only
  rw [hlow]
  split
  · unfold s64
    omega
  · rfl

/-- A sum that is in range is the sum. -/
theorem ns_add (hlo : -(2 ^ 31 * 10 ^ 9) ≤ a.ns + b.ns) (hhi : a.ns + b.ns < 2 ^ 31 * 10 ^ 9) :
    (add a b).ns = a.ns + b.ns := by
  have := a.normal
  have := b.normal
  have htv := add_tv64 a b
  unfold ns sec nsec s64 at *
  split at htv <;> omega

theorem ns_sub (hlo : -(2 ^ 31 * 10 ^ 9) ≤ a.ns - b.ns) (hhi : a.ns - b.ns < 2 ^ 31 * 10 ^ 9) :
    (sub a b).ns = a.ns - b.ns := by
  have := a.normal
  have := b.normal
  unfold ns sec nsec sub s64 long at *
  dsimp only
  split <;> omega

theorem ns_set {secs : Int} {nsecs : Nat} {h : nsecs < 10 ^ 9} (hlo : -(2 ^ 31) ≤ secs)
    (hhi : secs < 2 ^ 31) : (set secs nsecs h).ns = secs * 10 ^ 9 + nsecs := by
  have htv : (set secs nsecs h).tv64 = secs * 2 ^ 32 + nsecs := by
    show long secs * 2 ^ 32 + nsecs = _
    rw [long_of_mem hlo hhi]
  unfold ns sec nsec
  omega

theorem ns_zero : zero.ns = 0 := by decide

theorem ns_ofNs {n : Nat} (h : n < 2 ^ 32) : (ofNs n).ns = n := by
  unfold ofNs
  split
  · rw [ns_add, ns_zero, ns_set] <;> (try rw [ns_zero, ns_set]) <;> omega
  · have hset : (set (n / 10 ^ 9 : Nat) (n % 10 ^ 9) (Nat.mod_lt _ (by decide))).ns =
        (n / 10 ^ 9 : Nat) * 10 ^ 9 + (n % 10 ^ 9 : Nat) := ns_set (by omega) (by omega)
    rw [ns_add, ns_zero, hset] <;> (try rw [ns_zero, hset]) <;> omega

/-- Of times that are not negative, `ktime_add_safe` is never more than the sum. -/
theorem ns_addSafe_le (ha : 0 ≤ a.ns) (hb : 0 ≤ b.ns) : (addSafe a b).ns ≤ a.ns + b.ns := by
  by_cases hsum : a.ns + b.ns < 2 ^ 31 * 10 ^ 9
  · have hadd := ns_add (by omega) hsum
    have h0 : 0 ≤ (add a b).tv64 := ns_nonneg_iff.mp (by omega)
    have hl : a.tv64 ≤ (add a b).tv64 := ns_le_iff.mp (by omega)
    have hr : b.tv64 ≤ (add a b).tv64 := ns_le_iff.mp (by omega)
    unfold addSafe
    rw [if_neg (by omega)]
    exact Int.le_of_eq hadd
  · -- any time there is is less than such a sum
    exact Int.le_trans (Int.le_of_lt (ns_lt _)) (by omega)

end KTime

/-! ## Starting a timer -/

/-- An hrtimer that is enqueued. -/
structure Hrtimer where
  softexpires : KTime
  expires : KTime
  deriving DecidableEq

/-- `hrtimer_start_range_ns` with an absolute time. -/
def hrtimerStartRangeNs (tim : KTime) (deltaNs : Nat) : Hrtimer where
  softexpires := tim
  expires := tim.addSafe (.ofNs deltaNs)

/-- `hrtimer_start_expires`. -/
def hrtimerStartExpires (soft hard : KTime) : Hrtimer :=
  hrtimerStartRangeNs soft (ulong (hard.sub soft).ns)

/-- A timer that is set up relative to `delta` expires no later than its hard expiry
time, unless its soft one is negative. -/
theorem hrtimerStartExpires_le {delta soft hard : KTime} (h0 : 0 ≤ delta.ns + soft.ns)
    (hle : soft.ns ≤ hard.ns) :
    (hrtimerStartExpires (delta.add soft) (delta.add hard)).expires.ns ≤ delta.ns + hard.ns := by
  by_cases hhard : delta.ns + hard.ns < 2 ^ 31 * 10 ^ 9
  · have hsoftNs : (delta.add soft).ns = delta.ns + soft.ns := KTime.ns_add (by omega) (by omega)
    have hhardNs : (delta.add hard).ns = delta.ns + hard.ns := KTime.ns_add (by omega) hhard
    have hsub : ((delta.add hard).sub (delta.add soft)).ns = hard.ns - soft.ns := by
      rw [KTime.ns_sub, hhardNs, hsoftNs] <;> (try rw [hhardNs, hsoftNs]) <;> omega
    have hdist : ((ulong (hard.ns - soft.ns) : Nat) : Int) ≤ hard.ns - soft.ns := by
      unfold ulong
      omega
    have hof := KTime.ns_ofNs (ulong_lt (hard.ns - soft.ns))
    have hsum := KTime.ns_addSafe_le (a := delta.add soft)
      (b := .ofNs (ulong (hard.ns - soft.ns))) (by omega) (by omega)
    show ((delta.add soft).addSafe
      (.ofNs (ulong ((delta.add hard).sub (delta.add soft)).ns))).ns ≤ delta.ns + hard.ns
    rw [hsub]
    omega
  · exact Int.le_trans (Int.le_of_lt (KTime.ns_lt _)) (by omega)

end AndroidKernel
