import AndroidKernel.CpuFreq.Governor
import AndroidKernel.Lib.Runs

/-!
# Changing the clock and the voltage

`s5pc110_target` and `s5pc110_pm_target` find the level for a frequency, set the voltage of
that level and the ARM clock, one of them first. The ARM clock is the output of the APLL over
a divider. Here a call runs from one access to `s5pc11x_cpufreq_index` or one write to the
hardware to the next, and `set_dvfs_perf_level` may be called between any two of these.

Left out are the writes that neither the ARM clock nor its voltage depends on: the other
dividers and multiplexers and the refresh counters of the memory. While the APLL gets another rate
the ARM clock runs on the MPLL (`MUX200`), which is left out too: with 667 MHz over the same divider
it is slower than on the APLL, which has 800 MHz or more before and after, and the multiplexer is
set back before the function goes on.
-/

namespace AndroidKernel.CpuFreq

open Option

/-! ## The tables -/

/-- A `struct S5PC110_clk_info`: rates in Hz, and of `msys_div0` the field that divides the
APLL. -/
structure ClkInfo where
  armclk : Nat
  apllout : Nat
  apllRatio : Nat

/-- `MHZ`. -/
def mhz : Nat := 1000 * 1000

/-- `KHZ_T`. -/
def khzT : Nat := 1000

/-- `clk_info`. -/
def clkInfoTab : List ClkInfo :=
  [⟨1400 * mhz, 1400 * mhz, 0⟩, ⟨1300 * mhz, 1300 * mhz, 0⟩, ⟨1200 * mhz, 1200 * mhz, 0⟩,
    ⟨1120 * mhz, 1120 * mhz, 0⟩, ⟨1000 * mhz, 1000 * mhz, 0⟩, ⟨800 * mhz, 800 * mhz, 0⟩,
    ⟨600 * mhz, 800 * mhz, 0⟩, ⟨400 * mhz, 800 * mhz, 1⟩, ⟨200 * mhz, 800 * mhz, 3⟩,
    ⟨100 * mhz, 800 * mhz, 7⟩]

def clkInfo (index : Nat) : ClkInfo := clkInfoTab.getD index ⟨0, 0, 0⟩

/-! ## The hardware -/

/-- What the ARM core runs on: the rate of the APLL, unless it is off, the field of
`S5P_CLK_DIV0` that divides it, and the level that was last passed to `set_voltage`. -/
structure Hw where
  apll : Option Nat
  div : Nat
  volt : Nat

/-- The rate of the ARM clock. -/
def Hw.armclk (h : Hw) : Nat := h.apll.getD 0 / (h.div + 1)

/-- `s3c_roundrate_clksrc`, for a divider of three bits. -/
def roundrateClksrc (parent rate : Nat) : Nat :=
  if rate ≥ parent then parent
  else
    let div := parent / rate + if parent % rate ≠ 0 then 1 else 0
    parent / min (max div 1) 8

/-- The divider that `s3c_setrate_clksrc` computes, which is what `clk_set_rate` calls for the
ARM clock. -/
def setrateDiv (parent rate : Nat) : Nat := parent / roundrateClksrc parent rate

/-! ## A call, one access at a time -/

inductive Caller
  | target
  | pmTarget
  deriving DecidableEq

/-- A change that `s5pc110_target` has decided on. -/
structure Change where
  down : Bool
  index : Nat
  deriving DecidableEq

inductive Pc
  | idle
  /-- The call has returned `ret`; its level was `index`. -/
  | returned (k : Caller) (index : Nat) (ret : Int)
  /-- `s5pc11x_target_freq_index`, up to its first load of the shared index. -/
  | enter (k : Caller) (freq : Nat)
  /-- Its second load, where the first one had the frequency asked for. -/
  | again (k : Caller)
  | store (k : Caller) (index : Nat)
  | got (k : Caller) (index : Nat)
  | voltage (c : Change)
  /-- `s5pc11x_armclk_set_rate`, with its load of the shared index. -/
  | setRate (c : Change)
  | apllDiv (c : Change) (index : Nat)
  | apllOff (c : Change) (index : Nat)
  | apllOn (c : Change) (index : Nat)
  | divider (c : Change) (index : Nat)
  /-- From `CPUFREQ_POSTCHANGE` on. -/
  | post (index : Nat)
  | pmVoltage (index : Nat)
  | clkSetRate (index : Nat)
  deriving DecidableEq

structure Cpu where
  dvfs : Dvfs
  prevIndex : Nat
  hw : Hw
  /-- `clk_fout_apll.rate`. -/
  foutApll : Nat
  /-- `mpu_clk->rate`. -/
  mpuRate : Nat
  /-- `policy->cur`. -/
  policyCur : Nat
  pc : Pc

/-- The search of `s5pc11x_target_freq_index`. -/
def Dvfs.scanIndex (s : Dvfs) (freq : Nat) : Option Nat := do
  let index ← (Scan.up (fun i => !(freq < frequency i && frequency i != cpufreqTableEnd))
    freqTabSize 0).found
  let index ← (Scan.up (fun i => !(s.activeStates i == 0 && frequency i != cpufreqTableEnd))
    (freqTabSize - index) index).found
  some (backIndex freq index)

namespace Cpu

variable (s : Cpu) (index : Nat)

def goto (pc : Pc) : Cpu := { s with pc := pc }

def setDiv (div : Nat) : Cpu := { s with hw := { s.hw with div := div } }

def setApll (apll : Option Nat) : Cpu := { s with hw := { s.hw with apll := apll } }

def setVoltage (level : Nat) : Cpu := { s with hw := { s.hw with volt := level } }

def setIndex : Cpu :=
  { s with dvfs := { s.dvfs with cpufreqIndex := index } }

/-- What follows a `s5pc11x_armclk_set_rate` that returns 0. -/
def rated (c : Change) : Pc := if c.down then .voltage c else .post c.index

/-- `s5pc11x_armclk_set_rate` up to its first write. It does not get the level, but reads it
from the shared variable. If that has another rate nothing is done, and the call succeeds. -/
def armclkSetRate (c : Change) : Pc :=
  let index := s.dvfs.cpufreqIndex
  if index ≥ clkInfoTab.length then .returned .target c.index Dvfs.einval
  else if (clkInfo index).armclk ≠ frequency c.index * khzT then rated c
  else if (clkInfo s.prevIndex).apllout ≠ (clkInfo index).apllout then .apllDiv c index
  else if s.foutApll / (s.hw.div + 1) = (clkInfo index).armclk then rated c
  else .divider c index

/-- The rate that `s5pc110_target` and `s5pc110_pm_target` ask for. -/
def rate : Nat := frequency index * khzT

/-- One step of the call. -/
def run : Option Cpu :=
  match s.pc with
  | .idle | .returned _ _ _ => none
  | .enter k freq =>
    if freq ≥ frequency 0 then some (s.goto (.store k 0))
    else if frequency s.dvfs.cpufreqIndex = freq then some (s.goto (.again k))
    else (s.dvfs.scanIndex freq).map fun index => s.goto (.store k index)
  | .again k => some (s.goto (.got k s.dvfs.cpufreqIndex))
  | .store k index =>
    let index := clipLevel index maxfreqlevel
    some ((s.setIndex index).goto (.got k index))
  | .got .target index =>
    if s.prevIndex = index then some (s.goto (.returned .target index 0))
    else if s.prevIndex < index then some (s.goto (.setRate ⟨true, index⟩))
    else some (s.goto (.voltage ⟨false, index⟩))
  | .got .pmTarget index => some (s.goto (.pmVoltage index))
  | .voltage c =>
    some ((s.setVoltage c.index).goto (if c.down then .post c.index else .setRate c))
  | .setRate c => some (s.goto (s.armclkSetRate c))
  -- `s5pc11x_clk_set_withapllchange`
  | .apllDiv c index => some ((s.setDiv (clkInfo index).apllRatio).goto (.apllOff c index))
  | .apllOff c index => some ((s.setApll none).goto (.apllOn c index))
  | .apllOn c index =>
    -- it keeps the rate of the ARM clock as that of the APLL
    some { (s.setApll (some (clkInfo index).apllout)).goto (rated c) with
      foutApll := rate c.index }
  | .divider c index => some ((s.setDiv (clkInfo index).apllRatio).goto (rated c))
  | .post index =>
    some { s.goto (.returned .target index 0) with
      policyCur := frequency index, prevIndex := index, mpuRate := rate index }
  | .pmVoltage index => some ((s.setVoltage index).goto (.clkSetRate index))
  | .clkSetRate index =>
    let div := setrateDiv s.foutApll (rate index)
    if div > 8 then some (s.goto (.returned .pmTarget index Dvfs.einval))
    else some ((s.setDiv (div - 1)).goto (.returned .pmTarget index 0))

inductive Op
  | target (freq : Nat)
  | pmTarget (freq : Nat)
  | run
  | perfLevel (level : Nat)

/-- No call is in progress. -/
def atRest : Bool :=
  match s.pc with
  | .idle | .returned _ _ _ => true
  | _ => false

def step : Op → Option Cpu
  | .target freq => if s.atRest then some (s.goto (.enter .target freq)) else none
  | .pmTarget freq => if s.atRest then some (s.goto (.enter .pmTarget freq)) else none
  | .run => s.run
  | .perfLevel level => some { s with dvfs := s.dvfs.setDvfsPerfLevel level }

/-- After `s5pc110_cpu_init`, with the clock and the voltage at the 800 MHz level. That is
level 5, but `prevIndex` is 1. -/
def init (behind : Nat → Int) : Cpu where
  dvfs := .init behind
  prevIndex := 1
  hw := ⟨some (800 * mhz), 0, 5⟩
  foutApll := 800 * mhz
  mpuRate := 0
  policyCur := 800 * 1000
  pc := .idle

end Cpu

/-! ## Facts about the tables -/

theorem armclk_eq {i : Nat} (h : i ≤ 9) : (clkInfo i).armclk = Cpu.rate i := by
  revert i
  decide

/-- What a level programs has the rate of the level, but for the 600 MHz level, which has a
divider of 1. -/
theorem programmed_rate {i : Nat} (h : i ≤ 9) (h6 : i ≠ 6) :
    (clkInfo i).apllout / ((clkInfo i).apllRatio + 1) = Cpu.rate i := by
  revert i
  decide

/-- Two levels with the same rate of the APLL are at most 800 MHz. -/
theorem apllout_eq {i j : Nat} (hi : i ≤ 9) (hj : j ≤ 9) (hne : i ≠ j)
    (h : (clkInfo i).apllout = (clkInfo j).apllout) : 5 ≤ i := by
  revert j
  revert i
  decide

namespace Cpu

/-! ## What a step does -/

/-- The outcome of a step of a call. -/
inductive Ran (s : Cpu) : Cpu → Prop
  | enterStore {k : Caller} {freq : Nat} (i : Nat) : s.pc = .enter k freq →
      Ran s (s.goto (.store k i))
  | enterAgain {k : Caller} {freq : Nat} : s.pc = .enter k freq →
      frequency s.dvfs.cpufreqIndex = freq → Ran s (s.goto (.again k))
  | again {k : Caller} : s.pc = .again k → Ran s (s.goto (.got k s.dvfs.cpufreqIndex))
  | store {k : Caller} {i : Nat} : s.pc = .store k i →
      Ran s ((s.setIndex (clipLevel i maxfreqlevel)).goto (.got k (clipLevel i maxfreqlevel)))
  | same {i : Nat} : s.pc = .got .target i → s.prevIndex = i →
      Ran s (s.goto (.returned .target i 0))
  | down {i : Nat} : s.pc = .got .target i → s.prevIndex < i → Ran s (s.goto (.setRate ⟨true, i⟩))
  | up {i : Nat} : s.pc = .got .target i → i < s.prevIndex → Ran s (s.goto (.voltage ⟨false, i⟩))
  | pm {i : Nat} : s.pc = .got .pmTarget i → Ran s (s.goto (.pmVoltage i))
  | lower {i : Nat} : s.pc = .voltage ⟨true, i⟩ → Ran s ((s.setVoltage i).goto (.post i))
  | raise {i : Nat} : s.pc = .voltage ⟨false, i⟩ →
      Ran s ((s.setVoltage i).goto (.setRate ⟨false, i⟩))
  | setRate {c : Change} : s.pc = .setRate c → Ran s (s.goto (s.armclkSetRate c))
  | apllDiv {c : Change} {i : Nat} : s.pc = .apllDiv c i →
      Ran s ((s.setDiv (clkInfo i).apllRatio).goto (.apllOff c i))
  | apllOff {c : Change} {i : Nat} : s.pc = .apllOff c i →
      Ran s ((s.setApll none).goto (.apllOn c i))
  | apllOn {c : Change} {i : Nat} : s.pc = .apllOn c i →
      Ran s { (s.setApll (some (clkInfo i).apllout)).goto (rated c) with foutApll := rate c.index }
  | divider {c : Change} {i : Nat} : s.pc = .divider c i →
      Ran s ((s.setDiv (clkInfo i).apllRatio).goto (rated c))
  | post {i : Nat} : s.pc = .post i →
      Ran s { s.goto (.returned .target i 0) with
        policyCur := frequency i, prevIndex := i, mpuRate := rate i }
  | pmVoltage {i : Nat} : s.pc = .pmVoltage i → Ran s ((s.setVoltage i).goto (.clkSetRate i))
  | clkError {i : Nat} : s.pc = .clkSetRate i → Ran s (s.goto (.returned .pmTarget i Dvfs.einval))
  | clkSetRate {i : Nat} : s.pc = .clkSetRate i → setrateDiv s.foutApll (rate i) ≤ 8 →
      Ran s ((s.setDiv (setrateDiv s.foutApll (rate i) - 1)).goto (.returned .pmTarget i 0))

theorem ran_of_run {s s' : Cpu} (h : s.run = some s') : Ran s s' := by
  cases hpc : s.pc with
  | idle | returned k i ret =>
    rw [run, hpc] at h
    cases h
  | enter k freq =>
    simp only [run, hpc] at h
    split at h
    next =>
      cases h
      exact .enterStore 0 hpc
    next =>
      split at h
      next hknown =>
        cases h
        exact .enterAgain hpc hknown
      next =>
        obtain ⟨i, -, rfl⟩ := map_eq_some_iff.mp h
        exact .enterStore i hpc
  | again | store | setRate | apllDiv | apllOff | apllOn | divider | post | pmVoltage =>
    rw [run, hpc] at h
    cases h
    constructor
    exact hpc
  | got k i =>
    cases k with
    | target =>
      simp only [run, hpc] at h
      split at h
      next heq =>
        cases h
        exact .same hpc heq
      next hne =>
        split at h
        next hlt =>
          cases h
          exact .down hpc hlt
        next hge =>
          cases h
          exact .up hpc (by omega)
    | pmTarget =>
      rw [run, hpc] at h
      cases h
      exact .pm hpc
  | voltage c =>
    obtain ⟨down, i⟩ := c
    cases down with
    | true =>
      rw [run, hpc] at h
      cases h
      exact .lower hpc
    | false =>
      rw [run, hpc] at h
      cases h
      exact .raise hpc
  | clkSetRate i =>
    simp only [run, hpc] at h
    split at h
    next =>
      cases h
      exact .clkError hpc
    next hdiv =>
      cases h
      exact .clkSetRate hpc (by omega)

/-- Where the shared index is still the level of the call, it is programmed. -/
theorem armclkSetRate_eq {s : Cpu} {c : Change} (hi : c.index ≤ 9)
    (hindex : s.dvfs.cpufreqIndex = c.index) : s.armclkSetRate c =
      if (clkInfo s.prevIndex).apllout ≠ (clkInfo c.index).apllout then .apllDiv c c.index
      else if s.foutApll / (s.hw.div + 1) = rate c.index then rated c else .divider c c.index := by
  have hlen : ¬c.index ≥ clkInfoTab.length := by
    have : clkInfoTab.length = 10 := rfl
    omega
  have hrate : ¬rate c.index ≠ frequency c.index * khzT := not_not.mpr rfl
  simp only [armclkSetRate, hindex, if_neg hlen, armclk_eq hi, if_neg hrate]

/-- `s5pc11x_armclk_get_rate` gives the rate of the level only if the clock has it. It
computes that rate from `clk_fout_apll.rate`, which is not always the rate of the APLL. -/
def TrueRate (s : Cpu) (i : Nat) : Prop :=
  (clkInfo s.prevIndex).apllout = (clkInfo i).apllout →
    s.foutApll / (s.hw.div + 1) = rate i → s.hw.armclk = rate i
  deriving Decidable

/-- The rate of the APLL is that of the previous level, but for the start. -/
structure Steady (h : Hw) (prev : Nat) : Prop where
  level : prev ≤ 9
  apll : h.apll = some (clkInfo prev).apllout ∨ prev = 1 ∧ h.apll = some (800 * mhz)

/-- Where a level has the APLL's rate of the previous one, that is 800 MHz. -/
theorem Steady.apll_of_eq {hw : Hw} {prev i : Nat} (h : Steady hw prev) (hi : i ≤ 9)
    (hne : prev ≠ i) (heq : (clkInfo prev).apllout = (clkInfo i).apllout) :
    hw.apll = some (clkInfo i).apllout := by
  have hlow := apllout_eq h.level hi hne heq
  rcases h.apll with h | ⟨hone, -⟩
  · rw [h, heq]
  · omega

end Cpu

end AndroidKernel.CpuFreq
