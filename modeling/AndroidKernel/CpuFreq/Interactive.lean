import AndroidKernel.Lib.Runs
import AndroidKernel.Lib.Words

/-!
# The interactive governor

`cpufreq_interactive_calc_freq` takes the load since the last change of the frequency in 32 bits,
so that it is right only as long as a hundred times the busy time fits. The governor counts the
policies that it runs for, but the test in `CPUFREQ_GOV_STOP` is off by one, and a start that fails
is counted too.
-/

namespace AndroidKernel.Interactive

/-! ## The load -/

/-- `cpufreq_interactive_calc_freq`, with the times in microseconds. -/
def calcFreq (cur wallTime idleTime freqChangeTime freqChangeTimeInIdle : Nat) : Nat :=
  let idle := ulong ((idleTime : Int) - freqChangeTimeInIdle)
  let delta := ulong ((wallTime : Int) - freqChangeTime)
  if delta = 0 then cur
  else
    let cpuLoad := ulong (100 * ulong ((delta : Int) - idle)) / delta
    ulong (cur * cpuLoad) / 100

/-- The counters only matter modulo 2 ^ 32. -/
theorem calcFreq_eq {cur wall idle busy elapsed : Nat} (hbusy : busy ≤ elapsed) :
    calcFreq cur (wall + elapsed) (idle + (elapsed - busy)) wall idle =
      if elapsed % 2 ^ 32 = 0 then cur
      else cur * (100 * busy % 2 ^ 32 / (elapsed % 2 ^ 32)) % 2 ^ 32 / 100 := by
  have hidle : ulong ((idle + (elapsed - busy) : Nat) - idle : Int) =
      (elapsed - busy) % 2 ^ 32 := by
    unfold ulong
    omega
  have hdelta : ulong ((wall + elapsed : Nat) - wall : Int) = elapsed % 2 ^ 32 := by
    unfold ulong
    omega
  have hrest : ulong (100 * ulong (((elapsed % 2 ^ 32 : Nat) : Int) -
      ((elapsed - busy) % 2 ^ 32 : Nat))) = 100 * busy % 2 ^ 32 := by
    unfold ulong
    omega
  unfold calcFreq
  dsimp only
  rw [hidle, hdelta, hrest, ← Nat.cast_mul]
  rfl

/-- What `pm_idle` can be: the routine of the governor, or that of the platform. -/
inductive Idle
  | cpufreqIdle
  | platform
  deriving DecidableEq

/-- The state of the governor. `running` is the number of starts that returned 0 less that of
the stops, which the code does not keep. -/
structure Governor where
  activeCount : Int
  group : Bool
  pmIdle : Option Idle
  pmIdleOld : Option Idle
  running : Nat
  deriving DecidableEq

inductive Event
  | start (online : Bool) (rc : Int)
  | stop

namespace Governor

def init : Governor := ⟨0, false, some .platform, none, 0⟩

variable (g : Governor)

/-- `CPUFREQ_GOV_START`, where `sysfs_create_group` would return `rc`. -/
def start (online : Bool) (rc : Int) : Governor × Int :=
  if online = false then (g, -22)
  else
    let g := { g with activeCount := g.activeCount + 1 }
    if g.activeCount > 1 then (g, 0)
    else if rc ≠ 0 then (g, rc)
    else ({ g with group := true, pmIdleOld := g.pmIdle, pmIdle := some .cpufreqIdle }, 0)

/-- `CPUFREQ_GOV_STOP`. -/
def stop : Governor :=
  let g := { g with activeCount := g.activeCount - 1 }
  if g.activeCount > 1 then g
  else { g with group := false, pmIdle := g.pmIdleOld }

/-- Each stop belongs to a start that succeeded. -/
def step : Event → Option Governor
  | .start online rc =>
    let r := g.start online rc
    some (if r.2 = 0 then { r.1 with running := g.running + 1 } else r.1)
  | .stop => if g.running = 0 then none else some { g.stop with running := g.running - 1 }

/-- One policy at a time, and the group can be created. -/
def OnePolicy : Event → Prop
  | .start _ rc => g.running = 0 ∧ rc = 0
  | .stop => True

instance (e : Event) : Decidable (g.OnePolicy e) := by
  unfold OnePolicy
  split <;> infer_instance

/-- The idle routine and the group are there while the governor runs. -/
structure Hooked : Prop where
  pmIdle : g.pmIdle = some (if 0 < g.running then .cpufreqIdle else .platform)
  group : g.group = true ↔ 0 < g.running
  pmIdleOld : 0 < g.running → g.pmIdleOld = some .platform

structure Inv : Prop extends Hooked g where
  count : g.activeCount = g.running
  one : g.running ≤ 1

variable {g}

theorem inv_step {g' : Governor} {e : Event} (h : g.Inv) (hok : g.OnePolicy e)
    (hs : g.step e = some g') : g'.Inv := by
  cases e with
  | start online rc =>
    obtain ⟨hrunning, rfl⟩ := hok
    cases hs
    cases online with
    | false => exact h
    | true =>
      have hcount : ¬g.activeCount + 1 > 1 := by
        have := h.count
        omega
      have hidle := h.pmIdle
      simp only [start, hrunning, hcount, hidle]
      refine ⟨⟨rfl, by simp, fun _ => rfl⟩, ?_, Nat.le_refl 1⟩
      simp [h.count, hrunning]
  | stop =>
    obtain ⟨hrunning, hs⟩ := Option.ite_none_left_eq_some.mp hs
    cases hs
    have hone := h.one
    have hcount := h.count
    have hpos : 0 < g.running := Nat.pos_of_ne_zero hrunning
    have hzero : g.running - 1 = 0 := by omega
    have hnot : ¬g.activeCount - 1 > 1 := by omega
    simp only [stop, hnot, if_false, hzero]
    exact ⟨⟨h.pmIdleOld hpos, by simp, (absurd · (lt_irrefl 0))⟩, by simp only; omega,
      Nat.zero_le 1⟩

/-- For one policy at a time, the governor is hooked in as long as it runs. -/
theorem hooked_of_onePolicy (h : Reached step OnePolicy init g) : g.Hooked := by
  have hinv : g.Inv := by
    refine h.invariant (P := Inv) ⟨⟨rfl, by decide, ?_⟩, rfl, Nat.zero_le 1⟩ ?_
    · exact (absurd · (lt_irrefl 0))
    · exact fun _ _ _ h hok hs => inv_step h hok hs
  exact hinv.toHooked

theorem hooked_of_onePolicy_restarted : ∃ g, Reached step OnePolicy init g ∧
    (g.running = 1 ∧ g.group = true) ∧ g.Hooked :=
  Reached.exists_of_checked_and [.start true 0, .stop, .start true 0] (by decide +kernel)
    fun _ hrun _ => hooked_of_onePolicy hrun

/-- The first of two policies to stop takes the governor away from the other. After a start that
failed, the next one installs nothing, and its stop leaves no idle routine at all. -/
theorem unhooked : (∃ g, Reached step (fun _ _ => True) init g ∧ g.running = 1 ∧
      g.pmIdle = some .platform ∧ g.group = false) ∧
    (∃ g, Reached step (fun _ _ => True) init g ∧ g.running = 1 ∧ g.pmIdle = some .platform) ∧
    ∃ g, Reached step (fun _ _ => True) init g ∧ g.running = 0 ∧ g.pmIdle = none := by
  refine ⟨?_, ?_, ?_⟩
  · exact Reached.exists_of_checked [.start true 0, .start true 0, .stop] (by decide +kernel)
  · exact Reached.exists_of_checked [.start true (-12), .start true 0] (by decide +kernel)
  · exact Reached.exists_of_checked [.start true (-12), .start true 0, .stop] (by decide +kernel)

end Governor

end AndroidKernel.Interactive
