import AndroidKernel.CpuFreq.Clock

/-!
# A call that succeeds has set the clock

`s5pc11x_armclk_set_rate` does not get the level from `s5pc110_target`, but reads it once more
from the shared index. If `set_dvfs_perf_level` has made that faster in the meantime, the rate
does not fit, nothing is done and 0 is returned. A call for the level in `prevIndex` returns 0
at once, although the clock may have been changed by `s5pc110_pm_target`.

If neither happens, and the 600 MHz level and a wrong `clk_fout_apll.rate` play no part, then
the clock, `prevIndex`, `mpu_clk->rate` and the policy agree whenever `s5pc110_target` has
returned 0.
-/

namespace AndroidKernel.CpuFreq.Cpu

open List

/-- The hardware and all records of it have the frequency of level `i`. -/
@[mk_iff]
structure Agree (s : Cpu) (i : Nat) : Prop where
  armclk : s.hw.armclk = rate i
  prevIndex : s.prevIndex = i
  mpuRate : s.mpuRate = rate i
  policyCur : s.policyCur = frequency i

instance (s : Cpu) (i : Nat) : Decidable (s.Agree i) := decidable_of_iff' _ (s.agree_iff i)

/-- A call of `s5pc110_target` that has found its level and not yet read it again. -/
def window : Pc → Bool
  | .got .target _ | .voltage ⟨false, _⟩ | .setRate _ => true
  | _ => false

/-- The condition on a call of `s5pc110_target` that has found its level; with `same` also on one
that returns at once. -/
def Sound (same : Bool) (s : Cpu) (i : Nat) : Prop :=
  (same = true → s.prevIndex = i → s.hw.armclk = rate i) ∧
    (s.prevIndex ≠ i → i ≠ 6 ∧ s.TrueRate i)
  deriving Decidable

def SoundAt (same : Bool) (s : Cpu) : Pc → Prop
  | .got .target i => s.Sound same i
  | _ => True

instance (same : Bool) (s : Cpu) (pc : Pc) : Decidable (s.SoundAt same pc) := by
  unfold SoundAt
  split <;> infer_instance

/-- Calls that meet the condition, with no call of `set_dvfs_perf_level` that makes the index
faster in between. -/
def Undisturbed (same : Bool) (s : Cpu) : Op → Prop
  | .target _ | .pmTarget _ => True
  | .run => s.SoundAt same s.pc
  | .perfLevel level => window s.pc = true → s.dvfs.cpufreqIndex ≤ level

instance (same : Bool) (s : Cpu) (op : Op) : Decidable (s.Undisturbed same op) := by
  unfold Undisturbed
  split <;> infer_instance

/-! ## The invariant -/

/-- The records agree among each other, but for the start. -/
structure Recorded (s : Cpu) : Prop where
  steady : Steady s.hw s.prevIndex
  records : s.mpuRate = rate s.prevIndex ∧ s.policyCur = frequency s.prevIndex ∨
    s.prevIndex = 1 ∧ s.hw.apll = some (800 * mhz)

/-- The level of a change is one that the hardware can have. -/
structure Level (i : Nat) : Prop where
  le : i ≤ 9
  ne : i ≠ 6

/-- The clock will be set as the change says. -/
structure Aimed (s : Cpu) (i : Nat) : Prop where
  level : Level i
  index : s.dvfs.cpufreqIndex = i
  prev : s.prevIndex ≠ i
  true_rate : s.TrueRate i

/-- The clock has been set. -/
structure Tuned (h : Hw) (i : Nat) : Prop where
  level : Level i
  apll : h.apll = some (clkInfo i).apllout
  armclk : h.armclk = rate i

/-- What holds at each place of a call. -/
def Along (same : Bool) (s : Cpu) : Pc → Prop
  | .idle | .enter _ _ | .again _ | .store _ _ | .got .pmTarget _ | .pmVoltage _
  | .clkSetRate _ => s.Recorded
  | .returned k i ret => s.Recorded ∧ (same = true → k = .target → ret = 0 → s.Agree i)
  | .got .target i => s.Recorded ∧ s.dvfs.cpufreqIndex = i
  | .voltage c => (c.down = true → Tuned s.hw c.index) ∧
    (c.down = false → s.Recorded ∧ s.Aimed c.index)
  | .setRate c => s.Recorded ∧ s.Aimed c.index
  | .apllDiv c i => i = c.index ∧ Level i
  | .apllOff c i | .apllOn c i => i = c.index ∧ Level i ∧ s.hw.div = (clkInfo i).apllRatio
  | .divider c i => i = c.index ∧ Level i ∧ s.hw.apll = some (clkInfo i).apllout
  | .post i => Tuned s.hw i

structure Good (same : Bool) (s : Cpu) : Prop where
  index : s.dvfs.cpufreqIndex ≤ 9
  along : s.Along same s.pc

variable {same : Bool} {s s' : Cpu} {op : Op} {c : Change} {i : Nat}

theorem Good.here {pc : Pc} (h : s.Good same) (hpc : s.pc = pc) : s.Along same pc := hpc ▸ h.along

theorem Recorded.congr (h : s.Recorded) (hprev : s'.prevIndex = s.prevIndex)
    (hapll : s'.hw.apll = s.hw.apll) (hmpu : s'.mpuRate = s.mpuRate)
    (hpolicy : s'.policyCur = s.policyCur) : s'.Recorded where
  steady := by
    rw [hprev]
    exact ⟨h.steady.level, hapll ▸ h.steady.apll⟩
  records := by
    rw [hprev, hapll, hmpu, hpolicy]
    exact h.records

theorem Recorded.goto (h : s.Recorded) (pc : Pc) : (s.goto pc).Recorded :=
  h.congr rfl rfl rfl rfl

/-- At the start no divider gives the rate of `prevIndex`. -/
theorem Recorded.agree (h : s.Recorded) (hprev : s.prevIndex = i) (harm : s.hw.armclk = rate i) :
    s.Agree i := by
  rcases h.records with ⟨hmpu, hpolicy⟩ | ⟨hone, hapll⟩
  · exact ⟨harm, hprev, hprev ▸ hmpu, hprev ▸ hpolicy⟩
  · have hle : s.hw.armclk ≤ 800 * mhz := by
      rw [Hw.armclk, hapll]
      exact Nat.div_le_self _ _
    have hlt : 800 * mhz < rate 1 := by decide
    rw [harm, ← hprev, hone] at hle
    omega

theorem along_rated (htuned : Tuned s.hw c.index) : s.Along same (rated c) := by
  unfold rated
  split
  next hdown => exact ⟨fun _ => htuned, fun hup => absurd (hdown.symm.trans hup) nofun⟩
  next => exact htuned

theorem tuned_of_programmed {h : Hw} (hlevel : Level i) (hapll : h.apll = some (clkInfo i).apllout)
    (hdiv : h.div = (clkInfo i).apllRatio) : Tuned h i where
  level := hlevel
  apll := hapll
  armclk := by
    rw [Hw.armclk, hapll, hdiv]
    exact programmed_rate hlevel.le hlevel.ne

theorem good_setRate (h : s.Good same) (hpc : s.pc = .setRate c) :
    (s.goto (s.armclkSetRate c)).Good same := by
  obtain ⟨hrec, haimed⟩ := h.here hpc
  refine ⟨h.index, ?_⟩
  rw [armclkSetRate_eq haimed.level.le haimed.index]
  split
  next => exact ⟨rfl, haimed.level⟩
  next heq =>
    have hapll := hrec.steady.apll_of_eq haimed.level.le haimed.prev (not_not.mp heq)
    split
    next hcur =>
      have htuned : Tuned s.hw c.index :=
        ⟨haimed.level, hapll, haimed.true_rate (not_not.mp heq) hcur⟩
      exact @along_rated same (s.goto (rated c)) c htuned
    next => exact ⟨rfl, haimed.level, hapll⟩

theorem good_ran (h : s.Good same) (hran : Ran s s')
    (hsound : ∀ i, s.pc = .got .target i → s.Sound same i) : s'.Good same := by
  cases hran with
  | enterStore i hpc | enterAgain hpc _ | pm hpc =>
    exact ⟨h.index, (h.here hpc).goto _⟩
  | @again k hpc =>
    have halong := h.here hpc
    cases k with
    | target => exact ⟨h.index, halong.goto _, rfl⟩
    | pmTarget => exact ⟨h.index, halong.goto _⟩
  | @store k i hpc =>
    have halong := h.here hpc
    have hrec : ((s.setIndex (clipLevel i maxfreqlevel)).goto
        (.got k (clipLevel i maxfreqlevel))).Recorded := halong.congr rfl rfl rfl rfl
    cases k with
    | target => exact ⟨Dvfs.clipLevel_le _, hrec, rfl⟩
    | pmTarget => exact ⟨Dvfs.clipLevel_le _, hrec⟩
  | same hpc hprev =>
    have halong := h.here hpc
    refine ⟨h.index, halong.1.goto _, fun hsame _ _ => ?_⟩
    have hagree := halong.1.agree hprev ((hsound _ hpc).1 hsame hprev)
    exact ⟨hagree.armclk, hagree.prevIndex, hagree.mpuRate, hagree.policyCur⟩
  | @down i hpc hlt =>
    obtain ⟨hrec, hindex⟩ := h.here hpc
    have hne : s.prevIndex ≠ i := by omega
    obtain ⟨h6, htrue⟩ := (hsound _ hpc).2 hne
    exact ⟨h.index, hrec.goto _, ⟨hindex ▸ h.index, h6⟩, hindex, hne, htrue⟩
  | @up i hpc hlt =>
    obtain ⟨hrec, hindex⟩ := h.here hpc
    have hne : s.prevIndex ≠ i := by omega
    obtain ⟨h6, htrue⟩ := (hsound _ hpc).2 hne
    exact ⟨h.index, nofun, fun _ =>
      ⟨hrec.goto _, ⟨hindex ▸ h.index, h6⟩, hindex, hne, htrue⟩⟩
  | lower hpc =>
    have htuned := (h.here hpc).1 rfl
    exact ⟨h.index, htuned.level, htuned.apll, htuned.armclk⟩
  | raise hpc =>
    obtain ⟨hrec, haimed⟩ := (h.here hpc).2 rfl
    exact ⟨h.index, hrec.congr rfl rfl rfl rfl, haimed.level, haimed.index, haimed.prev,
      haimed.true_rate⟩
  | setRate hpc => exact good_setRate h hpc
  | apllDiv hpc =>
    have halong := h.here hpc
    exact ⟨h.index, halong.1, halong.2, rfl⟩
  | apllOff hpc =>
    exact ⟨h.index, h.here hpc⟩
  | @apllOn c i hpc =>
    obtain ⟨rfl, hlevel, hdiv⟩ := h.here hpc
    have htuned : Tuned { s.hw with apll := some (clkInfo c.index).apllout } c.index :=
      tuned_of_programmed hlevel rfl hdiv
    exact ⟨h.index, along_rated htuned⟩
  | @divider c i hpc =>
    obtain ⟨rfl, hlevel, hapll⟩ := h.here hpc
    have htuned : Tuned { s.hw with div := (clkInfo c.index).apllRatio } c.index :=
      tuned_of_programmed hlevel hapll rfl
    exact ⟨h.index, along_rated htuned⟩
  | post hpc =>
    have halong := h.here hpc
    exact ⟨h.index, ⟨⟨halong.level.le, .inl halong.apll⟩, .inl ⟨rfl, rfl⟩⟩, fun _ _ _ =>
      ⟨halong.armclk, rfl, rfl, rfl⟩⟩
  | pmVoltage hpc =>
    exact ⟨h.index, (h.here hpc).congr rfl rfl rfl rfl⟩
  | clkError hpc =>
    exact ⟨h.index, (h.here hpc).goto _, fun _ => nofun⟩
  | clkSetRate hpc _ =>
    exact ⟨h.index, (h.here hpc).congr rfl rfl rfl rfl, fun _ => nofun⟩

theorem good_init (behind : Nat → Int) : (init behind).Good same where
  index := show 6 ≤ 9 by decide
  along := ⟨⟨show 1 ≤ 9 by decide, .inr ⟨rfl, rfl⟩⟩, .inr ⟨rfl, rfl⟩⟩

theorem recorded_of_atRest (h : s.Good same) (hrest : s.atRest = true) : s.Recorded := by
  unfold atRest at hrest
  cases hpc : s.pc with
  | idle =>
    exact h.here hpc
  | returned k i ret =>
    exact (h.here hpc).1
  | _ =>
    rw [hpc] at hrest
    cases hrest

/-- Outside the window nothing depends on the shared index. -/
theorem along_of_not_window {pc : Pc} (h : s.Along same pc) (hwindow : window pc = false)
    (d : Dvfs) : Along same { s with dvfs := d } pc := by
  cases pc with
  | idle | enter _ _ | again _ | store _ _ | pmVoltage _ | clkSetRate _ =>
    exact h.congr rfl rfl rfl rfl
  | got k i =>
    cases k with
    | target => cases hwindow
    | pmTarget => exact h.congr rfl rfl rfl rfl
  | returned k i ret =>
    refine ⟨h.1.congr rfl rfl rfl rfl, fun hsame hk hret => ?_⟩
    have hagree := h.2 hsame hk hret
    exact ⟨hagree.armclk, hagree.prevIndex, hagree.mpuRate, hagree.policyCur⟩
  | voltage c =>
    obtain ⟨down, i⟩ := c
    cases down with
    | true => exact ⟨h.1, nofun⟩
    | false => cases hwindow
  | setRate c => cases hwindow
  | apllDiv c i | apllOff c i | apllOn c i | divider c i | post i => exact h

theorem good_perfLevel (h : s.Good same) {level : Nat}
    (hlevel : window s.pc = true → s.dvfs.cpufreqIndex ≤ level) :
    Good same { s with dvfs := s.dvfs.setDvfsPerfLevel level } := by
  by_cases hle : s.dvfs.cpufreqIndex ≤ level
  · have hsame : s.dvfs.setDvfsPerfLevel level = s.dvfs := if_neg (Nat.not_lt.mpr hle)
    rw [hsame]
    exact h
  · have hwindow : window s.pc = false := by
      cases hw : window s.pc with
      | false => rfl
      | true => exact absurd (hlevel hw) hle
    have hindex := h.index
    have hset : s.dvfs.setDvfsPerfLevel level = { s.dvfs with cpufreqIndex := level } :=
      if_pos (Nat.not_le.mp hle)
    rw [hset]
    exact ⟨show level ≤ 9 by omega, along_of_not_window h.along hwindow _⟩

theorem good_step (h : s.Good same) (hok : s.Undisturbed same op) (hs : s.step op = some s') :
    s'.Good same := by
  cases op with
  | target freq | pmTarget freq =>
    obtain ⟨hrest, rfl⟩ := Option.ite_some_none_eq_some.mp hs
    exact ⟨h.index, (recorded_of_atRest h hrest).goto _⟩
  | run =>
    refine good_ran h (ran_of_run hs) fun i hpc => ?_
    have hsound : s.SoundAt same s.pc := hok
    rw [hpc] at hsound
    exact hsound
  | perfLevel level =>
    cases hs
    exact good_perfLevel h hok

/-- In every run whose steps meet the condition, the clock has the rate of its level whenever
`s5pc110_target` has returned 0, and `prevIndex`, `mpu_clk->rate` and the policy agree with
it. -/
theorem target_sets_clock {behind : Nat → Int} (h : Reached step (Undisturbed true) (init behind) s)
    (hret : s.pc = .returned .target i 0) : s.Agree i := by
  have hgood : s.Good true := h.invariant (good_init behind) fun _ _ _ hgood hok hs =>
    good_step hgood hok hs
  exact (hgood.here hret).2 rfl rfl rfl

/-- A change to 400 MHz, where an event asks for 800 MHz before the level has been found and
again after the clock has been set. -/
theorem target_sets_clock_400MHZ :
    ∃ s, Reached step (Undisturbed true) (init fun _ => 0) s ∧ s.pc = .returned .target 7 0 ∧
      s.Agree 7 :=
  Reached.exists_of_checked_and
    ([.target 800000] ++ replicate 9 .run ++ [.target 400000, .perfLevel 5] ++
      replicate 5 .run ++ [.perfLevel 5] ++ replicate 2 .run) (by decide +kernel)
    fun _ hrun hpc => target_sets_clock hrun hpc

/-- The event comes after the level has been found: the clock stays at 800 MHz, and the call
returns 0. And after `s5pc110_pm_target` has gone to 200 MHz, a call for 800 MHz, which is still
the level in `prevIndex`, returns 0 and does nothing. -/
theorem target_leaves_clock :
    (∃ s, Reached step (fun _ _ => True) (init fun _ => 0) s ∧ s.pc = .returned .target 7 0 ∧
      s.hw.armclk = 800 * mhz ∧ ¬s.Agree 7) ∧
    (∃ s, Reached step (fun _ _ => True) (init fun _ => 0) s ∧ s.pc = .returned .target 5 0 ∧
      s.hw.armclk = 200 * mhz ∧ ¬s.Agree 5) := by
  constructor
  · exact Reached.exists_of_checked
      ([.target 800000] ++ replicate 9 .run ++ [.target 400000] ++ replicate 3 .run ++
        [.perfLevel 5] ++ replicate 3 .run) (by decide +kernel)
  · exact Reached.exists_of_checked
      ([.target 800000] ++ replicate 9 .run ++ [.pmTarget 200000] ++ replicate 5 .run ++
        [.target 800000] ++ replicate 3 .run) (by decide +kernel)

end AndroidKernel.CpuFreq.Cpu
