import AndroidKernel.CpuFreq.Clock

/-!
# The voltage is enough for the clock

`s5pc110_target` sets the voltage before the clock when the clock is to go up, and after it
when the clock is to go down, which it tells by `prevIndex`. Right after the start and after
`s5pc110_pm_target` this is not the level of the clock, and then the order may be wrong.
`s5pc110_pm_target` sets the voltage first in any case. What is more, the 600 MHz level leaves
the clock at 800 MHz, and the clock is not set where `clk_fout_apll.rate` makes it look right.

If nothing of this happens, the core has enough voltage after every single write.
-/

namespace AndroidKernel.CpuFreq.Cpu

open List Option

/-- The level that was last passed to `set_voltage` is at least as fast as the clock. -/
def Powered (s : Cpu) : Prop := s.hw.armclk ≤ rate s.hw.volt
  deriving Decidable

/-- The direction that `prevIndex` gives is the one in which the clock goes, and the level is
one that the hardware then has. -/
def Turns (s : Cpu) (i : Nat) : Prop :=
  i ≠ 6 ∧ (s.prevIndex < i → rate i ≤ s.hw.armclk) ∧ (i < s.prevIndex → s.hw.armclk ≤ rate i) ∧
    s.TrueRate i
  deriving Decidable

/-- What a call that has found its level has to meet. -/
def Fits (s : Cpu) : Caller → Nat → Prop
  | .target, i => s.prevIndex = i ∨ s.Turns i
  | .pmTarget, i => s.hw.armclk ≤ rate i ∧ s.hw.apll = some s.foutApll

instance (s : Cpu) : (k : Caller) → (i : Nat) → Decidable (s.Fits k i)
  | .target, i => inferInstanceAs (Decidable (s.prevIndex = i ∨ s.Turns i))
  | .pmTarget, i => inferInstanceAs (Decidable (s.hw.armclk ≤ rate i ∧ _))

/-- Calls of the two functions, one after the other. -/
def Calls (_ : Cpu) : Op → Prop
  | .perfLevel _ => False
  | _ => True

instance (s : Cpu) : DecidablePred s.Calls
  | .perfLevel _ => instDecidableFalse
  | .target _ | .pmTarget _ | .run => instDecidableTrue

/-- The condition is put where a call has found its level. -/
def FitsAt (s : Cpu) : Pc → Prop
  | .got k i => s.Fits k i
  | _ => True

instance (s : Cpu) (pc : Pc) : Decidable (s.FitsAt pc) := by
  unfold FitsAt
  split <;> infer_instance

/-- Calls that meet the condition. -/
def KeepsVoltage (s : Cpu) : Op → Prop
  | .target _ | .pmTarget _ => True
  | .run => s.FitsAt s.pc
  | .perfLevel _ => False

instance (s : Cpu) : DecidablePred s.KeepsVoltage
  | .target _ | .pmTarget _ => instDecidableTrue
  | .run => inferInstanceAs (Decidable (s.FitsAt s.pc))
  | .perfLevel _ => instDecidableFalse

/-! ## Dividers -/

/-- Another rate of the APLL than 800 MHz is not divided. -/
def Divided (h : Hw) : Prop :=
  h.div = 0 ∨ h.apll = some (800 * mhz) ∧ (h.div = 1 ∨ h.div = 3 ∨ h.div = 7)

variable {i : Nat} {h : Hw}

theorem divided_level (hi : i ≤ 9) (hapll : h.apll = some (clkInfo i).apllout)
    (hdiv : h.div = (clkInfo i).apllRatio) : Divided h := by
  have htab : ∀ i < 10, (clkInfo i).apllRatio = 0 ∨ (clkInfo i).apllout = 800 * mhz ∧
      ((clkInfo i).apllRatio = 1 ∨ (clkInfo i).apllRatio = 3 ∨ (clkInfo i).apllRatio = 7) := by
    decide
  rw [Divided, hapll, hdiv]
  rcases htab i (by omega) with h | ⟨hout, h⟩
  · exact .inl h
  · exact .inr ⟨by rw [hout], h⟩

/-- A level that is not faster than the clock divides at least as much. -/
theorem div_le_ratio (hdivided : Divided h) (hi : i ≤ 9) (h6 : i ≠ 6) (hrate : rate i ≤ h.armclk) :
    h.div ≤ (clkInfo i).apllRatio := by
  have htab : ∀ i < 10, i ≠ 6 →
      (rate i ≤ 800 * mhz / (1 + 1) → 1 ≤ (clkInfo i).apllRatio) ∧
      (rate i ≤ 800 * mhz / (3 + 1) → 3 ≤ (clkInfo i).apllRatio) ∧
      (rate i ≤ 800 * mhz / (7 + 1) → 7 ≤ (clkInfo i).apllRatio) := by decide
  obtain ⟨h1, h3, h7⟩ := htab i (by omega) h6
  rcases hdivided with hzero | ⟨hapll, hdiv⟩
  · omega
  · rw [Hw.armclk, hapll, getD_some] at hrate
    rcases hdiv with hdiv | hdiv | hdiv <;> rw [hdiv] at hrate ⊢
    · exact h1 hrate
    · exact h3 hrate
    · exact h7 hrate

/-- A new divider for a level that is faster than the previous one. -/
theorem armclk_setDiv_up {s : Cpu} (h : Steady s.hw s.prevIndex) (hlt : i < s.prevIndex)
    (hne : (clkInfo s.prevIndex).apllout ≠ (clkInfo i).apllout) :
    (s.setDiv (clkInfo i).apllRatio).hw.armclk ≤ rate i := by
  have htab : ∀ p < 10, ∀ i < 10, i < p → (clkInfo p).apllout ≠ (clkInfo i).apllout →
      (clkInfo p).apllout / ((clkInfo i).apllRatio + 1) ≤ rate i := by decide
  have hprev := h.level
  have harm : (s.setDiv (clkInfo i).apllRatio).hw.armclk =
      s.hw.apll.getD 0 / ((clkInfo i).apllRatio + 1) := rfl
  rw [harm]
  rcases h.apll with hapll | ⟨hone, hapll⟩
  · rw [hapll]
    exact htab s.prevIndex (by omega) i (by omega) hlt hne
  · have hi : i = 0 := by omega
    rw [hapll, hi]
    decide

/-- `clk_set_rate`, where the rate of the APLL is known and the clock is not faster than the
level. -/
theorem setrate_le {a : Nat} (hdivided : Divided h) (hapll : h.apll = some a) (ha : 0 < a)
    (hi : i ≤ 9) (hle : h.armclk ≤ rate i) : Divided { h with div := setrateDiv a (rate i) - 1 } ∧
      Hw.armclk { h with div := setrateDiv a (rate i) - 1 } ≤ rate i := by
  have htab : ∀ i < 10,
      (setrateDiv (800 * mhz) (rate i) - 1 = 0 ∨ setrateDiv (800 * mhz) (rate i) - 1 = 1 ∨
        setrateDiv (800 * mhz) (rate i) - 1 = 3 ∨ setrateDiv (800 * mhz) (rate i) - 1 = 7) ∧
      800 * mhz / (setrateDiv (800 * mhz) (rate i) - 1 + 1) ≤ rate i := by decide
  have hlow : a = 800 * mhz → Divided { h with div := setrateDiv a (rate i) - 1 } ∧
      Hw.armclk { h with div := setrateDiv a (rate i) - 1 } ≤ rate i := by
    rintro rfl
    obtain ⟨hdiv, hle⟩ := htab i (by omega)
    refine ⟨hdiv.imp_right fun hdiv => ⟨hapll, hdiv⟩, ?_⟩
    rw [Hw.armclk, hapll]
    exact hle
  rcases hdivided with hzero | ⟨hapll', -⟩
  · rw [Hw.armclk, hapll, hzero, getD_some, zero_add, Nat.div_one] at hle
    have hdiv : setrateDiv a (rate i) = 1 := by
      rw [setrateDiv, roundrateClksrc, if_pos hle, Nat.div_self ha]
    rw [hdiv]
    refine ⟨.inl rfl, ?_⟩
    rw [Hw.armclk, hapll, getD_some]
    exact (Nat.div_le_self a 1).trans hle
  · exact hlow (some.inj (hapll.symm.trans hapll'))

/-! ## The invariant -/

/-- The clock runs at the rate of level `i`, with its rate of the APLL. -/
structure At (h : Hw) (i : Nat) : Prop where
  level : i ≤ 9
  apll : h.apll = some (clkInfo i).apllout
  armclk : h.armclk = rate i
  divided : Divided h

/-- The level of a change is one that the hardware can have, and at most as fast as the
voltage allows. -/
structure Bound (volt : Nat) (c : Change) : Prop where
  level : c.index ≤ 9
  ne : c.index ≠ 6
  rate_le : rate c.index ≤ rate volt
  raised : c.down = false → volt = c.index

/-- The change goes in the direction of the clock. -/
structure Turning (s : Cpu) (c : Change) : Prop where
  index : s.dvfs.cpufreqIndex = c.index
  level : c.index ≤ 9
  ne : c.index ≠ 6
  prev : s.prevIndex ≠ c.index
  true_rate : s.TrueRate c.index
  down : c.down = true → rate c.index ≤ s.hw.armclk
  up : c.down = false → c.index < s.prevIndex ∧ s.hw.armclk ≤ rate c.index

theorem Turning.bound {s : Cpu} {c : Change} (h : s.Turning c) (hpower : s.Powered)
    (hvolt : c.down = false → s.hw.volt = c.index) : Bound s.hw.volt c where
  level := h.level
  ne := h.ne
  rate_le := by
    cases hdown : c.down with
    | true => exact (h.down hdown).trans hpower
    | false => rw [hvolt hdown]
  raised := hvolt

/-- Between calls, and in a call up to its first write. -/
structure Settled (h : Hw) (prev : Nat) : Prop where
  steady : Steady h prev
  divided : Divided h

/-- What holds at each place of a call. -/
def During (s : Cpu) : Pc → Prop
  | .idle | .returned _ _ _ | .enter _ _ | .again _ | .store _ _ => Settled s.hw s.prevIndex
  | .got _ i => Settled s.hw s.prevIndex ∧ s.dvfs.cpufreqIndex = i
  | .voltage c =>
    (c.down = true → At s.hw c.index) ∧ (c.down = false → Settled s.hw s.prevIndex ∧ s.Turning c)
  | .setRate c => Settled s.hw s.prevIndex ∧ s.Turning c ∧ Bound s.hw.volt c
  | .apllDiv c i =>
    i = c.index ∧ Settled s.hw s.prevIndex ∧ s.Turning c ∧ Bound s.hw.volt c ∧
      (clkInfo s.prevIndex).apllout ≠ (clkInfo i).apllout
  | .apllOff c i | .apllOn c i =>
    i = c.index ∧ Bound s.hw.volt c ∧ s.hw.div = (clkInfo i).apllRatio
  | .divider c i =>
    i = c.index ∧ Settled s.hw s.prevIndex ∧ s.Turning c ∧ Bound s.hw.volt c ∧
      (clkInfo s.prevIndex).apllout = (clkInfo i).apllout
  | .post i => At s.hw i
  | .pmVoltage i =>
    Settled s.hw s.prevIndex ∧ i ≤ 9 ∧ s.hw.armclk ≤ rate i ∧ s.hw.apll = some s.foutApll
  | .clkSetRate i =>
    Settled s.hw s.prevIndex ∧ i ≤ 9 ∧ s.hw.armclk ≤ rate i ∧ s.hw.apll = some s.foutApll ∧
      s.hw.volt = i

structure Ok (s : Cpu) : Prop where
  powered : s.Powered
  index : s.dvfs.cpufreqIndex ≤ 9
  during : s.During s.pc

variable {s s' : Cpu} {op : Op} {c : Change} {i : Nat}

theorem Ok.here {pc : Pc} (h : s.Ok) (hpc : s.pc = pc) : s.During pc := hpc ▸ h.during

/-- What follows the setting of the clock. -/
theorem during_rated (hat : At s.hw c.index) : s.During (rated c) := by
  unfold rated
  split
  next hdown => exact ⟨fun _ => hat, fun hup => absurd (hdown.symm.trans hup) nofun⟩
  next => exact hat

theorem apllout_pos {i : Nat} (h : i ≤ 9) : 0 < (clkInfo i).apllout := by
  revert i
  decide

theorem Steady.apll_pos (h : Steady s.hw s.prevIndex) (hapll : s.hw.apll = some s.foutApll) :
    0 < s.foutApll := by
  rcases h.apll with h' | ⟨-, h'⟩
  · rw [some.inj (hapll.symm.trans h')]
    exact apllout_pos h.level
  · rw [some.inj (hapll.symm.trans h')]
    decide

theorem at_of_programmed {h : Hw} (hi : i ≤ 9) (h6 : i ≠ 6)
    (hapll : h.apll = some (clkInfo i).apllout) (hdiv : h.div = (clkInfo i).apllRatio) :
    At h i where
  level := hi
  apll := hapll
  armclk := by
    rw [Hw.armclk, hapll, hdiv]
    exact programmed_rate hi h6
  divided := divided_level hi hapll hdiv

theorem Turning.goto (h : s.Turning c) (pc : Pc) : (s.goto pc).Turning c :=
  ⟨h.index, h.level, h.ne, h.prev, h.true_rate, h.down, h.up⟩

theorem ok_setRate (h : s.Ok) (hpc : s.pc = .setRate c) : (s.goto (s.armclkSetRate c)).Ok := by
  obtain ⟨hsettled, hturn, hbound⟩ := h.here hpc
  refine ⟨h.powered, h.index, ?_⟩
  rw [armclkSetRate_eq hturn.level hturn.index]
  split
  next hne => exact ⟨rfl, hsettled, hturn.goto _, hbound, hne⟩
  next heq =>
    have heq := not_not.mp heq
    split
    next hcur =>
      -- the clock is left as it is, and has the rate already
      have hat : At s.hw c.index := ⟨hturn.level,
        hsettled.steady.apll_of_eq hturn.level hturn.prev heq, hturn.true_rate heq hcur,
        hsettled.divided⟩
      exact @during_rated (s.goto (rated c)) c hat
    next => exact ⟨rfl, hsettled, hturn.goto _, hbound, heq⟩

theorem ok_ran (h : s.Ok) (hran : Ran s s') (hfits : ∀ k i, s.pc = .got k i → s.Fits k i) :
    s'.Ok := by
  cases hran with
  | enterStore i hpc | enterAgain hpc _ =>
    exact ⟨h.powered, h.index, h.here hpc⟩
  | again hpc =>
    exact ⟨h.powered, h.index, h.here hpc, rfl⟩
  | store hpc =>
    exact ⟨h.powered, Dvfs.clipLevel_le _, h.here hpc, rfl⟩
  | same hpc _ | clkError hpc =>
    exact ⟨h.powered, h.index, (h.here hpc).1⟩
  | @down i hpc hlt =>
    obtain ⟨hsettled, hindex⟩ := h.here hpc
    have hne : s.prevIndex ≠ i := by omega
    obtain ⟨h6, hdown, -, htrue⟩ := (hfits _ _ hpc).resolve_left hne
    have hturn : s.Turning ⟨true, i⟩ :=
      ⟨hindex, hindex ▸ h.index, h6, hne, htrue, fun _ => hdown hlt, nofun⟩
    exact ⟨h.powered, h.index, hsettled, hturn.goto _, hturn.bound h.powered nofun⟩
  | @up i hpc hlt =>
    obtain ⟨hsettled, hindex⟩ := h.here hpc
    have hne : s.prevIndex ≠ i := by omega
    obtain ⟨h6, -, hup, htrue⟩ := (hfits _ _ hpc).resolve_left hne
    have hturn : s.Turning ⟨false, i⟩ :=
      ⟨hindex, hindex ▸ h.index, h6, hne, htrue, nofun, fun _ => ⟨hlt, hup hlt⟩⟩
    exact ⟨h.powered, h.index, nofun, fun _ => ⟨hsettled, hturn.goto _⟩⟩
  | @pm i hpc =>
    obtain ⟨hsettled, hindex⟩ := h.here hpc
    obtain ⟨hle, hfout⟩ := hfits _ _ hpc
    exact ⟨h.powered, h.index, hsettled, hindex ▸ h.index, hle, hfout⟩
  | @lower i hpc =>
    have hat := (h.here hpc).1 rfl
    exact ⟨hat.armclk.le, h.index, hat.level, hat.apll, hat.armclk, hat.divided⟩
  | @raise i hpc =>
    obtain ⟨hsettled, hturn⟩ := (h.here hpc).2 rfl
    have hturn' : ((s.setVoltage i).goto (.setRate ⟨false, i⟩)).Turning ⟨false, i⟩ :=
      ⟨hturn.index, hturn.level, hturn.ne, hturn.prev, hturn.true_rate, nofun, hturn.up⟩
    have hpower : ((s.setVoltage i).goto (.setRate ⟨false, i⟩)).Powered := (hturn.up rfl).2
    exact ⟨hpower, h.index, ⟨⟨hsettled.steady.level, hsettled.steady.apll⟩, hsettled.divided⟩,
      hturn', hturn'.bound hpower fun _ => rfl⟩
  | setRate hpc => exact ok_setRate h hpc
  | @apllDiv c i hpc =>
    obtain ⟨rfl, hsettled, hturn, hbound, hne⟩ := h.here hpc
    refine ⟨?_, h.index, rfl, hbound, rfl⟩
    show (s.setDiv (clkInfo c.index).apllRatio).hw.armclk ≤ rate s.hw.volt
    cases hdown : c.down with
    | true =>
      have hratio := div_le_ratio hsettled.divided hturn.level hturn.ne (hturn.down hdown)
      exact (Nat.div_le_div_left (Nat.succ_le_succ hratio) (Nat.succ_pos _)).trans h.powered
    | false =>
      rw [hbound.raised hdown]
      exact armclk_setDiv_up hsettled.steady (hturn.up hdown).1 hne
  | apllOff hpc =>
    obtain ⟨hi, hbound, hdiv⟩ := h.here hpc
    exact ⟨(Nat.zero_div _).trans_le (Nat.zero_le _), h.index, hi, hbound, hdiv⟩
  | @apllOn c i hpc =>
    obtain ⟨rfl, hbound, hdiv⟩ := h.here hpc
    have hat : At { s.hw with apll := some (clkInfo c.index).apllout } c.index :=
      at_of_programmed hbound.level hbound.ne rfl hdiv
    exact ⟨hat.armclk.le.trans hbound.rate_le, h.index, during_rated hat⟩
  | @divider c i hpc =>
    obtain ⟨rfl, hsettled, hturn, hbound, heq⟩ := h.here hpc
    have hat : At { s.hw with div := (clkInfo c.index).apllRatio } c.index :=
      at_of_programmed hbound.level hbound.ne
        (hsettled.steady.apll_of_eq hturn.level hturn.prev heq) rfl
    exact ⟨hat.armclk.le.trans hbound.rate_le, h.index, during_rated hat⟩
  | post hpc =>
    have hduring := h.here hpc
    exact ⟨h.powered, h.index, ⟨hduring.level, .inl hduring.apll⟩, hduring.divided⟩
  | pmVoltage hpc =>
    obtain ⟨hsettled, hi, hle, hfout⟩ := h.here hpc
    exact ⟨hle, h.index, ⟨⟨hsettled.steady.level, hsettled.steady.apll⟩, hsettled.divided⟩, hi, hle,
      hfout, rfl⟩
  | clkSetRate hpc _ =>
    obtain ⟨hsettled, hi, hle, hfout, rfl⟩ := h.here hpc
    obtain ⟨hdivided, harm⟩ := setrate_le hsettled.divided hfout
      (hsettled.steady.apll_pos hfout) hi hle
    exact ⟨harm, h.index, ⟨hsettled.steady.level, hsettled.steady.apll⟩, hdivided⟩

theorem ok_init (behind : Nat → Int) : (init behind).Ok where
  powered := by
    show Hw.armclk ⟨some (800 * mhz), 0, 5⟩ ≤ rate 5
    decide
  index := show 6 ≤ 9 by decide
  during := ⟨⟨show 1 ≤ 9 by decide, .inr ⟨rfl, rfl⟩⟩, .inl rfl⟩

theorem settled_of_atRest (h : s.Ok) (hrest : s.atRest = true) : Settled s.hw s.prevIndex := by
  unfold atRest at hrest
  cases hpc : s.pc with
  | idle | returned _ _ _ =>
    exact h.here hpc
  | _ =>
    rw [hpc] at hrest
    cases hrest

theorem ok_step (h : s.Ok) (hkeeps : s.KeepsVoltage op) (hs : s.step op = some s') : s'.Ok := by
  cases op with
  | target freq | pmTarget freq =>
    obtain ⟨hrest, rfl⟩ := ite_some_none_eq_some.mp hs
    have hsettled := settled_of_atRest h hrest
    exact ⟨h.powered, h.index, hsettled⟩
  | run =>
    refine ok_ran h (ran_of_run hs) fun k i hpc => ?_
    have hfits : s.FitsAt s.pc := hkeeps
    rw [hpc] at hfits
    exact hfits
  | perfLevel level => exact hkeeps.elim

/-- In every run of calls that meet the condition, the level last passed to `set_voltage` is at
least as fast as the clock, after every write. -/
theorem never_undervolted {behind : Nat → Int}
    (h : Reached step KeepsVoltage (init behind) s) : s.Powered := by
  have hok : s.Ok := h.invariant (ok_init behind) fun _ _ _ hok hkeeps hs => ok_step hok hkeeps hs
  exact hok.powered

/-- A first change to 800 MHz, then one to 1000 MHz and one to 400 MHz. -/
theorem never_undervolted_1000MHZ :
    ∃ s, Reached step KeepsVoltage (init fun _ => 0) s ∧
      (s.pc = .returned .target 7 0 ∧ s.hw.armclk = 400 * mhz) ∧ s.Powered :=
  Reached.exists_of_checked_and
    ([.target 800000] ++ replicate 9 .run ++ [.target 1000000] ++ replicate 9 .run ++
      [.target 400000] ++ replicate 9 .run) (by decide +kernel)
    fun _ hrun _ => never_undervolted hrun

/-- A first change to 1000 MHz raises the clock before the voltage. `s5pc110_pm_target`
lowers the voltage before the clock. The level of 600 MHz leaves the clock at 800 MHz. And
after a change from 1000 to 400 MHz, one to 200 MHz leaves the clock at 400 MHz. -/
theorem undervolted_1000MHZ : (∃ s, Reached step Calls (init fun _ => 0) s ∧
      s.hw.armclk = 1000 * mhz ∧ s.hw.volt = 5 ∧ ¬s.Powered) ∧
    (∃ s, Reached step Calls (init fun _ => 0) s ∧
      s.hw.armclk = 800 * mhz ∧ s.hw.volt = 8 ∧ ¬s.Powered) ∧
    (∃ s, Reached step Calls (init fun _ => 0) s ∧ s.pc = .returned .target 6 0 ∧
      s.hw.armclk = 800 * mhz ∧ s.hw.volt = 6 ∧ ¬s.Powered) ∧
    (∃ s, Reached step Calls (init fun _ => 0) s ∧ s.pc = .returned .target 8 0 ∧
      s.hw.armclk = 400 * mhz ∧ s.hw.volt = 8 ∧ ¬s.Powered) := by
  refine ⟨?_, ?_, ?_, ?_⟩
  · exact Reached.exists_of_checked ([.target 1000000] ++ replicate 7 .run) (by decide +kernel)
  · exact Reached.exists_of_checked ([.pmTarget 200000] ++ replicate 4 .run) (by decide +kernel)
  · exact Reached.exists_of_checked ([.target 600000] ++ replicate 9 .run) (by decide +kernel)
  · exact Reached.exists_of_checked
      ([.target 800000] ++ replicate 9 .run ++ [.target 1000000] ++ replicate 9 .run ++
        [.target 400000] ++ replicate 9 .run ++ [.target 200000] ++ replicate 6 .run)
      (by decide +kernel)

end AndroidKernel.CpuFreq.Cpu
