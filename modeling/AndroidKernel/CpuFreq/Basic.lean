import AndroidKernel.Lib.Scan
import AndroidKernel.Lib.Words

/-!
# Frequency levels of the S5PC110

The ARM clock runs at one of ten levels, level 0 the fastest. `active_states` says which
of them are enabled. The governor asks `s5pc11x_target_frq` for the level one step up or
down, `s5pc11x_target_freq_index` finds the level for a frequency, and drivers keep the
clock from going too low by locks with one of nine tokens.

The globals of `cpu-freq.c` are a record here. `s5pc110_cpu_init` has selected the table of
1 GHz processors.
-/

namespace AndroidKernel.CpuFreq

open Function

/-- An entry of a `struct cpufreq_frequency_table`. -/
structure FreqEntry where
  index : Nat
  frequency : Nat

/-- `CPUFREQ_TABLE_END`, which is `~1`. -/
def cpufreqTableEnd : Nat := 2 ^ 32 - 2

/-- `s5pc110_freq_table_1GHZ`, in kHz. -/
def s5pc110FreqTable1GHZ : List FreqEntry :=
  [⟨0, 1400 * 1000⟩, ⟨1, 1300 * 1000⟩, ⟨2, 1200 * 1000⟩, ⟨3, 1120 * 1000⟩, ⟨4, 1000 * 1000⟩,
    ⟨5, 800 * 1000⟩, ⟨6, 600 * 1000⟩, ⟨7, 400 * 1000⟩, ⟨8, 200 * 1000⟩, ⟨9, 100 * 1000⟩,
    ⟨0, cpufreqTableEnd⟩]

/-- `freq_tab[index].frequency`. The scans below do not go past the end marker. -/
def frequency (index : Nat) : Nat :=
  (s5pc110FreqTable1GHZ.getD index ⟨0, cpufreqTableEnd⟩).frequency

/-- The number of entries of the table, the end marker included. -/
def freqTabSize : Nat := 11

/-- `S5PC11X_MAXFREQLEVEL`, also the value of `s5pc11x_cpufreq_level`. -/
def maxfreqlevel : Nat := 9

/-- `MAXFREQ_LEVEL_SUPPORTED`. -/
def maxfreqLevelSupported : Nat := 10

/-- `CLIP_LEVEL`. -/
def clipLevel (a b : Nat) : Nat := if a > b then b else a

/-- `enum freq_level_states`. -/
inductive FreqLevel
  | lev1400MHZ
  | lev1300MHZ
  | lev1200MHZ
  | lev1120MHZ
  | lev1000MHZ
  | lev800MHZ
  | lev600MHZ
  | lev400MHZ
  | lev200MHZ
  | lev100MHZ
  deriving DecidableEq

def FreqLevel.freq : FreqLevel → Nat
  | lev1400MHZ => 1400 * 1000
  | lev1300MHZ => 1300 * 1000
  | lev1200MHZ => 1200 * 1000
  | lev1120MHZ => 1120 * 1000
  | lev1000MHZ => 1000 * 1000
  | lev800MHZ => 800 * 1000
  | lev600MHZ => 600 * 1000
  | lev400MHZ => 400 * 1000
  | lev200MHZ => 200 * 1000
  | lev100MHZ => 100 * 1000

/-- `get_dvfs_perf_level`; `none` is `-EINVAL`, for a table without that frequency. -/
def getDvfsPerfLevel (freqLevel : FreqLevel) : Option Nat := do
  let entry ← s5pc110FreqTable1GHZ.find? fun e =>
    e.frequency == cpufreqTableEnd || e.frequency == freqLevel.freq
  if entry.frequency = cpufreqTableEnd then none else some entry.index

/-- `NUMBER_OF_LOCKTOKEN` tokens. -/
abbrev LockToken := Fin 9

instance lockToken_neZero : NeZero 9 := ⟨by decide⟩

/-- `DVFS_LOCK_TOKEN_6`, the token of the launcher. -/
def dvfsLockToken6 : LockToken := 5

/-- `transition_state`: where a step down and a step up lead from each level. -/
structure TransitionState where
  down : Nat → Nat
  up : Nat → Nat

structure Dvfs where
  /-- The words from `active_states` on. The first ten are the table. -/
  activeStates : Nat → Int
  expUpdateStates : Int
  transitionState : TransitionState
  cpufreqIndex : Nat
  highLockToken : BitVec 32
  highLockLimit : Nat
  dvfslockval : LockToken → Nat
  fixLockLimit : Bool

/-! ## The transition table -/

/-- The first loop of `update_transition_states`, for the levels below `n`, and the
entries of `active_states` that it reads. -/
def downStates (active : Nat → Int) : (n : Nat) → (Nat → Nat) → (Nat → Nat) × List Nat
  | 0, down => (down, [])
  | i + 1, down =>
    let done := downStates active i down
    let r := Scan.up (fun j => active j != 0) (maxfreqlevel - i) (i + 1)
    (update done.1 i (r.found.getD i), done.2 ++ r.looked)

/-- The second loop, from level `i` down to level 1, and the store for level 0 after it.
A level with no active one above gets what the level before it has got. -/
def upStates (active : Nat → Int) : (i prevJ : Nat) → (Nat → Nat) → (Nat → Nat) × List Nat
  | 0, prevJ, up => (update up 0 prevJ, [])
  | i + 1, prevJ, up =>
    let r := Scan.down (fun j => active j != 0) (i + 1)
    let j := r.found.getD prevJ
    let rest := upStates active i j (update up (i + 1) j)
    (rest.1, r.looked ++ rest.2)

/-- `update_transition_states`, and the entries of `active_states` that it reads. -/
def updateTransitionStates (active : Nat → Int) (t : TransitionState) :
    TransitionState × List Nat :=
  let down := downStates active maxfreqlevel t.down
  let up := upStates active maxfreqlevel 0 t.up
  (⟨update down.1 maxfreqlevel maxfreqlevel, up.1⟩, down.2 ++ up.2)

namespace Dvfs

variable (s : Dvfs) (nToken : LockToken) (freqLevel : FreqLevel)

/-- The table is rebuilt when that has been asked for. -/
def refresh : Dvfs × List Nat :=
  if s.expUpdateStates ≠ 0 then
    let t := updateTransitionStates s.activeStates s.transitionState
    ({ s with transitionState := t.1, expUpdateStates := 0 }, t.2)
  else
    (s, [])

/-! ## The governor's steps -/

/-- `s5pc11x_target_freq_find_index`: the nearest active level at or above `indexFind`, or
at or below it. The way down ends at the end marker of the frequency table, and nothing is
found from a place behind that. -/
def s5pc11xTargetFreqFindIndex (indexFind : Nat) (flag : Int) : Scan :=
  if flag = 1 then
    Scan.down (fun i => s.activeStates i == 1 || i == 0) (indexFind + 1)
  else
    Scan.up (fun i => s.activeStates i == 1 || frequency i == cpufreqTableEnd)
      (freqTabSize - indexFind) indexFind

/-- What `s5pc11x_target_frq` returns, and what it has read of `active_states`. -/
structure Reply where
  freq : Nat
  reads : List Nat
  state : Dvfs

/-- From the label `s5pc11x_target_frq_end` on. -/
def targetFrqEnd (index : Nat) (flag : Int) (reads : List Nat) : Option Reply := do
  let r := s.s5pc11xTargetFreqFindIndex index flag
  let index ← r.found
  let index := clipLevel index maxfreqlevel
  some ⟨frequency index, reads ++ r.looked, { s with cpufreqIndex := index }⟩

/-- The level that the transition table gives, where the governor knows the current one. -/
def predIndex (predFreq : Nat) (flag : Int) : Nat :=
  if frequency s.cpufreqIndex = predFreq then
    if flag = 1 then s.transitionState.up s.cpufreqIndex
    else s.transitionState.down s.cpufreqIndex
  else
    s.cpufreqIndex

/-- What the locks make of a level. -/
def lockIndex (index : Nat) : Nat :=
  if s.highLockToken ≠ 0#32 then
    if s.fixLockLimit then s.highLockLimit
    else if index > s.highLockLimit then s.highLockLimit
    else index
  else
    index

/-- `s5pc11x_target_frq`. -/
def s5pc11xTargetFrq (predFreq : Nat) (flag : Int) : Option Reply :=
  if frequency 0 < predFreq then
    s.targetFrqEnd 0 flag []
  else
    let t := s.refresh
    t.1.targetFrqEnd (t.1.lockIndex (t.1.predIndex predFreq flag)) flag t.2

/-- From the label `s5pc11x_target_freq_index_end` on. -/
def targetFreqIndexEnd (index : Nat) : Nat × Dvfs :=
  (clipLevel index maxfreqlevel, { s with cpufreqIndex := clipLevel index maxfreqlevel })

/-- One level back, unless the level has just this frequency. -/
def backIndex (freq index : Nat) : Nat :=
  let index := if index > 0 ∧ freq ≠ frequency index then index - 1 else index
  if frequency index = cpufreqTableEnd then index - 1 else index

/-- `s5pc11x_target_freq_index`. Both loops end at the end marker at the latest. -/
def s5pc11xTargetFreqIndex (freq : Nat) : Option (Nat × Dvfs) :=
  if freq ≥ frequency 0 then
    some (s.targetFreqIndexEnd 0)
  else if frequency s.cpufreqIndex = freq then
    -- the index might have been calculated before
    some (s.cpufreqIndex, s)
  else do
    let index ← (Scan.up (fun i => !(freq < frequency i && frequency i != cpufreqTableEnd))
      freqTabSize 0).found
    let index ← (Scan.up (fun i => !(s.activeStates i == 0 && frequency i != cpufreqTableEnd))
      (freqTabSize - index) index).found
    some (s.targetFreqIndexEnd (backIndex freq index))

/-! ## Locks -/

/-- `set_dvfs_perf_level`. -/
def setDvfsPerfLevel (perfLevel : Nat) : Dvfs :=
  if s.cpufreqIndex > perfLevel then { s with cpufreqIndex := perfLevel } else s

/-- `set_dvfs_target_level`. -/
def setDvfsTargetLevel : Dvfs :=
  (getDvfsPerfLevel freqLevel).elim s s.setDvfsPerfLevel

/-- The level that a lock asks for. The launcher's is one level faster, as an unsigned
number. -/
def lockLevel (perfLevel : Nat) : Nat :=
  if nToken = dvfsLockToken6 then ulong ((perfLevel : Int) - 1) else perfLevel

/-- `s5pc110_lock_dvfs_high_level`, for the level found. -/
def lockAt (nLevel : Nat) : Dvfs :=
  { s with
    highLockToken := s.highLockToken ||| (1#32 <<< nToken.val)
    dvfslockval := update s.dvfslockval nToken nLevel
    highLockLimit := if nLevel < s.highLockLimit then nLevel else s.highLockLimit }
  |>.setDvfsPerfLevel nLevel

/-- `s5pc110_lock_dvfs_high_level`. -/
def s5pc110LockDvfsHighLevel : Dvfs :=
  (getDvfsPerfLevel freqLevel).elim s fun perfLevel => s.lockAt nToken (lockLevel nToken perfLevel)

/-- The loop that looks for the fastest level that is still locked. -/
def lowestLockval (lockval : LockToken → Nat) (limit : Nat) : Nat :=
  (List.finRange 9).foldl (fun limit i => if lockval i < limit then lockval i else limit) limit

/-- `s5pc110_unlock_dvfs_high_level`. -/
def s5pc110UnlockDvfsHighLevel : Dvfs :=
  let token := s.highLockToken &&& ~~~(1#32 <<< nToken.val)
  let lockval := update s.dvfslockval nToken (maxfreqLevelSupported - 1)
  { s with
    highLockToken := token
    dvfslockval := lockval
    highLockLimit :=
      if token ≠ 0#32 then lowestLockval lockval (maxfreqLevelSupported - 1)
      else maxfreqLevelSupported - 1 }

/-! ## The interface to user space -/

def einval : Int := -22

/-- `store_states_enabled_table`, for the numbers that `sscanf` has found. It stores them
and then takes any other count than one for an error. -/
def storeStatesEnabledTable (values : List Int) (count : Nat) : Int × Dvfs :=
  let values := values.take 10
  let ret := if values.length ≠ 1 then einval else count
  (ret, { s with activeStates := fun i => values.getD i (s.activeStates i) })

/-- `store_update_states`. -/
def storeUpdateStates (value : Option Int) (count : Nat) : Int × Dvfs :=
  match value with
  | none => (einval, s)
  | some value => (count, { s with expUpdateStates := value })

end Dvfs

/-! ## The start -/

/-- The default of `active_states`, with the words behind it. -/
def defaultStates (behind : Nat → Int) : Nat → Int :=
  fun i => [0, 0, 0, 0, 1, 1, 1, 1, 1, 1].getD i (behind i)

/-- `transition_state_1GHZ`. -/
def transitionState1GHZ : TransitionState where
  down i := [1, 2, 3, 4, 5, 6, 7, 8, 9, 10].getD i 0
  up i := [5, 5, 5, 5, 5, 5, 5, 6, 7, 8].getD i 0

/-- After `s5pc110_cpu_init`. -/
def Dvfs.init (behind : Nat → Int) : Dvfs where
  activeStates := defaultStates behind
  expUpdateStates := 1
  transitionState := (updateTransitionStates (defaultStates behind) transitionState1GHZ).1
  cpufreqIndex := 6
  highLockToken := 0#32
  highLockLimit := 12
  dvfslockval _ := maxfreqLevelSupported - 1
  fixLockLimit := false

end AndroidKernel.CpuFreq
