import AndroidKernel.CpuFreq.HighLock

/-!
# Runs with locks

Locks and unlocks, changes of the table of active levels and steps of the governor in any
order. In every state reached the limit is at most the level of each lock, and a call of
`s5pc11x_target_frq` keeps to the locks exactly if a step down meets an active level before
it has passed the limit.
-/

namespace AndroidKernel.CpuFreq

open Option

/-! ## A call of the governor -/

namespace Dvfs

variable {s t : Dvfs} {predFreq : Nat} {flag : Int} {r : Reply}

/-- The level from which the governor searches. -/
def startIndex (s : Dvfs) (predFreq : Nat) (flag : Int) : Nat :=
  if frequency 0 < predFreq then 0
  else s.refresh.1.lockIndex (s.refresh.1.predIndex predFreq flag)

/-- Nothing but the level and the transition table has changed. -/
structure Same (s t : Dvfs) : Prop where
  activeStates : t.activeStates = s.activeStates
  highLockToken : t.highLockToken = s.highLockToken
  highLockLimit : t.highLockLimit = s.highLockLimit
  dvfslockval : t.dvfslockval = s.dvfslockval

theorem same_refresh (s : Dvfs) : s.Same s.refresh.1 := by
  unfold refresh
  split <;> exact ⟨rfl, rfl, rfl, rfl⟩

theorem s5pc11xTargetFrq_eq (s : Dvfs) (predFreq : Nat) (flag : Int) : ∃ t reads,
      s.s5pc11xTargetFrq predFreq flag = t.targetFrqEnd (s.startIndex predFreq flag) flag reads ∧
      s.Same t ∧ (Levels s → Levels t) := by
  unfold s5pc11xTargetFrq startIndex
  split
  next => exact ⟨s, [], rfl, ⟨rfl, rfl, rfl, rfl⟩, id⟩
  next => exact ⟨s.refresh.1, s.refresh.2, rfl, s.same_refresh, Levels.refresh⟩

theorem lockIndex_free (htoken : s.highLockToken = 0#32) (index : Nat) :
    s.lockIndex index = index := if_neg (not_not.mpr htoken)

/-- With a lock the search begins at the limit or above. -/
theorem startIndex_le (htoken : s.highLockToken ≠ 0#32) :
    s.startIndex predFreq flag ≤ s.highLockLimit := by
  unfold startIndex
  split
  · exact Nat.zero_le _
  · have hsame := s.same_refresh
    rw [← hsame.highLockLimit, lockIndex, if_pos (hsame.highLockToken ▸ htoken)]
    split
    · exact le_rfl
    · split <;> omega

theorem startIndex_le_nine (h : Levels s) (htoken : s.highLockToken = 0#32) :
    s.startIndex predFreq flag ≤ 9 := by
  unfold startIndex
  split
  · exact Nat.zero_le _
  · rw [lockIndex_free (s.same_refresh.highLockToken.trans htoken)]
    have h := h.refresh
    unfold predIndex
    split
    · split
      · exact h.up _ h.index
      · exact h.down _ h.index
    · exact h.index

/-- The level that the governor chooses. -/
inductive Chosen (s : Dvfs) (predFreq : Nat) (flag : Int) : Nat → Prop
  | faster {i : Nat} : flag = 1 → s.FoundFaster (s.startIndex predFreq flag) i →
      Chosen s predFreq flag i
  | slower {j : Nat} : flag ≠ 1 → s.FoundSlower (s.startIndex predFreq flag) j →
      Chosen s predFreq flag (clipLevel j maxfreqlevel)

/-- A search that begins at a level of the table finds one. -/
theorem exists_chosen (hstart : s.startIndex predFreq flag ≤ 9) :
    ∃ r i, s.s5pc11xTargetFrq predFreq flag = some r ∧ r.freq = frequency i ∧
      s.Chosen predFreq flag i := by
  obtain ⟨t, reads, heq, hsame, -⟩ := s.s5pc11xTargetFrq_eq predFreq flag
  rw [heq]
  by_cases hflag : flag = 1
  · subst hflag
    obtain ⟨j, hfound, hj⟩ := t.findIndex_faster (s.startIndex predFreq 1)
    have hclip : clipLevel j maxfreqlevel = j := clipLevel_of_le (hj.le.trans hstart)
    refine ⟨_, j, targetFrqEnd_eq reads hfound, by rw [hclip], .faster rfl ?_⟩
    exact ⟨hj.le, hsame.activeStates ▸ hj.active, hsame.activeStates ▸ hj.between⟩
  · have hend : s.startIndex predFreq flag ≤ 10 := by omega
    obtain ⟨j, hfound, hj⟩ := t.findIndex_slower hend hflag
    refine ⟨_, _, targetFrqEnd_eq reads hfound, rfl, .slower hflag ?_⟩
    exact ⟨hj.le, hj.le_end, hsame.activeStates ▸ hj.active, hsame.activeStates ▸ hj.between⟩

theorem Chosen.le_nine {i : Nat} (h : s.Chosen predFreq flag i)
    (hstart : s.startIndex predFreq flag ≤ 9) : i ≤ 9 := by
  cases h with
  | faster _ hi => exact hi.le.trans hstart
  | slower _ _ => exact clipLevel_le _

theorem clipLevel_le_self (j : Nat) : clipLevel j maxfreqlevel ≤ j := by
  unfold clipLevel
  split <;> omega

/-- From a level at the limit or above, the search stays there if it goes up or meets an
active level. -/
theorem Chosen.le_limit_iff {i limit : Nat} (h : s.Chosen predFreq flag i)
    (hstart : s.startIndex predFreq flag ≤ limit) : i ≤ limit ↔ flag = 1 ∨ 9 ≤ limit ∨
      ∃ j, s.startIndex predFreq flag ≤ j ∧ j ≤ limit ∧ s.activeStates j = 1 := by
  cases h with
  | faster hflag hi => exact ⟨fun _ => .inl hflag, fun _ => hi.le.trans hstart⟩
  | @slower j hflag hj =>
    constructor
    · intro hle
      rcases lt_or_ge 9 j with hend | hj9
      · have hclip : clipLevel j maxfreqlevel = 9 := if_pos hend
        exact .inr (.inl (hclip ▸ hle))
      · rw [clipLevel_of_le hj9] at hle
        exact .inr (.inr ⟨j, hj.le, hle, hj.active.resolve_right (by omega)⟩)
    · rintro (hup | hlimit | ⟨k, hk, hklimit, hactive⟩)
      · exact absurd hup hflag
      · exact (clipLevel_le j).trans hlimit
      · -- the search does not pass level `k`
        have hjk : j ≤ k := not_lt.mp fun hlt => hj.between k hk hlt hactive
        exact (clipLevel_le_self j).trans (hjk.trans hklimit)

/-- Another limit. -/
def withLimit (s : Dvfs) (limit : Nat) : Dvfs := { s with highLockLimit := limit }

theorem targetFrqEnd_withLimit (s : Dvfs) (limit index : Nat) (flag : Int) (reads : List Nat) :
    ((s.withLimit limit).targetFrqEnd index flag reads).map (·.freq) =
      (s.targetFrqEnd index flag reads).map (·.freq) := by
  have hfind : (s.withLimit limit).s5pc11xTargetFreqFindIndex index flag =
      s.s5pc11xTargetFreqFindIndex index flag := rfl
  rw [targetFrqEnd, targetFrqEnd, hfind]
  cases (s.s5pc11xTargetFreqFindIndex index flag).found <;> rfl

theorem refresh_withLimit (s : Dvfs) (limit : Nat) :
    (s.withLimit limit).refresh = (s.refresh.1.withLimit limit, s.refresh.2) := by
  have hupdate : (s.withLimit limit).expUpdateStates = s.expUpdateStates := rfl
  unfold refresh
  rw [hupdate]
  split <;> rfl

/-- Without a lock the limit does not matter. -/
theorem s5pc11xTargetFrq_withLimit (htoken : s.highLockToken = 0#32) (limit predFreq : Nat)
    (flag : Int) : ((s.withLimit limit).s5pc11xTargetFrq predFreq flag).map (·.freq) =
      (s.s5pc11xTargetFrq predFreq flag).map (·.freq) := by
  have hfree := s.same_refresh.highLockToken.trans htoken
  have hfree' : (s.refresh.1.withLimit limit).highLockToken = 0#32 := hfree
  unfold s5pc11xTargetFrq
  split
  next => exact targetFrqEnd_withLimit s limit 0 flag []
  next =>
    simp only [refresh_withLimit, lockIndex_free hfree, lockIndex_free hfree']
    exact targetFrqEnd_withLimit ..

theorem s5pc11xTargetFreqIndex_some {p : Nat × Dvfs} {freq : Nat} (hlevels : Levels s)
    (h : s.s5pc11xTargetFreqIndex freq = some p) :
    ∃ i, i ≤ 9 ∧ p.2 = { s with cpufreqIndex := i } := by
  unfold s5pc11xTargetFreqIndex at h
  split at h
  next =>
    cases h
    exact ⟨_, clipLevel_le 0, rfl⟩
  next =>
    split at h
    next =>
      cases h
      exact ⟨s.cpufreqIndex, hlevels.index, rfl⟩
    next =>
      obtain ⟨k, -, h⟩ := bind_eq_some_iff.mp h
      obtain ⟨m, -, h⟩ := bind_eq_some_iff.mp h
      cases h
      exact ⟨_, clipLevel_le _, rfl⟩

end Dvfs

/-! ## The machine -/

/-- The driver, with the locks that are held. -/
structure Locked where
  dvfs : Dvfs
  held : Holds

namespace Locked

def init (behind : Nat → Int) : Locked := ⟨.init behind, fun _ => none⟩

/-- Calls of the driver; `fixLockLimit` is set and reset by the suspend code. -/
inductive Op
  | lock (nToken : LockToken) (freqLevel : FreqLevel)
  | unlock (nToken : LockToken)
  | targetLevel (freqLevel : FreqLevel)
  | storeStates (values : List Int) (count : Nat)
  | storeUpdate (value : Option Int) (count : Nat)
  | fixLockLimit (on : Bool)
  | targetFrq (predFreq : Nat) (flag : Int)
  | targetFreqIndex (freq : Nat)

def step (s : Locked) : Op → Option Locked
  | .lock t l => some ⟨s.dvfs.s5pc110LockDvfsHighLevel t l, Function.update s.held t (some l)⟩
  | .unlock t => some ⟨s.dvfs.s5pc110UnlockDvfsHighLevel t, Function.update s.held t none⟩
  | .targetLevel l => some { s with dvfs := s.dvfs.setDvfsTargetLevel l }
  | .storeStates values count =>
    some { s with dvfs := (s.dvfs.storeStatesEnabledTable values count).2 }
  | .storeUpdate value count => some { s with dvfs := (s.dvfs.storeUpdateStates value count).2 }
  | .fixLockLimit on => some { s with dvfs := { s.dvfs with fixLockLimit := on } }
  | .targetFrq predFreq flag =>
    (s.dvfs.s5pc11xTargetFrq predFreq flag).map fun r => { s with dvfs := r.state }
  | .targetFreqIndex freq =>
    (s.dvfs.s5pc11xTargetFreqIndex freq).map fun p => { s with dvfs := p.2 }

/-- A token is not locked again while it is held. -/
def Allowed (s : Locked) : Op → Prop
  | .lock t _ => s.held t = none
  | _ => True

/-- Nor is the launcher's token locked at the fastest level. -/
def Fits (s : Locked) (op : Op) : Prop :=
  s.Allowed op ∧ op ≠ .lock dvfsLockToken6 .lev1400MHZ

structure Ok (s : Locked) : Prop where
  locks : Locks s.dvfs s.held
  levels : Levels s.dvfs

theorem ok_init (behind : Nat → Int) : (init behind).Ok where
  locks := Locks.init behind
  levels :=
    { index := show 6 ≤ 9 by decide
      down := fun _ hi => ((updateTransitionStates_down _ hi).bounds hi).2
      up := fun _ hi => Nat.le_of_lt_succ ((updateTransitionStates_up _ hi).lt_ten hi) }

variable {s s' : Locked} {op : Op}

theorem ok_setIndex (h : s.Ok) {i : Nat} (hi : i ≤ 9) :
    Ok { s with dvfs := { s.dvfs with cpufreqIndex := i } } :=
  ⟨h.locks.congr rfl rfl rfl, h.levels.set_index hi⟩

theorem ok_targetFrq (h : s.Ok) {predFreq : Nat} {flag : Int} {r : Dvfs.Reply}
    (hr : s.dvfs.s5pc11xTargetFrq predFreq flag = some r) : Ok { s with dvfs := r.state } := by
  obtain ⟨t, reads, heq, hsame, hlevels⟩ := s.dvfs.s5pc11xTargetFrq_eq predFreq flag
  rw [heq] at hr
  obtain ⟨j, -, hj⟩ := bind_eq_some_iff.mp hr
  cases hj
  have ht : Ok { s with dvfs := t } :=
    ⟨h.locks.congr hsame.highLockToken hsame.dvfslockval hsame.highLockLimit, hlevels h.levels⟩
  exact ok_setIndex ht (Dvfs.clipLevel_le j)

theorem ok_step (h : s.Ok) (hfits : s.Fits op) (hs : s.step op = some s') : s'.Ok := by
  cases op with
  | lock t l =>
    cases hs
    refine ⟨h.locks.lock hfits.1 fun hwrap => hfits.2 ?_, ?_⟩
    · rw [hwrap.1, hwrap.2]
    · rw [Dvfs.s5pc110LockDvfsHighLevel, getDvfsPerfLevel_eq]
      apply Levels.setDvfsPerfLevel
      exact h.levels.congr rfl rfl
  | unlock t =>
    cases hs
    exact ⟨h.locks.unlock t, h.levels.congr rfl rfl⟩
  | targetLevel l =>
    cases hs
    rw [Dvfs.setDvfsTargetLevel, getDvfsPerfLevel_eq, elim_some]
    obtain ⟨i, hi, heq⟩ := s.dvfs.setDvfsPerfLevel_eq l.level
    rw [heq]
    exact ok_setIndex h (hi.trans h.levels.index)
  | storeStates | fixLockLimit =>
    cases hs
    exact ⟨h.locks.congr rfl rfl rfl, h.levels.congr rfl rfl⟩
  | storeUpdate value count =>
    cases hs
    cases value with
    | none => exact h
    | some v => exact ⟨h.locks.congr rfl rfl rfl, h.levels.congr rfl rfl⟩
  | targetFrq predFreq flag =>
    obtain ⟨r, hr, rfl⟩ := map_eq_some_iff.mp hs
    exact ok_targetFrq h hr
  | targetFreqIndex freq =>
    obtain ⟨p, hp, rfl⟩ := map_eq_some_iff.mp hs
    obtain ⟨i, hi, hstate⟩ := Dvfs.s5pc11xTargetFreqIndex_some h.levels hp
    rw [hstate]
    exact ok_setIndex h hi

/-! ## Floors -/

/-- The call returns a frequency that no lock forbids. -/
def FloorKept (s : Locked) (predFreq : Nat) (flag : Int) : Prop :=
  ∃ r, s.dvfs.s5pc11xTargetFrq predFreq flag = some r ∧
    ∀ t l, s.held t = some l → frequency (floorLevel t l) ≤ r.freq

/-- A step up, a limit that forbids nothing, or an active level on the way down to the
limit. -/
def KeepsFloor (s : Locked) (predFreq : Nat) (flag : Int) : Prop :=
  flag = 1 ∨ 9 ≤ s.dvfs.highLockLimit ∨
    ∃ j, s.dvfs.startIndex predFreq flag ≤ j ∧ j ≤ s.dvfs.highLockLimit ∧
      s.dvfs.activeStates j = 1

theorem floorKept_iff (h : s.Ok) (predFreq : Nat) (flag : Int) :
    s.FloorKept predFreq flag ↔ s.KeepsFloor predFreq flag := by
  by_cases hheld : ∃ t, s.held t ≠ none
  · have hlimit : s.dvfs.startIndex predFreq flag ≤ s.dvfs.highLockLimit := by
      obtain ⟨t, ht⟩ := hheld
      exact Dvfs.startIndex_le fun hzero => ht (h.locks.tokens.eq_zero_iff.mp hzero t)
    have hstart := hlimit.trans (h.locks.limit_le_nine hheld)
    obtain ⟨r, i, hr, hfreq, hi⟩ := Dvfs.exists_chosen hstart
    have hi9 := hi.le_nine hstart
    rw [KeepsFloor, ← hi.le_limit_iff hlimit, h.locks.le_limit_iff hheld hi9]
    have hlevel : ∀ t l, frequency (floorLevel t l) ≤ r.freq ↔ i ≤ floorLevel t l := fun t l => by
      rw [hfreq]
      exact frequency_le_iff (Nat.lt_succ_of_le (floorLevel_le t l)) (Nat.lt_succ_of_le hi9)
    constructor
    · rintro ⟨r', hr', hkept⟩ t l ht
      rw [hr] at hr'
      cases hr'
      exact (hlevel t l).mp (hkept t l ht)
    · intro hkept
      exact ⟨r, hr, fun t l ht => (hlevel t l).mpr (hkept t l ht)⟩
  · have hnone : ∀ t, s.held t = none := not_exists_not.mp hheld
    have hstart : s.dvfs.startIndex predFreq flag ≤ 9 :=
      Dvfs.startIndex_le_nine h.levels (h.locks.tokens.eq_zero_iff.mpr hnone)
    obtain ⟨r, i, hr, -, -⟩ := Dvfs.exists_chosen hstart
    refine ⟨fun _ => .inr (.inl (h.locks.free hnone)), fun _ => ⟨r, hr, fun t l ht => ?_⟩⟩
    rw [hnone] at ht
    cases ht

/-- In every run in which the launcher's token is never locked at the fastest level: the
limit is at most the level of each lock held, a call of the governor keeps to all of these
exactly if a step down meets an active level before it has passed the limit, and with no
lock held the limit does not matter. -/
theorem high_lock_is_floor {behind : Nat → Int} (h : Reached step Fits (init behind) s) :
    (∀ t l, s.held t = some l → s.dvfs.highLockLimit ≤ floorLevel t l) ∧
    (∀ predFreq flag, s.FloorKept predFreq flag ↔ s.KeepsFloor predFreq flag) ∧
    ((∀ t, s.held t = none) → ∀ limit predFreq flag,
      ((s.dvfs.withLimit limit).s5pc11xTargetFrq predFreq flag).map (·.freq) =
        (s.dvfs.s5pc11xTargetFrq predFreq flag).map (·.freq)) := by
  have hok : s.Ok := h.invariant (ok_init behind) fun _ _ _ hok hfits hs => ok_step hok hfits hs
  refine ⟨fun t l ht => hok.locks.limit_le ht, floorKept_iff hok, fun hnone => ?_⟩
  exact Dvfs.s5pc11xTargetFrq_withLimit (hok.locks.tokens.eq_zero_iff.mpr hnone)

/-- The driver after one lock. -/
def lockedAt (t : LockToken) (l : FreqLevel) : Locked :=
  ⟨(Dvfs.init fun _ => 0).s5pc110LockDvfsHighLevel t l, Function.update (fun _ => none) t (some l)⟩

theorem reached_lockedAt {ok : Locked → Op → Prop} {t : LockToken} {l : FreqLevel}
    (h : ok (init fun _ => 0) (.lock t l)) :
    Reached step ok (init fun _ => 0) (lockedAt t l) := .step .init h rfl

/-- A lock at 800 MHz, which is active, lets no step go below it. -/
theorem high_lock_is_floor_800MHZ : (lockedAt 0 .lev800MHZ).dvfs.highLockLimit ≤ 5 ∧
    (lockedAt 0 .lev800MHZ).FloorKept 600000 (-1) := by
  have hrun : Reached step Fits (init fun _ => 0) (lockedAt 0 .lev800MHZ) :=
    reached_lockedAt ⟨rfl, nofun⟩
  have h := high_lock_is_floor hrun
  exact ⟨h.1 0 .lev800MHZ rfl, (h.2.1 600000 (-1)).mpr
    (.inr (.inr ⟨5, by decide +kernel, by decide +kernel, by decide +kernel⟩))⟩

/-- A step down from a lock at 1200 MHz, which is not active by default, leads to 1000 MHz.
And the launcher's lock at the fastest level does not limit anything. -/
theorem high_lock_no_floor : (Reached step Allowed (init fun _ => 0) (lockedAt 0 .lev1200MHZ) ∧
      ¬(lockedAt 0 .lev1200MHZ).FloorKept 1200000 (-1)) ∧
    (Reached step Allowed (init fun _ => 0) (lockedAt dvfsLockToken6 .lev1400MHZ) ∧
      ¬(lockedAt dvfsLockToken6 .lev1400MHZ).dvfs.highLockLimit ≤
        floorLevel dvfsLockToken6 .lev1400MHZ) := by
  refine ⟨⟨reached_lockedAt rfl, ?_⟩, reached_lockedAt rfl, by decide +kernel⟩
  rintro ⟨r, hr, hkept⟩
  have hslow : ((lockedAt 0 .lev1200MHZ).dvfs.s5pc11xTargetFrq 1200000 (-1)).map (·.freq) =
      some 1000000 := by decide +kernel
  rw [hr] at hslow
  have hle := hkept 0 .lev1200MHZ rfl
  rw [show r.freq = 1000000 from some.inj hslow] at hle
  exact absurd hle (by decide)

end Locked

end AndroidKernel.CpuFreq
