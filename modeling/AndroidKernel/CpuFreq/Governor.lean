import AndroidKernel.CpuFreq.Basic

/-!
# The governor's steps

What `update_transition_states` makes of the table of active levels, where the search
for an active level ends, and when `s5pc11x_target_frq` names an active level.
-/

namespace AndroidKernel.CpuFreq

open Function List

variable {active : Nat → Int} {i j k n prevJ : Nat}

/-! ## Frequencies -/

/-- A level is faster than those after it. -/
theorem frequency_lt_iff (hi : i < 10) (hj : j < 10) : frequency i < frequency j ↔ j < i := by
  revert j
  revert i
  decide

theorem frequency_le_iff (hi : i < 10) (hj : j < 10) : frequency i ≤ frequency j ↔ j ≤ i := by
  rw [← Nat.not_lt, ← Nat.not_lt, frequency_lt_iff hj hi]

theorem frequency_inj (hi : i < 10) (hj : j < 10) (h : frequency i = frequency j) : i = j :=
  Nat.le_antisymm ((frequency_le_iff hj hi).mp h.ge) ((frequency_le_iff hi hj).mp h.le)

/-- No level is faster than the first. -/
theorem frequency_le_zero (hi : i < 10) : frequency i ≤ frequency 0 :=
  (frequency_le_iff hi (by decide)).mpr (Nat.zero_le i)

theorem frequency_eq_end_iff (hi : i ≤ 10) : frequency i = cpufreqTableEnd ↔ i = 10 := by
  revert i
  decide

theorem frequency_ne_end (hi : i < 10) : frequency i ≠ cpufreqTableEnd := fun h => by
  have := (frequency_eq_end_iff (by omega)).mp h
  omega

/-! ## The transition table -/

/-- Where a step down from level `i` leads: to the next active level, or nowhere. -/
inductive DownState (active : Nat → Int) (i : Nat) : Nat → Prop
  | slower {j : Nat} : i < j → j ≤ 9 → active j ≠ 0 → (∀ k, i < k → k < j → active k = 0) →
      DownState active i j
  | stay : (∀ k, i < k → k ≤ 9 → active k = 0) → DownState active i i

/-- Where a step up from level `i` leads: to the nearest active level above it, and with
none there to the fastest active level. A slowest level that is the only active one
counts for nothing. -/
inductive UpState (active : Nat → Int) (i : Nat) : Nat → Prop
  | faster {j : Nat} : j < i → active j ≠ 0 → (∀ k, j < k → k < i → active k = 0) →
      UpState active i j
  | fastest {j : Nat} : i ≤ j → j < 9 → active j ≠ 0 → (∀ k, k < j → active k = 0) →
      UpState active i j
  | none : (∀ k, k < 9 → active k = 0) → UpState active i 0

theorem DownState.bounds (h : DownState active i j) (hi : i ≤ 9) : i ≤ j ∧ j ≤ 9 := by
  cases h with
  | slower hlt hle _ _ | stay _ => omega

theorem UpState.lt_ten (h : UpState active i j) (hi : i ≤ 9) : j < 10 := by
  cases h with
  | faster hlt _ _ | fastest _ hlt _ _ | none _ => omega

/-- From an active level no step up leads to a slower one. -/
theorem UpState.le_of_active (h : UpState active i j) (hi : active i ≠ 0) : j ≤ i := by
  cases h with
  | faster hlt _ _ => omega
  | fastest hle _ _ hbefore =>
    rcases hle.eq_or_lt with rfl | hlt
    · exact le_rfl
    · exact absurd (hbefore i hlt) hi
  | none _ => omega

theorem downState_of_scan (hi : i ≤ 9) : DownState active i
      ((Scan.up (fun j => active j != 0) (maxfreqlevel - i) (i + 1)).found.getD i) := by
  unfold maxfreqlevel
  cases h : (Scan.up (fun j => active j != 0) (9 - i) (i + 1)).found with
  | none =>
    exact .stay fun k hlo hhi => by simpa using Scan.of_found_up_none h hlo (by omega)
  | some j =>
    obtain ⟨hj, hactive, hbefore⟩ := Scan.of_found_up_some h
    have hj9 : j ≤ 9 := by omega
    exact .slower hj.1 hj9 (by simpa using hactive) fun k hlo hhi => by
      simpa using hbefore k hlo hhi

theorem downStates_apply (active : Nat → Int) (down : Nat → Nat) (hin : i < n) :
    (downStates active n down).1 i =
      (Scan.up (fun j => active j != 0) (maxfreqlevel - i) (i + 1)).found.getD i := by
  induction n with
  | zero => omega
  | succ n ih =>
    rcases (Nat.le_of_lt_succ hin).eq_or_lt with rfl | hlt
    · exact update_self ..
    · exact (update_of_ne hlt.ne ..).trans (ih hlt)

theorem downStates_reads (down : Nat → Nat) (hn : n ≤ 9)
    (h : k ∈ (downStates active n down).2) : k < 10 := by
  induction n with
  | zero => cases h
  | succ n ih =>
    rw [downStates, mem_append] at h
    rcases h with h | h
    · exact ih (by omega) h
    · have := Scan.le_of_mem_looked_up h
      unfold maxfreqlevel at this
      omega

/-- What is carried over from level `i + 1` is right for level `i` where the scan for that
level finds nothing. -/
theorem UpState.carry (h : UpState active (i + 1) j) (hi : i < 9)
    (hnone : ∀ k, k < i → active k = 0) : UpState active i j := by
  cases h with
  | faster hlt hactive hbetween =>
    rcases (Nat.le_of_lt_succ hlt).eq_or_lt with rfl | hlt
    · exact .fastest le_rfl hi hactive hnone
    · exact absurd (hnone j hlt) hactive
  | fastest hle hlt hactive hbefore => exact .fastest (by omega) hlt hactive hbefore
  | none h => exact .none h

theorem upState_of_scan (hcarry : (∀ k, k < i → active k = 0) → UpState active i prevJ) :
    UpState active i ((Scan.down (fun j => active j != 0) i).found.getD prevJ) := by
  cases h : (Scan.down (fun j => active j != 0) i).found with
  | none =>
    exact hcarry fun k hk => by simpa using Scan.of_found_down_none h hk
  | some j =>
    obtain ⟨hj, hactive, habove⟩ := Scan.of_found_down_some h
    exact .faster hj (by simpa using hactive) fun k hlo hhi => by simpa using habove k hlo hhi

theorem upStates_of_lt (active : Nat → Int) (prevJ : Nat) (up : Nat → Nat) (h : n < i) :
    (upStates active n prevJ up).1 i = up i := by
  induction n generalizing prevJ up with
  | zero => exact update_of_ne (Nat.ne_of_gt h) ..
  | succ n ih =>
    exact (ih _ _ (by omega)).trans (update_of_ne (Nat.ne_of_gt h) ..)

/-- The induction goes down the levels; what is carried is what the level before got. -/
theorem upStates_apply (up : Nat → Nat) (hn : n ≤ 9)
    (hcarry : (∀ k, k < n → active k = 0) → UpState active n prevJ) (hin : i ≤ n) :
    UpState active i ((upStates active n prevJ up).1 i) := by
  induction n generalizing prevJ up with
  | zero =>
    obtain rfl : i = 0 := by omega
    have h0 : (upStates active 0 prevJ up).1 0 = prevJ := by
      exact update_self 0 prevJ up
    exact hcarry fun k hk => by omega
  | succ n ih =>
    rw [upStates]
    have hnew := upState_of_scan hcarry
    rcases hin.eq_or_lt with rfl | hlt
    · rw [upStates_of_lt _ _ _ (Nat.lt_succ_self n), update_self]
      exact hnew
    · exact ih _ (by omega) (fun hnone => hnew.carry hn hnone) (by omega)

theorem upStates_reads (up : Nat → Nat) (hn : n ≤ 9)
    (h : k ∈ (upStates active n prevJ up).2) : k < 10 := by
  induction n generalizing prevJ up with
  | zero => cases h
  | succ n ih =>
    rw [upStates, mem_append] at h
    rcases h with h | h
    · have := Scan.lt_of_mem_looked_down h
      omega
    · exact ih _ (by omega) h

section UpdateTransitionStates

variable (t : TransitionState)

theorem updateTransitionStates_down (hi : i ≤ 9) :
    DownState active i ((updateTransitionStates active t).1.down i) := by
  have hdown : (updateTransitionStates active t).1.down =
      update (downStates active 9 t.down).1 9 9 := rfl
  rw [hdown]
  rcases hi.eq_or_lt with rfl | hlt
  · exact .stay fun k hlo hhi => by omega
  · rw [update_of_ne hlt.ne, downStates_apply _ _ hlt]
    exact downState_of_scan hi

theorem updateTransitionStates_up (hi : i ≤ 9) :
    UpState active i ((updateTransitionStates active t).1.up i) :=
  upStates_apply t.up (Nat.le_refl 9) (fun h => .none h) hi

end UpdateTransitionStates

/-! ## The search for an active level -/

namespace Dvfs

variable {s : Dvfs} {index : Nat} {flag : Int} {reads : List Nat}

/-- Where the search up from `index` ends: at an active level or at the fastest. -/
structure FoundFaster (s : Dvfs) (index j : Nat) : Prop where
  le : j ≤ index
  active : s.activeStates j = 1 ∨ j = 0
  between : ∀ k, j < k → k ≤ index → s.activeStates k ≠ 1

theorem findIndex_faster (s : Dvfs) (index : Nat) :
    ∃ j, (s.s5pc11xTargetFreqFindIndex index 1).found = some j ∧ s.FoundFaster index j := by
  rw [s5pc11xTargetFreqFindIndex, if_pos rfl]
  cases h : (Scan.down (fun i => s.activeStates i == 1 || i == 0) (index + 1)).found with
  | none =>
    have := Scan.of_found_down_none h (show 0 < index + 1 by omega)
    simp at this
  | some j =>
    obtain ⟨hj, hstop, habove⟩ := Scan.of_found_down_some h
    refine ⟨j, rfl, by omega, by simpa using hstop, fun k hlo hhi => ?_⟩
    have := habove k hlo (by omega)
    simp only [Bool.or_eq_false_iff, beq_eq_false_iff_ne] at this
    exact this.1

/-- Where the search down from `index` ends: at an active level, or behind the last one
at the end marker. -/
structure FoundSlower (s : Dvfs) (index j : Nat) : Prop where
  le : index ≤ j
  le_end : j ≤ 10
  active : s.activeStates j = 1 ∨ j = 10
  between : ∀ k, index ≤ k → k < j → s.activeStates k ≠ 1

theorem findIndex_slower (s : Dvfs) (hindex : index ≤ 10) (hflag : flag ≠ 1) :
    ∃ j, (s.s5pc11xTargetFreqFindIndex index flag).found = some j ∧ s.FoundSlower index j := by
  rw [s5pc11xTargetFreqFindIndex, if_neg hflag, freqTabSize]
  cases h : (Scan.up (fun i => s.activeStates i == 1 || frequency i == cpufreqTableEnd)
      (11 - index) index).found with
  | none =>
    have := Scan.of_found_up_none h hindex (by omega)
    simp [(frequency_eq_end_iff (Nat.le_refl 10)).mpr rfl] at this
  | some j =>
    obtain ⟨hj, hstop, hbefore⟩ := Scan.of_found_up_some h
    have hend : j ≤ 10 := by omega
    refine ⟨j, rfl, hj.1, hend, ?_, fun k hlo hhi => ?_⟩
    · simpa [frequency_eq_end_iff hend] using hstop
    · have := hbefore k hlo hhi
      simp only [Bool.or_eq_false_iff, beq_eq_false_iff_ne] at this
      exact this.1

/-- The search down has read the entry at which it ends. -/
theorem findIndex_slower_reads (hflag : flag ≠ 1)
    (h : (s.s5pc11xTargetFreqFindIndex index flag).found = some j) :
    k ∈ (s.s5pc11xTargetFreqFindIndex index flag).looked ↔ index ≤ k ∧ k ≤ j := by
  rw [s5pc11xTargetFreqFindIndex, if_neg hflag] at h ⊢
  exact Scan.mem_looked_up h

theorem targetFrqEnd_eq (reads : List Nat)
    (h : (s.s5pc11xTargetFreqFindIndex index flag).found = some j) :
    s.targetFrqEnd index flag reads = some ⟨frequency (clipLevel j maxfreqlevel),
        reads ++ (s.s5pc11xTargetFreqFindIndex index flag).looked,
        { s with cpufreqIndex := clipLevel j maxfreqlevel }⟩ := by
  rw [targetFrqEnd, h]
  rfl

theorem clipLevel_of_le (h : j ≤ 9) : clipLevel j maxfreqlevel = j := if_neg (by
  unfold maxfreqlevel
  omega)

theorem clipLevel_le (j : Nat) : clipLevel j maxfreqlevel ≤ 9 := by
  unfold clipLevel maxfreqlevel
  split <;> omega

/-! ## Active levels -/

/-- An active level is named, and only the table of active levels has been read. -/
def Reply.Active (r : Reply) (active : Nat → Int) : Prop :=
  (∃ j, j < 10 ∧ active j = 1 ∧ r.freq = frequency j) ∧ ∀ k ∈ r.reads, k < 10

/-- The search from `index` meets an active level. -/
def Meets (s : Dvfs) (index : Nat) (flag : Int) : Prop :=
  if flag = 1 then ∃ j, j ≤ index ∧ s.activeStates j = 1
  else ∃ j, index ≤ j ∧ j < 10 ∧ s.activeStates j = 1

theorem targetFrqEnd_active_iff (hindex : index < 10) (hreads : ∀ k ∈ reads, k < 10) :
    (∃ r, s.targetFrqEnd index flag reads = some r ∧ r.Active s.activeStates) ↔
      s.Meets index flag := by
  rw [Meets]
  split
  next hflag =>
    subst hflag
    obtain ⟨j, hfound, hj⟩ := s.findIndex_faster index
    have hle := hj.le
    have hclip := clipLevel_of_le (j := j) (by omega)
    rw [targetFrqEnd_eq reads hfound, hclip]
    constructor
    · rintro ⟨r, hr, ⟨i, hi, hactive, hfreq⟩, -⟩
      cases hr
      obtain rfl := frequency_inj (by omega) hi hfreq
      exact ⟨j, hle, hactive⟩
    · rintro ⟨i, hi, hactive⟩
      -- the scan cannot have gone past level `i`
      have hij : i ≤ j := Nat.not_lt.mp fun hlt => hj.between i hlt hi hactive
      have hj1 : s.activeStates j = 1 := by
        rcases hj.active with h | rfl
        · exact h
        · obtain rfl : i = 0 := by omega
          exact hactive
      refine ⟨_, rfl, ⟨j, by omega, hj1, rfl⟩, forall_mem_append.mpr ⟨hreads, fun k hk => ?_⟩⟩
      have := Scan.lt_of_mem_looked_down hk
      omega
  next hflag =>
    have hend : index ≤ 10 := by omega
    obtain ⟨j, hfound, hj⟩ := s.findIndex_slower hend hflag
    have hle := hj.le
    rw [targetFrqEnd_eq reads hfound]
    constructor
    · rintro ⟨r, hr, -, hk⟩
      cases hr
      -- the entry at which the scan has ended is in the table, so it is not the marker
      have hj10 : j < 10 := hk j (mem_append_right _
        ((findIndex_slower_reads hflag hfound).mpr ⟨hle, le_rfl⟩))
      exact ⟨j, hle, hj10, hj.active.resolve_right (by omega)⟩
    · rintro ⟨i, hi, hi10, hactive⟩
      have hij : j ≤ i := Nat.not_lt.mp fun hlt => hj.between i hi hlt hactive
      refine ⟨_, rfl, ⟨j, by omega, hj.active.resolve_right (by omega), ?_⟩,
        forall_mem_append.mpr ⟨hreads, fun k hk => ?_⟩⟩
      · rw [clipLevel_of_le (by omega)]
      · have := (findIndex_slower_reads hflag hfound).mp hk
        omega

/-- When a step of the governor names an active level: a step up needs one that is not
slower than where its search begins, and a step down one that is not faster. From a level
that the governor knows, a step up begins at another level of the table unless the slowest
level is the only active one. -/
def StepFinds (s : Dvfs) (predFreq : Nat) (flag : Int) : Prop :=
  if frequency 0 < predFreq then
    flag = 1 → s.activeStates 0 = 1
  else if flag = 1 then
    if frequency s.cpufreqIndex = predFreq then ∃ j, j < 9 ∧ s.activeStates j = 1
    else ∃ j, j ≤ s.cpufreqIndex ∧ s.activeStates j = 1
  else
    ∃ j, s.cpufreqIndex ≤ j ∧ j < 10 ∧ s.activeStates j = 1

/-- The step goes in the direction asked for. -/
def Reply.Toward (r : Reply) (predFreq : Nat) (flag : Int) : Prop :=
  (flag = 1 → predFreq ≤ r.freq) ∧ (flag = -1 → r.freq ≤ predFreq)

/-- Each level is either active or not. -/
def Switches (active : Nat → Int) : Prop := ∀ i, i < 10 → active i = 0 ∨ active i = 1

theorem Switches.eq_one (h : Switches active) (hi : i < 10) (hne : active i ≠ 0) : active i = 1 :=
  (h i hi).resolve_left hne

section Step

variable {predFreq : Nat}

theorem refresh_eq (h : s.expUpdateStates ≠ 0) : s.refresh = ({ s with
          transitionState := (updateTransitionStates s.activeStates s.transitionState).1
          expUpdateStates := 0 },
        (updateTransitionStates s.activeStates s.transitionState).2) := if_pos h

/-- Without a lock the search begins where the transition table says. -/
theorem s5pc11xTargetFrq_refreshed (hupdate : s.expUpdateStates ≠ 0)
    (htoken : s.highLockToken = 0#32)
    (hpred : ¬frequency 0 < predFreq) : s.s5pc11xTargetFrq predFreq flag =
      s.refresh.1.targetFrqEnd (s.refresh.1.predIndex predFreq flag) flag s.refresh.2 := by
  have hlock : ∀ index, s.refresh.1.lockIndex index = index := fun index => by
    rw [refresh_eq hupdate]
    exact if_neg (not_not.mpr htoken)
  rw [s5pc11xTargetFrq, if_neg hpred]
  show s.refresh.1.targetFrqEnd (s.refresh.1.lockIndex _) flag s.refresh.2 = _
  rw [hlock]

/-- The search after a rebuild of the transition table. -/
inductive Starts (s : Dvfs) (predFreq : Nat) (flag : Int) : Nat → Prop
  | up {i : Nat} : frequency s.cpufreqIndex = predFreq → flag = 1 →
      UpState s.activeStates s.cpufreqIndex i → Starts s predFreq flag i
  | down {i : Nat} : frequency s.cpufreqIndex = predFreq → flag ≠ 1 →
      DownState s.activeStates s.cpufreqIndex i → Starts s predFreq flag i
  | other : frequency s.cpufreqIndex ≠ predFreq → Starts s predFreq flag s.cpufreqIndex

/-- Above the fastest frequency the search begins at the fastest level. -/
theorem meets_zero_iff (hsome : ∃ i, i < 10 ∧ s.activeStates i = 1)
    (hpred : frequency 0 < predFreq) : s.Meets 0 flag ↔ s.StepFinds predFreq flag := by
  rw [Meets, StepFinds, if_pos hpred]
  by_cases hflag : flag = 1
  · rw [if_pos hflag]
    constructor
    · rintro ⟨j, hj, hactive⟩ -
      obtain rfl : j = 0 := by omega
      exact hactive
    · intro h
      exact ⟨0, Nat.le_refl 0, h hflag⟩
  · rw [if_neg hflag]
    obtain ⟨i, hi, hactive⟩ := hsome
    exact ⟨fun _ h => absurd h hflag, fun _ => ⟨i, Nat.zero_le i, hi, hactive⟩⟩

section

variable (hindex : s.cpufreqIndex < 10)

include hindex

theorem predIndex_refresh (hupdate : s.expUpdateStates ≠ 0) :
    s.Starts predFreq flag (s.refresh.1.predIndex predFreq flag) := by
  have hle : s.cpufreqIndex ≤ 9 := by omega
  rw [refresh_eq hupdate, predIndex]
  split
  next hfreq =>
    split
    next hflag => exact .up hfreq hflag (updateTransitionStates_up _ hle)
    next hflag => exact .down hfreq hflag (updateTransitionStates_down _ hle)
  next hfreq => exact .other hfreq

theorem Starts.lt_ten (h : s.Starts predFreq flag i) : i < 10 := by
  cases h with
  | up _ _ h => exact h.lt_ten (by omega)
  | down _ _ h => exact Nat.lt_succ_of_le (h.bounds (by omega)).2
  | other _ => exact hindex

theorem Starts.meets_iff (h : s.Starts predFreq flag i) (hswitch : Switches s.activeStates)
    (hpred : ¬frequency 0 < predFreq) : s.Meets i flag ↔ s.StepFinds predFreq flag := by
  rw [Meets, StepFinds, if_neg hpred]
  cases h with
  | up hfreq hflag h =>
    rw [if_pos hflag, if_pos hflag, if_pos hfreq]
    cases h with
    | faster hlt hactive _ =>
      have hactive := hswitch.eq_one (by omega) hactive
      exact ⟨fun _ => ⟨i, by omega, hactive⟩, fun _ => ⟨i, le_rfl, hactive⟩⟩
    | fastest _ hlt hactive _ =>
      have hactive := hswitch.eq_one (by omega) hactive
      exact ⟨fun _ => ⟨i, hlt, hactive⟩, fun _ => ⟨i, le_rfl, hactive⟩⟩
    | none hnone =>
      -- the search begins at level 0, as slow as level 9 may be the only active one
      constructor
      · rintro ⟨j, hj, hactive⟩
        exact ⟨j, by omega, hactive⟩
      · rintro ⟨j, hj, hactive⟩
        rw [hnone j hj] at hactive
        cases hactive
  | down hfreq hflag h =>
    rw [if_neg hflag, if_neg hflag]
    cases h with
    | slower hlt hle hactive _ =>
      have hactive := hswitch.eq_one (by omega) hactive
      exact ⟨fun _ => ⟨i, by omega, by omega, hactive⟩,
        fun _ => ⟨i, le_rfl, by omega, hactive⟩⟩
    | stay _ => exact Iff.rfl
  | other hfreq =>
    by_cases hflag : flag = 1
    · rw [if_pos hflag, if_pos hflag, if_neg hfreq]
    · rw [if_neg hflag, if_neg hflag]

/-- A step from an active level that the governor knows goes in the direction asked for. -/
theorem Starts.toward (h : s.Starts predFreq flag i) (hactive : s.activeStates s.cpufreqIndex = 1)
    (hfreq : frequency s.cpufreqIndex = predFreq) {r : Reply}
    (hr : s.refresh.1.targetFrqEnd i flag reads = some r) : r.Toward predFreq flag := by
  subst hfreq
  cases h with
  | up _ hflag h =>
    subst hflag
    have hle := h.le_of_active (by omega)
    obtain ⟨j, hfound, hj⟩ := s.refresh.1.findIndex_faster i
    have hji := hj.le
    rw [targetFrqEnd_eq reads hfound] at hr
    cases hr
    refine ⟨fun _ => ?_, fun h => by omega⟩
    rw [clipLevel_of_le (by omega)]
    exact (frequency_le_iff hindex (by omega)).mpr (by omega)
  | down _ hflag h =>
    have hle := h.bounds (by omega)
    have hend : i ≤ 10 := by omega
    obtain ⟨j, hfound, hj⟩ := s.refresh.1.findIndex_slower hend hflag
    have hij := hj.le
    rw [targetFrqEnd_eq reads hfound] at hr
    cases hr
    refine ⟨fun h => absurd h hflag, fun _ => ?_⟩
    have hclip := clipLevel_le j
    refine (frequency_le_iff (by omega) hindex).mpr ?_
    unfold clipLevel maxfreqlevel
    split <;> omega
  | other hne => exact absurd rfl hne

end

/-- With no lock, and after the table of active levels has been announced, a step of the
governor names an active level, reads only the table and goes in the direction asked for
exactly if its search meets an active level. -/
theorem target_frq_active_iff (hswitch : Switches s.activeStates)
    (hsome : ∃ i, i < 10 ∧ s.activeStates i = 1) (hupdate : s.expUpdateStates ≠ 0)
    (htoken : s.highLockToken = 0#32) (hindex : s.cpufreqIndex < 10) :
    (∃ r, s.s5pc11xTargetFrq predFreq flag = some r ∧ r.Active s.activeStates ∧
        (s.activeStates s.cpufreqIndex = 1 → frequency s.cpufreqIndex = predFreq →
          r.Toward predFreq flag)) ↔ s.StepFinds predFreq flag := by
  by_cases hpred : frequency 0 < predFreq
  · rw [s5pc11xTargetFrq, if_pos hpred, ← meets_zero_iff hsome hpred,
      ← targetFrqEnd_active_iff (by omega) (fun k hk => absurd hk not_mem_nil)]
    have hother : frequency s.cpufreqIndex ≠ predFreq := fun h => by
      have := frequency_le_zero hindex
      omega
    exact ⟨fun ⟨r, hr, ha, _⟩ => ⟨r, hr, ha⟩,
      fun ⟨r, hr, ha⟩ => ⟨r, hr, ha, fun _ h => absurd h hother⟩⟩
  · have hstart : s.Starts predFreq flag (s.refresh.1.predIndex predFreq flag) :=
      predIndex_refresh hindex hupdate
    have hreads : ∀ k ∈ s.refresh.2, k < 10 := fun k hk => by
      rw [refresh_eq hupdate] at hk
      rcases mem_append.mp hk with hk | hk
      · exact downStates_reads _ (Nat.le_refl 9) hk
      · exact upStates_reads _ (Nat.le_refl 9) hk
    have hactive : s.refresh.1.activeStates = s.activeStates := by rw [refresh_eq hupdate]
    have hmeets : s.refresh.1.Meets (s.refresh.1.predIndex predFreq flag) flag ↔
        s.Meets (s.refresh.1.predIndex predFreq flag) flag := by
      rw [Meets, Meets, hactive]
    rw [s5pc11xTargetFrq_refreshed hupdate htoken hpred,
      ← Starts.meets_iff hindex hstart hswitch hpred, ← hmeets,
      ← targetFrqEnd_active_iff (hstart.lt_ten hindex) hreads, hactive]
    exact ⟨fun ⟨r, hr, ha, _⟩ => ⟨r, hr, ha⟩,
      fun ⟨r, hr, ha⟩ => ⟨r, hr, ha, fun hcur hfreq => Starts.toward hindex hstart hcur hfreq hr⟩⟩

/-- Up from 600 MHz with the default table. -/
theorem target_frq_active_default : ∃ r, (init fun _ => 0).s5pc11xTargetFrq 600000 1 = some r ∧
      r.Active (defaultStates fun _ => 0) ∧
      (defaultStates (fun _ => 0) 6 = 1 → frequency 6 = 600000 → r.Toward 600000 1) :=
  (target_frq_active_iff (show ∀ i, i < 10 → _ by decide)
    ⟨4, by decide, rfl⟩ (show (1 : Int) ≠ 0 by decide) rfl (show 6 < 10 by decide)).mpr
    (show ∃ j, j < 9 ∧ defaultStates (fun _ => 0) j = 1 from ⟨4, by decide, rfl⟩)

/-- Only the slowest level is enabled, and the clock runs there. -/
def slowestOnly : Dvfs :=
  { init fun _ => 0 with activeStates := fun i => if i = 9 then 1 else 0, cpufreqIndex := 9 }

/-- The step up from there leads to 1400 MHz. -/
theorem target_frq_inactive : (Switches slowestOnly.activeStates ∧ slowestOnly.activeStates 9 = 1 ∧
      slowestOnly.expUpdateStates ≠ 0 ∧ slowestOnly.highLockToken = 0#32 ∧
      frequency slowestOnly.cpufreqIndex = 100000) ∧
    ¬∃ r, slowestOnly.s5pc11xTargetFrq 100000 1 = some r ∧ r.Active slowestOnly.activeStates := by
  refine ⟨⟨show ∀ i, i < 10 → _ by decide, rfl, show (1 : Int) ≠ 0 by decide, rfl, rfl⟩, ?_⟩
  rintro ⟨r, hr, ⟨j, hj, hactive, hfreq⟩, -⟩
  have hfast : (slowestOnly.s5pc11xTargetFrq 100000 1).map (·.freq) = some 1400000 := by
    decide +kernel
  rw [hr] at hfast
  have hslow : ∀ j < 10, slowestOnly.activeStates j = 1 → 1400000 ≠ frequency j := by decide
  exact hslow j hj hactive ((Option.some.inj hfast).symm.trans hfreq)

end Step

end Dvfs

end AndroidKernel.CpuFreq
