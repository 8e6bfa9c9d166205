import AndroidKernel.CpuFreq.Governor

/-!
# The level for a frequency

`s5pc11x_target_freq_index` skips the levels that are not active and then goes one level
back, whether that one is active or not. So it finds the right level exactly where the
table has no hole next to the frequency.
-/

namespace AndroidKernel.CpuFreq.Dvfs

variable {s : Dvfs} {freq i j k m : Nat}

/-- A level that is not switched off. -/
def Enabled (s : Dvfs) (i : Nat) : Prop := i < 10 ∧ s.activeStates i ≠ 0

/-- The slowest enabled level that is fast enough, or else the fastest enabled one. -/
def IsTarget (s : Dvfs) (freq i : Nat) : Prop :=
  s.Enabled i ∧
    ((freq ≤ frequency i ∧
        ∀ j, s.Enabled j → freq ≤ frequency j → frequency i ≤ frequency j) ∨
      ((∀ j, s.Enabled j → frequency j < freq) ∧
        ∀ j, s.Enabled j → frequency j ≤ frequency i))

/-- The levels next to the frequency are enabled: the one that has it, or else the one
above and the one below, as far as there are such. -/
def NoHole (s : Dvfs) (freq : Nat) : Prop :=
  (∃ k, s.Enabled k ∧ frequency k = freq) ∨
  (∃ k, s.Enabled k ∧ s.Enabled (k + 1) ∧ frequency (k + 1) < freq ∧ freq < frequency k) ∨
  (s.Enabled 0 ∧ frequency 0 < freq) ∨
  (s.Enabled 9 ∧ freq < frequency 9)

/-- Where the function ends. In the last case the scan for the frequency stops at `k`, the
scan for an active level at `m`. -/
inductive Located (s : Dvfs) (freq : Nat) : Nat → Prop
  | top : frequency 0 ≤ freq → Located s freq 0
  | same {k : Nat} : s.Enabled k → frequency k = freq → Located s freq k
  | back {k m : Nat} : (∀ i, i < k → freq < frequency i) → (k < 10 → frequency k ≤ freq) →
      0 < k → k ≤ m → m ≤ 10 → (m < 10 → s.activeStates m ≠ 0) →
      (∀ i, k ≤ i → i < m → s.activeStates i = 0) → freq ≠ frequency m → Located s freq (m - 1)

theorem scan_freq (hfreq : freq < frequency 0) :
    ∃ k, (Scan.up (fun i => !(freq < frequency i && frequency i != cpufreqTableEnd))
        freqTabSize 0).found = some k ∧
      (0 < k ∧ k ≤ 10) ∧ (k < 10 → frequency k ≤ freq) ∧ ∀ i, i < k → freq < frequency i := by
  cases h : (Scan.up (fun i => !(freq < frequency i && frequency i != cpufreqTableEnd))
      freqTabSize 0).found with
  | none =>
    have := Scan.of_found_up_none h (show 0 ≤ 10 by omega) (by decide)
    simp [(frequency_eq_end_iff (Nat.le_refl 10)).mpr rfl] at this
  | some k =>
    obtain ⟨hk, hstop, hbefore⟩ := Scan.of_found_up_some h
    unfold freqTabSize at hk
    have hbefore : ∀ i, i < k → freq < frequency i := fun i hi => by
      have := hbefore i (Nat.zero_le i) hi
      simp only [Bool.not_eq_false', Bool.and_eq_true, decide_eq_true_eq] at this
      exact this.1
    have hstop : k < 10 → frequency k ≤ freq := fun hlt => by
      simpa [frequency_ne_end hlt] using hstop
    refine ⟨k, rfl, ⟨Nat.pos_of_ne_zero ?_, by omega⟩, hstop, hbefore⟩
    rintro rfl
    exact absurd (hstop (by omega)) (not_le.mpr hfreq)

theorem scan_enabled (s : Dvfs) (hk : k ≤ 10) :
    ∃ m, (Scan.up (fun i => !(s.activeStates i == 0 && frequency i != cpufreqTableEnd))
        (freqTabSize - k) k).found = some m ∧ (k ≤ m ∧ m ≤ 10) ∧ (m < 10 → s.activeStates m ≠ 0) ∧
      ∀ i, k ≤ i → i < m → s.activeStates i = 0 := by
  unfold freqTabSize
  cases h : (Scan.up (fun i => !(s.activeStates i == 0 && frequency i != cpufreqTableEnd))
      (11 - k) k).found with
  | none =>
    have := Scan.of_found_up_none h hk (by omega)
    simp [(frequency_eq_end_iff (Nat.le_refl 10)).mpr rfl] at this
  | some m =>
    obtain ⟨hm, hstop, hbefore⟩ := Scan.of_found_up_some h
    refine ⟨m, rfl, by omega, fun hlt => ?_, fun i hlo hhi => ?_⟩
    · simpa [frequency_ne_end hlt] using hstop
    · have := hbefore i hlo hhi
      simp only [Bool.not_eq_false', Bool.and_eq_true, beq_iff_eq] at this
      exact this.1

theorem backIndex_of_eq (hm : m < 10) (h : freq = frequency m) : backIndex freq m = m := by
  have hstay : ¬(m > 0 ∧ freq ≠ frequency m) := fun hback => hback.2 h
  simp only [backIndex, if_neg hstay, if_neg (frequency_ne_end hm)]

theorem backIndex_of_ne (hpos : 0 < m) (hm : m ≤ 10) (h : freq ≠ frequency m) :
    backIndex freq m = m - 1 := by
  have hne : frequency (m - 1) ≠ cpufreqTableEnd := frequency_ne_end (by omega)
  simp only [backIndex, if_pos (show m > 0 ∧ freq ≠ frequency m from ⟨hpos, h⟩), if_neg hne]

/-- The function returns, from an enabled level. -/
theorem s5pc11xTargetFreqIndex_located (hcur : s.Enabled s.cpufreqIndex) (freq : Nat) :
    ∃ i s', s.s5pc11xTargetFreqIndex freq = some (i, s') ∧ s.Located freq i := by
  rw [s5pc11xTargetFreqIndex]
  split
  next hfreq => exact ⟨_, _, rfl, .top hfreq⟩
  next hfreq =>
    split
    next hsame => exact ⟨_, _, rfl, .same hcur hsame⟩
    next hother =>
      have hfreq := not_le.mp hfreq
      obtain ⟨k, hk, ⟨hpos, hk10⟩, hkfreq, hbefore⟩ := scan_freq hfreq
      obtain ⟨m, hm, ⟨hkm, hm10⟩, hactive, hskip⟩ := s.scan_enabled hk10
      refine ⟨clipLevel (backIndex freq m) maxfreqlevel, _,
        by simp only [hk, Option.bind_eq_bind, Option.bind_some, hm]; rfl, ?_⟩
      by_cases heq : freq = frequency m
      · -- the end marker is no frequency, and a slower level than `k` does not have this one
        have hlt : m < 10 := by
          refine lt_of_le_of_ne hm10 fun h => ?_
          subst h
          rw [heq] at hfreq
          exact absurd hfreq (by decide)
        rw [backIndex_of_eq hlt heq, clipLevel_of_le (by omega)]
        exact .same ⟨hlt, hactive hlt⟩ heq.symm
      · rw [backIndex_of_ne (by omega) hm10 heq, clipLevel_of_le (by omega)]
        exact .back hbefore hkfreq hpos hkm hm10 hactive hskip heq

/-- An enabled level that is fast enough is the right one if the next one is not. -/
theorem isTarget_of_next (hi : s.Enabled i) (hfreq : freq ≤ frequency i)
    (hnext : i < 9 → frequency (i + 1) < freq) : s.IsTarget freq i := by
  have hi10 := hi.1
  refine ⟨hi, .inl ⟨hfreq, fun j hj hle => (frequency_le_iff hi10 hj.1).mpr ?_⟩⟩
  have hj10 := hj.1
  by_contra hlt
  have := (frequency_le_iff hj.1 (by omega)).mpr (show i + 1 ≤ j by omega)
  omega

/-- The level that has the frequency. -/
theorem isTarget_same (hk : s.Enabled k) (hfreq : frequency k = freq) : s.IsTarget freq k := by
  refine isTarget_of_next hk (by omega) fun hlt => ?_
  rw [← hfreq]
  exact (frequency_lt_iff (by omega) hk.1).mpr (by omega)

theorem noHole_top_iff (hfreq : frequency 0 ≤ freq) : s.NoHole freq ↔ s.Enabled 0 := by
  constructor
  · rintro (⟨k, hk, hkfreq⟩ | ⟨k, hk, -, -, hlt⟩ | ⟨h, -⟩ | ⟨-, hlt⟩)
    · obtain rfl : k = 0 := by
        have := (frequency_le_iff (show 0 < 10 by omega) hk.1).mp (hfreq.trans hkfreq.ge)
        omega
      exact hk
    · have := frequency_le_zero hk.1
      omega
    · exact h
    · have := frequency_le_zero (show 9 < 10 by decide)
      omega
  · intro h
    rcases hfreq.eq_or_lt with heq | hlt
    · exact .inl ⟨0, h, heq⟩
    · exact .inr (.inr (.inl ⟨h, hlt⟩))

theorem isTarget_top_iff (hfreq : frequency 0 ≤ freq) : s.IsTarget freq 0 ↔ s.Enabled 0 := by
  refine ⟨fun h => h.1, fun h => ?_⟩
  rcases hfreq.eq_or_lt with heq | hlt
  · exact isTarget_same h heq
  · exact ⟨h,
      .inr ⟨fun j hj => (frequency_le_zero hj.1).trans_lt hlt, fun j hj => frequency_le_zero hj.1⟩⟩

/-- The level before the one at which the second scan has stopped is right exactly if that
scan has not skipped anything and the level is enabled. -/
theorem isTarget_back_iff (hbefore : ∀ i, i < k → freq < frequency i)
    (hkfreq : k < 10 → frequency k ≤ freq) (hpos : 0 < k) (hkm : k ≤ m) (hm : m ≤ 10)
    (hactive : m < 10 → s.activeStates m ≠ 0)
    (hskip : ∀ i, k ≤ i → i < m → s.activeStates i = 0) (hne : freq ≠ frequency m) :
    s.IsTarget freq (m - 1) ↔ s.NoHole freq := by
  constructor
  · rintro ⟨⟨h10, henabled⟩, -⟩
    obtain rfl : m = k := by
      by_contra hmk
      exact henabled (hskip (m - 1) (by omega) (by omega))
    have habove := hbefore (m - 1) (by omega)
    rcases hm.eq_or_lt with rfl | hlt
    · exact .inr (.inr (.inr ⟨⟨h10, henabled⟩, habove⟩))
    · refine .inr (.inl ⟨m - 1, ⟨h10, henabled⟩, ?_, ?_, habove⟩)
      · rw [Nat.sub_add_cancel hpos]
        exact ⟨hlt, hactive hlt⟩
      · rw [Nat.sub_add_cancel hpos]
        omega
  · -- an enabled level `k` is where the second scan stops
    have hstop : s.Enabled k → m = k := fun hk => by
      by_contra hmk
      exact hk.2 (hskip k le_rfl (by omega))
    have hfast : ∀ {j}, j < 10 → frequency j ≤ freq → k ≤ j := fun {j} _ hle => by
      by_contra hjk
      have := hbefore j (by omega)
      omega
    have hslow : ∀ {j}, j < 10 → freq ≤ frequency j → k < 10 → j ≤ k := fun hj hle hk10 =>
      (frequency_le_iff hk10 hj).mp ((hkfreq hk10).trans hle)
    rintro (⟨j, hj, hjfreq⟩ | ⟨j, hj, hj', hlo, hhi⟩ | ⟨-, hlt⟩ | ⟨h9, hlt⟩)
    · have hkj := hfast hj.1 hjfreq.le
      have hj10 := hj.1
      obtain rfl : j = k := le_antisymm (hslow hj.1 hjfreq.ge (by omega)) hkj
      rw [hstop hj] at hne
      exact absurd hjfreq.symm hne
    · have hkj := hfast hj'.1 hlo.le
      have hj10 := hj'.1
      have hjk : k ≠ j := fun h => by
        subst h
        omega
      have hle := hslow hj.1 hhi.le (by omega)
      obtain rfl : k = j + 1 := by omega
      rw [hstop hj']
      exact isTarget_of_next hj hhi.le fun _ => hlo
    · have := hbefore 0 hpos
      omega
    · have hk : k = 10 := by
        by_contra hk
        have := hslow (show 9 < 10 by omega) hlt.le (by omega)
        obtain rfl : k = 9 := by omega
        omega
      obtain rfl : m = 10 := by omega
      exact isTarget_of_next h9 hlt.le fun h => by omega

/-- From an enabled level, the level for a frequency is the slowest enabled one that is
fast enough, or else the fastest, exactly if the levels next to the frequency are enabled. -/
theorem target_freq_index_iff (hcur : s.Enabled s.cpufreqIndex) (freq : Nat) :
    (∃ i s', s.s5pc11xTargetFreqIndex freq = some (i, s') ∧ s.IsTarget freq i) ↔ s.NoHole freq := by
  obtain ⟨i, s', hres, hi⟩ := s5pc11xTargetFreqIndex_located hcur freq
  have hiff : (∃ i s', s.s5pc11xTargetFreqIndex freq = some (i, s') ∧ s.IsTarget freq i) ↔
      s.IsTarget freq i := by
    refine ⟨fun ⟨i', s'', hres', h⟩ => ?_, fun h => ⟨i, s', hres, h⟩⟩
    rw [hres] at hres'
    cases hres'
    exact h
  rw [hiff]
  cases hi with
  | top hfreq => rw [isTarget_top_iff hfreq, noHole_top_iff hfreq]
  | same hk hfreq => exact ⟨fun _ => .inl ⟨i, hk, hfreq⟩, fun _ => isTarget_same hk hfreq⟩
  | back hbefore hkfreq hpos hkm hm hactive hskip hne =>
    exact isTarget_back_iff hbefore hkfreq hpos hkm hm hactive hskip hne

/-- 500 MHz lies between two levels that are enabled by default. -/
theorem target_freq_index_500MHZ :
    ∃ i s', (init fun _ => 0).s5pc11xTargetFreqIndex 500000 = some (i, s') ∧
      (init fun _ => 0).IsTarget 500000 i :=
  (target_freq_index_iff
    ⟨show 6 < 10 by decide, show defaultStates (fun _ => 0) 6 ≠ 0 by decide⟩ 500000).mpr
    (.inr (.inl ⟨6, ⟨by decide, show defaultStates (fun _ => 0) 6 ≠ 0 by decide⟩,
      ⟨by decide, show defaultStates (fun _ => 0) 7 ≠ 0 by decide⟩, by decide, by decide⟩))

/-- The default table at 1000 MHz, the fastest level that it enables. -/
def fastestDefault : Dvfs := { init fun _ => 0 with cpufreqIndex := 4 }

/-- For 1200 MHz the level of 1120 MHz is found, which is not enabled. -/
theorem target_freq_index_hole : fastestDefault.Enabled fastestDefault.cpufreqIndex ∧
    (fastestDefault.s5pc11xTargetFreqIndex 1200000).map (·.1) = some 3 ∧
    ¬fastestDefault.IsTarget 1200000 3 := by
  refine ⟨⟨show 4 < 10 by decide, show defaultStates (fun _ => 0) 4 ≠ 0 by decide⟩,
    by decide +kernel, fun h => h.1.2 rfl⟩

end AndroidKernel.CpuFreq.Dvfs
