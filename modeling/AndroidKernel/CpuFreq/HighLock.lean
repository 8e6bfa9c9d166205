import AndroidKernel.CpuFreq.Governor
import AndroidKernel.Lib.Runs

/-!
# Locks as frequency floors

While a token is held, the governor should not choose a level that is slower than the one
locked. The limit is right as long as the launcher's token is not locked at the fastest
level, where its level wraps. But a step down searches on from the limit for an active
level, and may then go below it.
-/

namespace AndroidKernel.CpuFreq

open Function List Option

/-! ## Levels and tokens -/

/-- The place of a level in the table. -/
def FreqLevel.level : FreqLevel → Nat
  | lev1400MHZ => 0
  | lev1300MHZ => 1
  | lev1200MHZ => 2
  | lev1120MHZ => 3
  | lev1000MHZ => 4
  | lev800MHZ => 5
  | lev600MHZ => 6
  | lev400MHZ => 7
  | lev200MHZ => 8
  | lev100MHZ => 9

theorem getDvfsPerfLevel_eq (l : FreqLevel) : getDvfsPerfLevel l = some l.level := by
  cases l <;> decide

theorem FreqLevel.level_le (l : FreqLevel) : l.level ≤ 9 := by
  cases l <;> decide

variable (w : BitVec 32) (t : LockToken) (i : Nat)

/-- The level that a lock guarantees: one level faster for the launcher's token, but none
beyond the fastest. -/
def floorLevel (l : FreqLevel) : Nat :=
  if t = dvfsLockToken6 then l.level - 1 else l.level

theorem floorLevel_le (l : FreqLevel) : floorLevel t l ≤ 9 := by
  have := l.level_le
  unfold floorLevel
  split <;> omega

/-- The level that the driver keeps is that one, unless it wraps. -/
theorem lockLevel_eq {t : LockToken} {l : FreqLevel} (h : ¬(t = dvfsLockToken6 ∧ l = .lev1400MHZ)) :
    Dvfs.lockLevel t l.level = floorLevel t l := by
  unfold Dvfs.lockLevel floorLevel
  split
  next ht =>
    have hpos : 0 < l.level := by
      cases l with
      | lev1400MHZ => exact absurd ⟨ht, rfl⟩ h
      | _ => decide
    have := l.level_le
    unfold ulong
    omega
  next => rfl

/-- The bit of a token. -/
theorem getLsbD_token : (1#32 <<< t.val).getLsbD i = decide (i = t.val) := by
  rw [BitVec.getLsbD_shiftLeft, BitVec.getLsbD_one, Bool.eq_iff_iff]
  simp only [Bool.and_eq_true, Bool.not_eq_true', decide_eq_true_eq, decide_eq_false_iff_not]
  omega

/-! ## The limit -/

/-- A loop that keeps the lower of its limit and each value. -/
theorem foldl_lower {α : Type} (v : α → Nat) (l : List α) (limit : Nat) :
    let low := l.foldl (fun limit a => if v a < limit then v a else limit) limit
    low ≤ limit ∧ (∀ a ∈ l, low ≤ v a) ∧ (low = limit ∨ ∃ a ∈ l, low = v a) := by
  induction l generalizing limit with
  | nil => exact ⟨le_rfl, fun a ha => absurd ha not_mem_nil, .inl rfl⟩
  | cons a l ih =>
    rw [foldl_cons]
    obtain ⟨hle, hall, hlow⟩ := ih (if v a < limit then v a else limit)
    have hfirst : (if v a < limit then v a else limit) ≤ v a := by
      split <;> omega
    have hlimit : (if v a < limit then v a else limit) ≤ limit := by
      split <;> omega
    refine ⟨hle.trans hlimit, forall_mem_cons.mpr ⟨hle.trans hfirst, hall⟩, ?_⟩
    rcases hlow with hlow | ⟨b, hb, hlow⟩
    · rw [hlow]
      split
      next => exact .inr ⟨a, mem_cons_self, rfl⟩
      next => exact .inl rfl
    · exact .inr ⟨b, mem_cons_of_mem a hb, hlow⟩

theorem lowestLockval_isLeast {lockval : LockToken → Nat} (h : ∀ t, lockval t ≤ 9) :
    IsLeast (Set.range lockval) (Dvfs.lowestLockval lockval 9) := by
  obtain ⟨_, hall, hlow⟩ := foldl_lower lockval (finRange 9) 9
  have hlower : ∀ t, Dvfs.lowestLockval lockval 9 ≤ lockval t := fun t =>
    hall t (mem_finRange t)
  refine ⟨?_, fun n ⟨t, ht⟩ => ht ▸ hlower t⟩
  rcases hlow with hlow | ⟨t, _, hlow⟩
  · -- every level is the slowest
    refine ⟨0, Nat.le_antisymm ?_ (hlower 0)⟩
    rw [Dvfs.lowestLockval, hlow]
    exact h 0
  · exact ⟨t, hlow.symm⟩

/-- One value of a table goes down. -/
theorem isLeast_update {v : LockToken → Nat} {limit n : Nat} (h : IsLeast (Set.range v) limit)
    (t : LockToken) (hn : n ≤ v t) :
    IsLeast (Set.range (update v t n)) (if n < limit then n else limit) := by
  have hlow : (if n < limit then n else limit) ≤ n := by
    split <;> omega
  have hlimit : (if n < limit then n else limit) ≤ limit := by
    split <;> omega
  refine ⟨?_, ?_⟩
  · split
    next => exact ⟨t, update_self t n v⟩
    next hge =>
      obtain ⟨t', ht'⟩ := h.1
      by_cases htt : t' = t
      · subst htt
        refine ⟨t', (update_self t' n v).trans ?_⟩
        omega
      · exact ⟨t', (update_of_ne htt n v).trans ht'⟩
  · rintro _ ⟨t', rfl⟩
    by_cases htt : t' = t
    · rw [htt, update_self]
      exact hlow
    · rw [update_of_ne htt]
      exact hlimit.trans (h.2 ⟨t', rfl⟩)

/-! ## What the driver keeps of the locks -/

/-- Which tokens are held, and at what level. -/
abbrev Holds := LockToken → Option FreqLevel

/-- The token word has the bits of the tokens that are held. -/
structure Tokens (w : BitVec 32) (held : Holds) : Prop where
  bit : ∀ t : LockToken, w.getLsbD t.val = (held t).isSome
  other : ∀ i, 9 ≤ i → w.getLsbD i = false

namespace Tokens

variable {w : BitVec 32} {held : Holds}

theorem eq_zero_iff (h : Tokens w held) : w = 0#32 ↔ ∀ t, held t = none := by
  constructor
  · intro hzero t
    have := h.bit t
    rw [hzero, BitVec.getLsbD_zero] at this
    exact not_isSome_iff_eq_none.mp (Bool.eq_false_iff.mp this.symm)
  · intro hnone
    refine BitVec.eq_of_getLsbD_eq fun i _ => ?_
    rw [BitVec.getLsbD_zero]
    rcases Nat.lt_or_ge i 9 with hi | hi
    · have := h.bit ⟨i, hi⟩
      rw [hnone] at this
      exact this
    · exact h.other i hi

/-- The bit of one token changes. -/
theorem set {w' : BitVec 32} {t : LockToken} {v : Option FreqLevel} (h : Tokens w held)
    (hw : ∀ i < 32, w'.getLsbD i = if i = t.val then v.isSome else w.getLsbD i) :
    Tokens w' (update held t v) where
  bit t' := by
    rw [hw _ (by omega)]
    split
    next ht => rw [Fin.ext ht, update_self]
    next ht => rw [update_of_ne fun heq => ht (congrArg _ heq), h.bit]
  other i hi := by
    rcases Nat.lt_or_ge i 32 with hlt | hge
    · rw [hw i hlt, if_neg (by omega), h.other i hi]
    · exact BitVec.getLsbD_of_ge w' i hge

theorem lock (h : Tokens w held) (t : LockToken) (l : FreqLevel) :
    Tokens (w ||| 1#32 <<< t.val) (update held t (some l)) :=
  h.set fun i _ => by
    rw [BitVec.getLsbD_or, getLsbD_token]
    split <;> simp [*]

theorem unlock (h : Tokens w held) (t : LockToken) :
    Tokens (w &&& ~~~(1#32 <<< t.val)) (update held t none) :=
  h.set fun i hi => by
    rw [BitVec.getLsbD_and, BitVec.getLsbD_not, getLsbD_token]
    split <;> simp [*]

end Tokens

/-- The level of each token; a free one is at the slowest. -/
def lockvals (held : Holds) (t : LockToken) : Nat := (held t).elim 9 (floorLevel t)

theorem lockvals_le (held : Holds) (t : LockToken) : lockvals held t ≤ 9 := by
  unfold lockvals
  cases held t with
  | none => exact Nat.le_refl 9
  | some l => exact floorLevel_le t l

theorem lockvals_of_none {held : Holds} {t : LockToken} (h : held t = none) :
    lockvals held t = 9 := by
  rw [lockvals, h]
  rfl

theorem lockvals_update (held : Holds) (t : LockToken) (o : Option FreqLevel) :
    lockvals (update held t o) = update (lockvals held) t (o.elim 9 (floorLevel t)) := by
  funext t'
  by_cases ht : t' = t
  · subst ht
    rw [lockvals, update_self, update_self]
  · rw [lockvals, update_of_ne ht, update_of_ne ht]
    rfl

/-- The limit is the lowest level. -/
structure Locks (d : Dvfs) (held : Holds) : Prop where
  tokens : Tokens d.highLockToken held
  lockval : d.dvfslockval = lockvals held
  least : (∃ t, held t ≠ none) → IsLeast (Set.range (lockvals held)) d.highLockLimit
  free : (∀ t, held t = none) → 9 ≤ d.highLockLimit

namespace Locks

variable {d : Dvfs} {held : Holds} {t : LockToken} {l : FreqLevel}

section

variable (h : Locks d held)

include h

/-- While a token is held, the limit is at most its level. -/
theorem limit_le (ht : held t = some l) : d.highLockLimit ≤ floorLevel t l := by
  have hheld : held t ≠ none := by
    rw [ht]
    exact some_ne_none l
  have hle := (h.least ⟨t, hheld⟩).2 ⟨t, rfl⟩
  rw [lockvals, ht] at hle
  exact hle

/-- The limit is the slowest level that keeps all floors. -/
theorem le_limit_iff (hheld : ∃ t, held t ≠ none) {i : Nat} (hi : i ≤ 9) :
    i ≤ d.highLockLimit ↔ ∀ t l, held t = some l → i ≤ floorLevel t l := by
  refine ⟨fun hle t l ht => hle.trans (h.limit_le ht), fun hall => ?_⟩
  obtain ⟨t, ht⟩ := (h.least hheld).1
  rw [← ht, lockvals]
  cases hl : held t with
  | none => exact hi
  | some l => exact hall t l hl

theorem limit_le_nine (hheld : ∃ t, held t ≠ none) : d.highLockLimit ≤ 9 := by
  obtain ⟨t, ht⟩ := (h.least hheld).1
  exact ht ▸ lockvals_le held t

/-- A new lock lowers the limit to its level. -/
theorem least_lock (hfree : held t = none) : IsLeast (Set.range (lockvals (update held t (some l))))
      (if floorLevel t l < d.highLockLimit then floorLevel t l else d.highLockLimit) := by
  have hlevel := floorLevel_le t l
  have hold := lockvals_of_none hfree
  rw [lockvals_update]
  by_cases hheld : ∃ t, held t ≠ none
  · exact isLeast_update (h.least hheld) t (by rw [hold]; exact hlevel)
  -- with no other lock every level is the slowest, and the limit is not below it
  have hnone : ∀ t, held t = none := not_exists_not.mp hheld
  have hleast : IsLeast (Set.range (lockvals held)) 9 :=
    ⟨⟨t, hold⟩, fun n ⟨t', ht'⟩ => by rw [← ht', lockvals_of_none (hnone t')]⟩
  have hsame : (if floorLevel t l < d.highLockLimit then floorLevel t l else d.highLockLimit) =
      if floorLevel t l < 9 then floorLevel t l else 9 := by
    have := h.free hnone
    split <;> split <;> omega
  rw [hsame]
  exact isLeast_update hleast t (by rw [hold]; exact hlevel)

/-- The three variables after a lock. -/
theorem taken (hfree : held t = none) : Locks
    { d with
      highLockToken := d.highLockToken ||| 1#32 <<< t.val
      dvfslockval := update d.dvfslockval t (floorLevel t l)
      highLockLimit := if floorLevel t l < d.highLockLimit then floorLevel t l
        else d.highLockLimit } (update held t (some l)) := by
  refine ⟨h.tokens.lock t l, ?_, fun _ => h.least_lock hfree, fun hnone => ?_⟩
  · rw [lockvals_update, ← h.lockval]
    rfl
  · have := hnone t
    rw [update_self] at this
    cases this

end

theorem init (behind : Nat → Int) : Locks (.init behind) fun _ => none where
  tokens := ⟨fun _ => BitVec.getLsbD_zero, fun _ _ => BitVec.getLsbD_zero⟩
  lockval := rfl
  least := fun ⟨_, ht⟩ => absurd rfl ht
  free _ := show 9 ≤ 12 by decide

/-- The locks depend on no other field. -/
theorem congr (h : Locks d held) {d' : Dvfs} (htoken : d'.highLockToken = d.highLockToken)
    (hlockval : d'.dvfslockval = d.dvfslockval) (hlimit : d'.highLockLimit = d.highLockLimit) :
    Locks d' held where
  tokens := htoken ▸ h.tokens
  lockval := hlockval.trans h.lockval
  least := hlimit ▸ h.least
  free := hlimit ▸ h.free

end Locks

theorem Dvfs.setDvfsPerfLevel_eq (d : Dvfs) (n : Nat) :
    ∃ i, i ≤ d.cpufreqIndex ∧ d.setDvfsPerfLevel n = { d with cpufreqIndex := i } := by
  unfold setDvfsPerfLevel
  split
  next h => exact ⟨n, h.le, rfl⟩
  next => exact ⟨d.cpufreqIndex, le_rfl, rfl⟩

namespace Locks

variable {d : Dvfs} {held : Holds} {t : LockToken} {l : FreqLevel}

theorem lock (h : Locks d held) (hfree : held t = none)
    (hwrap : ¬(t = dvfsLockToken6 ∧ l = .lev1400MHZ)) :
    Locks (d.s5pc110LockDvfsHighLevel t l) (update held t (some l)) := by
  rw [Dvfs.s5pc110LockDvfsHighLevel, getDvfsPerfLevel_eq, elim_some, lockLevel_eq hwrap,
    Dvfs.lockAt]
  obtain ⟨i, -, hi⟩ := Dvfs.setDvfsPerfLevel_eq
    { d with
      highLockToken := d.highLockToken ||| (1#32 <<< t.val)
      dvfslockval := update d.dvfslockval t (floorLevel t l)
      highLockLimit := if floorLevel t l < d.highLockLimit then floorLevel t l
        else d.highLockLimit } (floorLevel t l)
  rw [hi]
  exact (h.taken hfree).congr rfl rfl rfl

theorem unlock (h : Locks d held) (t : LockToken) :
    Locks (d.s5pc110UnlockDvfsHighLevel t) (update held t none) := by
  have htokens := h.tokens.unlock t
  have hlockval : update d.dvfslockval t 9 = lockvals (update held t none) := by
    rw [lockvals_update, h.lockval]
    rfl
  refine ⟨htokens, hlockval, fun ⟨t', ht'⟩ => ?_, fun hnone => ?_⟩
  · have hlimit : (d.s5pc110UnlockDvfsHighLevel t).highLockLimit =
        Dvfs.lowestLockval (update d.dvfslockval t 9) 9 :=
      if_pos fun hzero => ht' (htokens.eq_zero_iff.mp hzero t')
    rw [hlimit, hlockval]
    exact lowestLockval_isLeast (lockvals_le _)
  · have hlimit : (d.s5pc110UnlockDvfsHighLevel t).highLockLimit = 9 :=
      if_neg (not_not.mpr (htokens.eq_zero_iff.mpr hnone))
    exact hlimit.ge

end Locks

/-! ## Levels and transitions stay in the table -/

structure Levels (d : Dvfs) : Prop where
  index : d.cpufreqIndex ≤ 9
  down : ∀ i, i ≤ 9 → d.transitionState.down i ≤ 9
  up : ∀ i, i ≤ 9 → d.transitionState.up i ≤ 9

namespace Levels

variable {d d' : Dvfs}

theorem congr (h : Levels d) (hindex : d'.cpufreqIndex = d.cpufreqIndex)
    (htransition : d'.transitionState = d.transitionState) : Levels d' :=
  ⟨hindex ▸ h.index, htransition ▸ h.down, htransition ▸ h.up⟩

theorem set_index (h : Levels d) {i : Nat} (hi : i ≤ 9) : Levels { d with cpufreqIndex := i } :=
  ⟨hi, h.down, h.up⟩

theorem setDvfsPerfLevel (h : Levels d) (n : Nat) : Levels (d.setDvfsPerfLevel n) := by
  obtain ⟨i, hi, heq⟩ := d.setDvfsPerfLevel_eq n
  rw [heq]
  exact h.set_index (hi.trans h.index)

theorem refresh (h : Levels d) : Levels d.refresh.1 := by
  by_cases hupdate : d.expUpdateStates = 0
  · rw [Dvfs.refresh, if_neg (not_not.mpr hupdate)]
    exact h
  · rw [Dvfs.refresh_eq hupdate]
    exact ⟨h.index, fun i hi => ((updateTransitionStates_down _ hi).bounds hi).2,
      fun i hi => Nat.le_of_lt_succ ((updateTransitionStates_up _ hi).lt_ten hi)⟩

end Levels

end AndroidKernel.CpuFreq
