import AndroidKernel.Power.Wakelock

/-!
# The expire timer

`TimerOk` says what `expire_timer` is good for: it is off while a lock without a
timeout is held, it is armed for a time not before any lock lapses, or all locks have
lapsed and the suspend work was queued. Every operation but the firing of the timer
computes it anew from what `has_wake_lock_locked` returns (`scanLocks_spec`); the
firing relies on what was computed before.
-/

namespace AndroidKernel.Wakelock

open List Option

variable {s s' : State} {l l' : LockId} {lock lock' old : WakeLock} {type : LockType} {n m : Int}
  {op : Op}

/-! ## The lists -/

/-- The lock is active. -/
def State.Held (s : State) (type : LockType) (l : LockId) (lock : WakeLock) : Prop :=
  s.locks.get l = some lock ∧ lock.type = type ∧ lock.active = true

/-- The lists of active locks have just the locks that are active. -/
structure State.ListsOk (s : State) : Prop where
  nodup : ∀ type, (s.activeWakeLocks type).Nodup
  mem : ∀ type l, l ∈ s.activeWakeLocks type ↔ ∃ lock, s.Held type l lock

/-- An assignment to one lock. -/
theorem held_set (hl : s.locks.get l = some old) (hlocks : s'.locks = s.locks.set l lock) :
    s'.Held type l' lock' ↔ (l' = l ∧ lock' = lock ∧ lock.type = type ∧ lock.active = true) ∨
      (l' ≠ l ∧ s.Held type l' lock') := by
  unfold State.Held
  rw [hlocks, Heap.get_set_eq_some, hl]
  constructor
  · rintro ⟨⟨rfl, rfl, -⟩ | ⟨hne, hget⟩, h⟩
    · exact .inl ⟨rfl, rfl, h⟩
    · exact .inr ⟨hne, hget, h⟩
  · rintro (⟨rfl, rfl, h⟩ | ⟨hne, hget, h⟩)
    · exact ⟨.inl ⟨rfl, rfl, rfl⟩, h⟩
    · exact ⟨.inr ⟨hne, hget⟩, h⟩

/-- The lists follow such an assignment. -/
theorem State.ListsOk.set (h : s.ListsOk) (hl : s.locks.get l = some old)
    (hlocks : s'.locks = s.locks.set l lock) (hnodup : ∀ type, (s'.activeWakeLocks type).Nodup)
    (hmem : ∀ type l', l' ∈ s'.activeWakeLocks type ↔
      (l' = l ∧ lock.type = type ∧ lock.active = true) ∨ (l' ≠ l ∧ l' ∈ s.activeWakeLocks type)) :
    s'.ListsOk where
  nodup := hnodup
  mem type l' := by
    rw [hmem, h.mem]
    constructor
    · rintro (⟨rfl, hlock⟩ | ⟨hne, x, hx⟩)
      · exact ⟨lock, (held_set hl hlocks).mpr (.inl ⟨rfl, rfl, hlock⟩)⟩
      · exact ⟨x, (held_set hl hlocks).mpr (.inr ⟨hne, hx⟩)⟩
    · rintro ⟨x, hx⟩
      rcases (held_set hl hlocks).mp hx with ⟨rfl, rfl, hlock⟩ | ⟨hne, hx⟩
      · exact .inl ⟨rfl, hlock⟩
      · exact .inr ⟨hne, x, hx⟩

theorem State.expireWakeLock_lists (h : s.ListsOk) (hl : s.locks.get l = some lock) :
    (s.expireWakeLock l lock).ListsOk := by
  refine h.set hl rfl (fun type => (h.nodup type).erase l) fun type l' => ?_
  show l' ∈ (s.activeWakeLocks type).erase l ↔ _
  rw [(h.nodup type).mem_erase_iff]
  simp

/-- An expired or unlocked lock is held no longer, all others are. -/
theorem State.expireWakeLock_held (hl : s.locks.get l = some lock) :
    (s.expireWakeLock l lock).Held type l' lock' ↔ l' ≠ l ∧ s.Held type l' lock' := by
  rw [held_set hl rfl]
  simp

/-- What becomes of a lock that is taken. -/
theorem State.activate_locks (s : State) (l : LockId) (lock : WakeLock) (timeout : Option Int) :
    ∃ new, (s.activate l lock timeout).locks = s.locks.set l new ∧ new.type = lock.type ∧
      new.active = true ∧ new.autoExpire = timeout.isSome := by
  cases timeout <;> exact ⟨_, rfl, rfl, rfl, rfl⟩

/-- It is put at one end of the list of its type. -/
theorem State.activate_perm (s : State) (l : LockId) (lock : WakeLock) (timeout : Option Int)
    (type : LockType) : ((s.activate l lock timeout).activeWakeLocks type).Perm
      (if type = lock.type then l :: (s.activeWakeLocks type).erase l
        else (s.activeWakeLocks type).erase l) := by
  cases timeout with
  | none => exact .refl _
  | some t =>
    show (if type = lock.type then (s.activeWakeLocks type).erase l ++ [l] else _).Perm _
    split
    · exact perm_append_singleton l _
    · exact .refl _

theorem State.activate_lists (h : s.ListsOk) (hl : s.locks.get l = some lock)
    (timeout : Option Int) : (s.activate l lock timeout).ListsOk := by
  obtain ⟨new, hlocks, htype, hactive, -⟩ := s.activate_locks l lock timeout
  have herase : ∀ type l', l' ∈ (s.activeWakeLocks type).erase l ↔
      l' ≠ l ∧ l' ∈ s.activeWakeLocks type := fun type _ => (h.nodup type).mem_erase_iff
  refine h.set hl hlocks (fun type => ?_) fun type l' => ?_
  · rw [(s.activate_perm l lock timeout type).nodup_iff]
    split
    · exact nodup_cons.mpr ⟨fun hmem => ((herase type l).mp hmem).1 rfl, (h.nodup type).erase l⟩
    · exact (h.nodup type).erase l
  · rw [(s.activate_perm l lock timeout type).mem_iff, htype, hactive]
    split
    next heq =>
      rw [mem_cons, herase]
      simp [heq]
    next hne =>
      rw [herase]
      simp [Ne.symm hne]

/-! ## Scanning the locks -/

/-- What a scan of the locks of one type changes: locks that have lapsed may be
released. -/
structure Scanned (type : LockType) (s s' : State) : Prop where
  lists : s'.ListsOk
  jiffies : s'.jiffies = s.jiffies
  expireTimer : s'.expireTimer = s.expireTimer
  queued : s'.queued = s.queued
  held : ∀ l lock type', s'.Held type' l lock → s.Held type' l lock
  kept : ∀ l lock type', s.Held type' l lock → type' ≠ type ∨ lock.autoExpire = false ∨
    0 < s.timeLeft lock.expires → s'.Held type' l lock

theorem Scanned.timeLeft (h : Scanned type s s') (expires : Nat) :
    s'.timeLeft expires = s.timeLeft expires := by
  rw [State.timeLeft, State.timeLeft, h.jiffies]

theorem Scanned.trans {s₁ : State} (h : Scanned type s s₁) (h' : Scanned type s₁ s') :
    Scanned type s s' where
  lists := h'.lists
  jiffies := h'.jiffies.trans h.jiffies
  expireTimer := h'.expireTimer.trans h.expireTimer
  queued := h'.queued.trans h.queued
  held l lock type' hl := h.held l lock type' (h'.held l lock type' hl)
  kept l lock type' hl hk := h'.kept l lock type' (h.kept l lock type' hl hk)
    (h.timeLeft lock.expires ▸ hk)

theorem Scanned.expire (h : s.ListsOk) (hl : s.Held type l lock) (hauto : lock.autoExpire = true)
    (hlapsed : s.timeLeft lock.expires ≤ 0) : Scanned type s (s.expireWakeLock l lock) where
  lists := State.expireWakeLock_lists h hl.1
  jiffies := rfl
  expireTimer := rfl
  queued := rfl
  held l' lock' type' hl' := ((State.expireWakeLock_held hl.1).mp hl').2
  kept l' lock' type' hl' hk := by
    refine (State.expireWakeLock_held hl.1).mpr ⟨?_, hl'⟩
    rintro rfl
    cases hl.1.symm.trans hl'.1
    -- the lock that has lapsed is none of those
    rcases hk with hne | hno | hleft
    · exact hne (hl'.2.1.symm.trans hl.2.1)
    · rw [hauto] at hno
      cases hno
    · omega

/-- What `has_wake_lock_locked` returns. -/
structure Answer (type : LockType) (s : State) (n : Int) : Prop where
  cases : (n = -1 ∧ ∃ l lock, s.Held type l lock ∧ lock.autoExpire = false) ∨
    (0 ≤ n ∧ n < 2 ^ 31 ∧ ∀ l lock, s.Held type l lock →
      lock.autoExpire = true ∧ s.timeLeft lock.expires ≤ n)
  attained : 0 < n → ∃ l lock, s.Held type l lock ∧ s.timeLeft lock.expires = n

/-- The loop of `has_wake_lock_locked`, with the locks that it has passed accounted
for in `m`. -/
theorem scanLocks_spec {ls : List LockId} (h : s.ListsOk) (hnodup : ls.Nodup)
    (hls : ∀ l ∈ ls, l ∈ s.activeWakeLocks type) (hm : 0 ≤ m ∧ m < 2 ^ 31)
    (hpassed : ∀ l lock, s.Held type l lock → l ∉ ls →
      lock.autoExpire = true ∧ s.timeLeft lock.expires ≤ m)
    (hattained : 0 < m → ∃ l lock, s.Held type l lock ∧ l ∉ ls ∧ s.timeLeft lock.expires = m) :
    Scanned type s (State.scanLocks ls s m).1 ∧
      Answer type (State.scanLocks ls s m).1 (State.scanLocks ls s m).2 := by
  induction ls generalizing s m with
  | nil =>
    refine ⟨⟨h, rfl, rfl, rfl, fun _ _ _ h => h, fun _ _ _ h _ => h⟩, ?_, fun hpos => ?_⟩
    · exact .inr ⟨hm.1, hm.2, fun l lock hl => hpassed l lock hl (by simp)⟩
    · obtain ⟨l, lock, hl, -, htime⟩ := hattained hpos
      exact ⟨l, lock, hl, htime⟩
  | cons l ls ih =>
    obtain ⟨hnot, hnodup'⟩ := nodup_cons.mp hnodup
    obtain ⟨lock, hl⟩ := (h.mem type l).mp (hls l (by simp))
    unfold State.scanLocks
    rw [hl.1]
    dsimp only
    split
    next hauto =>
      split
      · -- the lock has lapsed
        rename_i hlapsed
        have hexp := Scanned.expire h hl hauto hlapsed
        have hheld : ∀ l' lock', (s.expireWakeLock l lock).Held type l' lock' ↔
            l' ≠ l ∧ s.Held type l' lock' := fun _ _ => State.expireWakeLock_held hl.1
        refine And.imp_left hexp.trans (ih hexp.lists hnodup' (fun l' hl' => ?_) hm
          (fun l' lock' hl' hout => ?_) (fun hpos => ?_))
        · obtain ⟨x, hx⟩ := (h.mem type l').mp (hls l' (by simp [hl']))
          refine (hexp.lists.mem type l').mpr ⟨x, (hheld l' x).mpr ⟨?_, hx⟩⟩
          rintro rfl
          exact hnot hl'
        · obtain ⟨hne, hl'⟩ := (hheld l' lock').mp hl'
          exact hpassed l' lock' hl' (by simp [hne, hout])
        · obtain ⟨l', lock', hl', hout, htime⟩ := hattained hpos
          simp only [mem_cons, not_or] at hout
          exact ⟨l', lock', (hheld l' lock').mpr ⟨hout.1, hl'⟩, hout.2, htime⟩
      · -- it has not, and may have the longest time left
        have hlt : s.timeLeft lock.expires < 2 ^ 31 := long_lt _
        refine ih h hnodup' (fun l' hl' => hls l' (by simp [hl'])) (by split <;> omega)
          (fun l' lock' hl' hout => ?_) (fun hpos => ?_)
        · by_cases heq : l' = l
          · subst heq
            cases hl.1.symm.trans hl'.1
            refine ⟨hauto, ?_⟩
            split <;> omega
          · have := hpassed l' lock' hl' (by simp [heq, hout])
            refine ⟨this.1, ?_⟩
            split <;> omega
        · split at hpos
          next hgt =>
            exact ⟨l, lock, hl, hnot, by rw [if_pos hgt]⟩
          next hgt =>
            obtain ⟨l', lock', hl', hout, htime⟩ := hattained hpos
            simp only [mem_cons, not_or] at hout
            exact ⟨l', lock', hl', hout.2, by rw [if_neg hgt]; exact htime⟩
    next hauto =>
      refine ⟨⟨h, rfl, rfl, rfl, fun _ _ _ h => h, fun _ _ _ h _ => h⟩, ?_, by omega⟩
      exact .inl ⟨rfl, l, lock, hl, by simpa using hauto⟩

theorem hasWakeLockLocked_spec (h : s.ListsOk) (type : LockType) :
    Scanned type s (s.hasWakeLockLocked type).1 ∧
      Answer type (s.hasWakeLockLocked type).1 (s.hasWakeLockLocked type).2 := by
  refine scanLocks_spec h (h.nodup type) (fun _ hl => hl) (by decide) (fun l lock hl hout => ?_)
    (fun hpos => absurd hpos (by decide))
  exact absurd ((h.mem type l).mpr ⟨lock, hl⟩) hout

/-! ## The timer -/

/-- The timer is fit for the locks that are held. -/
inductive State.TimerOk (s : State) : Prop
  /-- a lock without a timeout is held -/
  | held {l : LockId} {lock : WakeLock} : s.Held .suspend l lock → lock.autoExpire = false →
      s.expireTimer = none → TimerOk s
  /-- all locks will have lapsed when the timer fires -/
  | armed {t : Nat} : s.expireTimer = some t → (∀ l lock, s.Held .suspend l lock →
      lock.autoExpire = true ∧ s.timeLeft lock.expires ≤ s.timeLeft t) → TimerOk s
  /-- all locks have lapsed, and that was noticed -/
  | lapsed : s.expireTimer = none → (∀ l lock, s.Held .suspend l lock →
      lock.autoExpire = true ∧ s.timeLeft lock.expires ≤ 0) → s.queued = true → TimerOk s

/-- The lists and the timer. -/
structure State.Ok (s : State) : Prop where
  lists : s.ListsOk
  timer : s.TimerOk

/-- The locks are the same, and whatever the timer depends on. -/
theorem State.TimerOk.congr (h : s.TimerOk)
    (hheld : ∀ l lock, s'.Held .suspend l lock → s.Held .suspend l lock)
    (hkept : ∀ l lock, s.Held .suspend l lock → lock.autoExpire = false → s'.Held .suspend l lock)
    (hjiffies : s'.jiffies = s.jiffies) (htimer : s'.expireTimer = s.expireTimer)
    (hqueued : s'.queued = s.queued) : s'.TimerOk := by
  have htime : ∀ expires, s'.timeLeft expires = s.timeLeft expires := fun expires => by
    rw [State.timeLeft, State.timeLeft, hjiffies]
  cases h with
  | held hl hauto hnone => exact .held (hkept _ _ hl hauto) hauto (htimer.trans hnone)
  | armed ht hall =>
    refine .armed (htimer.trans ht) fun l lock hl => ?_
    rw [htime, htime]
    exact hall l lock (hheld l lock hl)
  | lapsed hnone hall hq =>
    refine .lapsed (htimer.trans hnone) (fun l lock hl => ?_) (hqueued.trans hq)
    rw [htime]
    exact hall l lock (hheld l lock hl)

/-- What `setExpireTimer` is given decides which of the three it is. -/
theorem setExpireTimer_ok (hlists : s.ListsOk) (hanswer : Answer .suspend s n) :
    (s.setExpireTimer n).Ok := by
  unfold State.setExpireTimer
  split
  · refine ⟨⟨hlists.nodup, hlists.mem⟩, .armed rfl fun l lock hl => ?_⟩
    rcases hanswer.cases with ⟨hn, -⟩ | ⟨-, hlt, hall⟩
    · omega
    · have htimer : State.timeLeft s (ulong (s.jiffies + n)) = n :=
        (long_ulong_add_sub _ _).trans (long_of_mem (by omega) hlt)
      exact ⟨(hall l lock hl).1, Int.le_trans (hall l lock hl).2 (Int.le_of_eq htimer.symm)⟩
  split
  next hzero =>
    refine ⟨⟨hlists.nodup, hlists.mem⟩, .lapsed rfl (fun l lock hl => ?_) rfl⟩
    rcases hanswer.cases with ⟨hn, -⟩ | ⟨-, -, hall⟩
    · omega
    · exact ⟨(hall l lock hl).1, hzero ▸ (hall l lock hl).2⟩
  · refine ⟨⟨hlists.nodup, hlists.mem⟩, ?_⟩
    rcases hanswer.cases with ⟨-, l, lock, hl, hauto⟩ | ⟨hn, -, -⟩
    · exact .held hl hauto rfl
    · omega

/-! ## The operations -/

theorem wakeLockInit_held {type' : LockType} :
    (s.wakeLockInit type).Held type' l lock ↔ s.Held type' l lock := by
  unfold State.Held State.wakeLockInit
  rw [Heap.get_alloc_eq_some]
  constructor
  · rintro ⟨⟨-, rfl⟩ | ⟨-, hget⟩, hlock⟩
    · cases hlock.2
    · exact ⟨hget, hlock⟩
  · rintro ⟨hget, hlock⟩
    exact ⟨.inr ⟨Nat.ne_of_lt (Heap.lt_next_of_get hget), hget⟩, hlock⟩

theorem wakeLockInit_lists (h : s.ListsOk) (type : LockType) : (s.wakeLockInit type).ListsOk := by
  refine ⟨h.nodup, fun type' l => ?_⟩
  simp only [wakeLockInit_held]
  exact h.mem type' l

/-- A suspend lock is taken, whatever the timer was. -/
theorem wakeLockInternal_suspend (h : s.ListsOk) (hl : s.locks.get l = some lock)
    (hsuspend : lock.type = .suspend) (timeout : Option Int) :
    (s.wakeLockInternal l lock timeout).Ok := by
  have hlists := State.activate_lists h hl timeout
  obtain ⟨new, hlocks, htype, hactive, hauto⟩ := s.activate_locks l lock timeout
  unfold State.wakeLockInternal
  rw [if_pos hsuspend]
  generalize s.activate l lock timeout = s₁ at hlists hlocks
  have hlists₁ : State.ListsOk { s₁ with queued := false } := ⟨hlists.nodup, hlists.mem⟩
  cases timeout with
  | some t =>
    obtain ⟨hscan, hanswer⟩ := hasWakeLockLocked_spec hlists₁ .suspend
    exact setExpireTimer_ok hscan.lists hanswer
  | none =>
    show State.Ok (State.setExpireTimer { s₁ with queued := false } (-1))
    refine setExpireTimer_ok hlists₁ ⟨.inl ⟨rfl, l, new, ?_, hauto⟩, by omega⟩
    exact (held_set hl hlocks).mpr (.inl ⟨rfl, rfl, htype.trans hsuspend, hactive⟩)

section

variable (h : s.Ok)

include h

theorem wakeLockInit_ok (type : LockType) : (s.wakeLockInit type).Ok :=
  ⟨wakeLockInit_lists h.lists type, h.timer.congr (fun _ _ => wakeLockInit_held.mp)
    (fun _ _ hl _ => wakeLockInit_held.mpr hl) rfl rfl rfl⟩

section

variable (hl : s.locks.get l = some lock)

include hl

theorem wakeLockDestroy_ok (hinactive : lock.active = false) : (s.wakeLockDestroy l).Ok := by
  have hne : ∀ {type l' lock'}, s.Held type l' lock' → l' ≠ l := by
    rintro type l' lock' h' rfl
    cases hl.symm.trans h'.1
    exact absurd h'.2.2 (by simp [hinactive])
  have hheld : ∀ type l' lock', (s.wakeLockDestroy l).Held type l' lock' ↔
      s.Held type l' lock' := by
    intro type l' lock'
    refine ⟨fun h' => ⟨(Heap.get_free_eq_some.mp h'.1).2, h'.2⟩, fun h' => ⟨?_, h'.2⟩⟩
    exact Heap.get_free_eq_some.mpr ⟨hne h', h'.1⟩
  refine ⟨⟨fun type => (h.lists.nodup type).erase l, fun type l' => ?_⟩, ?_⟩
  · show l' ∈ (s.activeWakeLocks type).erase l ↔ _
    simp only [hheld]
    rw [(h.lists.nodup type).mem_erase_iff, h.lists.mem]
    exact ⟨fun h' => h'.2, fun h' => ⟨hne h'.choose_spec, h'⟩⟩
  · exact h.timer.congr (fun l lock => (hheld _ l lock).mp)
      (fun l lock hl _ => (hheld _ l lock).mpr hl)
      rfl rfl rfl

theorem wakeLockInternal_ok (timeout : Option Int) : (s.wakeLockInternal l lock timeout).Ok := by
  by_cases hsuspend : lock.type = .suspend
  · exact wakeLockInternal_suspend h.lists hl hsuspend timeout
  obtain ⟨new, hlocks, htype, -⟩ := s.activate_locks l lock timeout
  -- the lock is of the other type, and no suspend lock before or after
  have hheld : ∀ l' lock', (s.activate l lock timeout).Held .suspend l' lock' ↔
      s.Held .suspend l' lock' := by
    intro l' lock'
    rw [held_set hl hlocks]
    constructor
    · rintro (⟨-, -, hty, -⟩ | ⟨-, hl'⟩)
      · exact absurd (htype.symm.trans hty) hsuspend
      · exact hl'
    · intro hl'
      refine .inr ⟨?_, hl'⟩
      rintro rfl
      cases hl.symm.trans hl'.1
      exact hsuspend hl'.2.1
  unfold State.wakeLockInternal
  rw [if_neg hsuspend]
  refine ⟨State.activate_lists h.lists hl timeout, h.timer.congr (fun l lock => (hheld l lock).mp)
    (fun l lock hl _ => (hheld l lock).mpr hl) ?_ ?_ ?_⟩
  all_goals cases timeout <;> rfl

theorem wakeUnlock_ok : (s.wakeUnlock l lock).Ok := by
  have hlists := State.expireWakeLock_lists h.lists hl
  unfold State.wakeUnlock
  split
  · obtain ⟨hscan, hanswer⟩ := hasWakeLockLocked_spec hlists .suspend
    exact setExpireTimer_ok hscan.lists hanswer
  next hidle =>
    refine ⟨hlists, h.timer.congr (fun l' lock' hl' => ((State.expireWakeLock_held hl).mp hl').2)
      (fun l' lock' hl' _ => (State.expireWakeLock_held hl).mpr ⟨?_, hl'⟩) rfl rfl rfl⟩
    rintro rfl
    cases hl.symm.trans hl'.1
    exact hidle hl'.2.1

end

/-- When the timer fires, all locks have lapsed; so there is no need to arm it again. -/
theorem fire_ok {t : Nat} (ht : s.expireTimer = some t) (hdue : s.timeLeft t ≤ 0) :
    (State.expireWakeLocks { s with expireTimer := none }).Ok := by
  have hall : ∀ l lock, s.Held .suspend l lock →
      lock.autoExpire = true ∧ s.timeLeft lock.expires ≤ 0 := by
    cases h.timer with
    | held _ _ hnone | lapsed hnone _ _ =>
      rw [hnone] at ht
      cases ht
    | armed ht' hall =>
      cases ht.symm.trans ht'
      exact fun l lock hl => ⟨(hall l lock hl).1, Int.le_trans (hall l lock hl).2 hdue⟩
  have hlists : State.ListsOk { s with expireTimer := none } := ⟨h.lists.nodup, h.lists.mem⟩
  obtain ⟨hscan, hanswer⟩ := hasWakeLockLocked_spec hlists .suspend
  unfold State.expireWakeLocks
  generalize State.hasWakeLockLocked { s with expireTimer := none } .suspend = r at hscan hanswer
  have hall' : ∀ l lock, r.1.Held .suspend l lock →
      lock.autoExpire = true ∧ r.1.timeLeft lock.expires ≤ 0 := by
    intro l lock hl
    rw [hscan.timeLeft]
    exact hall l lock (hscan.held l lock _ hl)
  have hzero : r.2 = 0 := by
    rcases hanswer.cases with ⟨-, l, lock, hl, hauto⟩ | ⟨hn, -, -⟩
    · rw [(hall' l lock hl).1] at hauto
      cases hauto
    · by_contra hne
      obtain ⟨l, lock, hl, htime⟩ := hanswer.attained (by omega)
      have := (hall' l lock hl).2
      omega
  dsimp only
  rw [if_pos hzero]
  exact ⟨⟨hscan.lists.nodup, hscan.lists.mem⟩, .lapsed hscan.expireTimer hall' rfl⟩

/-- No difference to the time of a lock or of the timer wraps when time goes on. -/
def State.InReach (s : State) (d : Nat) : Prop :=
  (∀ l lock, s.Held .suspend l lock → lock.autoExpire = true →
    -longMax < s.timeLeft lock.expires - d) ∧
  ∀ t, s.expireTimer = some t → -longMax < s.timeLeft t - d

theorem advance_ok {d : Nat} (hd : s.InReach d) :
    State.Ok { s with jiffies := ulong (s.jiffies + d) } := by
  have htime : ∀ expires : Nat, -longMax < s.timeLeft expires - d →
      State.timeLeft { s with jiffies := ulong (s.jiffies + d) } expires =
        s.timeLeft expires - d := by
    intro expires hlt
    show long ((expires : Int) - (ulong ((s.jiffies : Int) + d) : Int)) = s.timeLeft expires - d
    unfold longMax State.timeLeft at hlt
    unfold State.timeLeft
    unfold long ulong at *
    omega
  refine ⟨⟨h.lists.nodup, h.lists.mem⟩, ?_⟩
  cases h.timer with
  | held hl hauto hnone => exact .held hl hauto hnone
  | armed ht hall =>
    refine .armed ht fun l lock hl => ?_
    obtain ⟨hauto, hle⟩ := hall l lock hl
    rw [htime _ (hd.1 l lock hl hauto), htime _ (hd.2 _ ht)]
    exact ⟨hauto, by omega⟩
  | lapsed hnone hall hq =>
    refine .lapsed hnone (fun l lock hl => ?_) hq
    obtain ⟨hauto, hle⟩ := hall l lock hl
    rw [htime _ (hd.1 l lock hl hauto)]
    exact ⟨hauto, by omega⟩

/-! ## Runs -/

/-- Locks are destroyed only while they are inactive, and time does not go on so far
that a difference wraps. -/
def Allowed (s : State) : Op → Prop
  | .wakeLockDestroy l => ∀ lock, s.locks.get l = some lock → lock.active = false
  | .advance d => s.InReach d
  | _ => True

theorem step_ok (hop : Allowed s op) (hs : s.step op = some s') : s'.Ok := by
  cases op with
  | wakeLockInit type =>
    cases hs
    exact wakeLockInit_ok h type
  | wakeLockDestroy l =>
    obtain ⟨lock, hl, rfl⟩ := map_eq_some_iff.mp hs
    exact wakeLockDestroy_ok h hl (hop lock hl)
  | wakeLock l =>
    obtain ⟨lock, hl, rfl⟩ := map_eq_some_iff.mp hs
    exact wakeLockInternal_ok h hl none
  | wakeLockTimeout l timeout =>
    obtain ⟨lock, hl, rfl⟩ := map_eq_some_iff.mp hs
    exact wakeLockInternal_ok h hl (some timeout)
  | wakeUnlock l =>
    obtain ⟨lock, hl, rfl⟩ := map_eq_some_iff.mp hs
    exact wakeUnlock_ok h hl
  | hasWakeLock type =>
    cases hs
    obtain ⟨hscan, -⟩ := hasWakeLockLocked_spec h.lists type
    exact ⟨hscan.lists, h.timer.congr (fun l lock => hscan.held l lock _)
      (fun l lock hl hauto => hscan.kept l lock _ hl (.inr (.inl hauto)))
      hscan.jiffies hscan.expireTimer hscan.queued⟩
  | fire =>
    simp only [State.step] at hs
    split at hs
    next t ht =>
      split at hs
      next hdue =>
        cases hs
        exact fire_ok h ht hdue
      · cases hs
    · cases hs
  | advance d =>
    cases hs
    exact advance_ok h hop

end

/-- After the start `main` is held without a timeout. -/
theorem wakelocksInit_ok {jiffies : Nat} (h : State.wakelocksInit jiffies = some s) : s.Ok := by
  unfold State.wakelocksInit at h
  obtain ⟨main, hmain, rfl⟩ := map_eq_some_iff.mp h
  have hsuspend : main.type = .suspend := by
    cases hmain
    rfl
  refine wakeLockInit_ok (wakeLockInternal_suspend ?_ hmain hsuspend none) .suspend
  refine wakeLockInit_lists (wakeLockInit_lists ⟨fun _ => nodup_nil, fun type l => ?_⟩ _) _
  refine iff_of_false (not_mem_nil) ?_
  rintro ⟨lock, hlock, -⟩
  cases hlock

/-- While a lock without a timeout is held the timer is off; else, while a lock has
time left, it is armed for when all of them have lapsed, or later; else it is armed, or
the suspend work was queued since a lock was last taken. -/
theorem expireTimer_fits {jiffies : Nat} {s₀ : State}
    (hinit : State.wakelocksInit jiffies = some s₀) (hs : Reached State.step Allowed s₀ s) :
    ((∃ l lock, s.Held .suspend l lock ∧ lock.autoExpire = false) → s.expireTimer = none) ∧
    ((∀ l lock, s.Held .suspend l lock → lock.autoExpire = true) →
      (∃ l lock, s.Held .suspend l lock ∧ 0 < s.timeLeft lock.expires) →
      ∃ t, s.expireTimer = some t ∧
        ∀ l lock, s.Held .suspend l lock → s.timeLeft lock.expires ≤ s.timeLeft t) ∧
    ((∀ l lock, s.Held .suspend l lock → lock.autoExpire = true) →
      (∀ l lock, s.Held .suspend l lock → s.timeLeft lock.expires ≤ 0) →
      s.expireTimer.isSome = true ∨ s.queued = true) := by
  have hok : s.Ok := hs.invariant (wakelocksInit_ok hinit) fun _ _ _ => step_ok
  cases hok.timer with
  | held hl hauto hnone =>
    refine ⟨fun _ => hnone, fun hall => ?_, fun hall => ?_⟩ <;>
      exact absurd (hall _ _ hl) (by simp [hauto])
  | armed ht hall =>
    refine ⟨?_, fun _ _ => ⟨_, ht, fun l lock hl => (hall l lock hl).2⟩, fun _ _ => .inl ?_⟩
    · rintro ⟨l, lock, hl, hauto⟩
      exact absurd (hall l lock hl).1 (by simp [hauto])
    · simp [ht]
  | lapsed hnone hall hq =>
    refine ⟨fun _ => hnone, ?_, fun _ _ => .inr hq⟩
    rintro - ⟨l, lock, hl, hleft⟩
    have := (hall l lock hl).2
    omega

theorem expireTimer_fits_twoLocks : ∃ s₀ s, State.wakelocksInit 0 = some s₀ ∧
    Reached State.step Allowed s₀ s ∧ s.activeWakeLocks .suspend = [2] ∧ s.expireTimer = some 10 ∧
    ((∃ l lock, s.Held .suspend l lock ∧ lock.autoExpire = false) → s.expireTimer = none) := by
  obtain ⟨s₀, hinit⟩ : ∃ s₀, State.wakelocksInit 0 = some s₀ := ⟨_, rfl⟩
  obtain ⟨s, hs, hactive, htimer⟩ : ∃ s, Reached State.step
      (fun _ op => op = .wakeLockTimeout 2 10 ∨ op = .wakeUnlock 0) s₀ s ∧
      s.activeWakeLocks .suspend = [2] ∧ s.expireTimer = some 10 := by
    cases hinit
    exact Reached.exists_of_checked [.wakeLockTimeout 2 10, .wakeUnlock 0] (by decide +kernel)
  have hs' : Reached State.step Allowed s₀ s := hs.mono <| by
    rintro s op (rfl | rfl) <;> exact trivial
  exact ⟨s₀, s, hinit, hs', hactive, htimer, (expireTimer_fits hinit hs').1⟩

end AndroidKernel.Wakelock
