import AndroidKernel.Timer.Search

/-!
# The next timer, in every run

In the states that are reached `__next_timer_interrupt` returns the earliest time of a timer that is
not deferrable, or a time that has passed if one of these is due. The exception are timers that
are added with a time that has passed almost `2 ^ 31` jiffies ago: if such a timer is the first that
the search finds and the search goes on, timers of later vectors seem to be earlier.
-/

namespace AndroidKernel.Timer

open Option Function

namespace State

variable {s s' : State} {timer expires jiffies : Nat} {op : Op}

/-- A timer that is not deferrable is not added with a time that has passed too long ago. -/
def AddsRecent (s : State) (timer expires : Nat) : Prop :=
  (s.timers timer).deferrable = false →
    -(recentDelta : Int) ≤ long ((expires : Int) - s.base.timerJiffies)
  deriving Decidable

def KeepsRecent (s : State) : Op → Prop
  | .addTimer timer expires | .modTimer timer expires | .modTimerPending timer expires =>
    AddsRecent s timer (ulong expires)
  | _ => True

instance (s : State) (op : Op) : Decidable (KeepsRecent s op) := by
  unfold KeepsRecent
  split <;> infer_instance

/-- The times of the timers in the wheel have not passed too long ago. -/
def Recent (s : State) : Prop :=
  ∀ tv i u, s.base.Live s.timers tv i u →
    -(recentDelta : Int) ≤ long (((s.timers u).expires : Int) - s.base.timerJiffies)

/-- After an iteration no time in the wheel has passed. -/
theorem recent_iterate (hinv : Inv jiffies s) : Recent s.iterate := by
  rintro tv i u ⟨hu, -⟩
  obtain ⟨n, -, -, ⟨⟨-, hnear, htells⟩, -⟩, hlt⟩ := hinv.kept.ahead hu
  have hlt := hlt.trans_le (Wheel.turn_le ..)
  have hj : s.iterate.base.timerJiffies = ulong ((s.base.timerJiffies : Int) + 1) := by
    show ulong (((s.base.cascadeTimers fun u => (s.timers u).expires).timerJiffies : Int) + 1) = _
    rw [(@TvecBase.cascadeTimers_same s.base u _).2]
  have hexpires : (s.iterate.timers u).expires = n % 2 ^ 32 :=
    htells.resolve_right fun hpast => by omega
  rw [hj, hinv.kept.jiffies]
  unfold ulong long recentDelta
  omega

section

variable (h : Recent s)

include h

theorem Recent.same (hjiffies : s'.base.timerJiffies = s.base.timerJiffies)
    (hvec : ∀ tv i, ∀ u ∈ s'.base.vec tv i, u ∈ s.base.vec tv i ∧ s'.timers u = s.timers u) : Recent
    s' := by
  rintro tv i u ⟨hu, hdef⟩
  obtain ⟨hmem, heq⟩ := hvec tv i u hu
  rw [heq] at hdef ⊢
  rw [hjiffies]
  exact h tv i u ⟨hmem, hdef⟩

theorem Recent.detachTimer (timer : Nat) (clear : Bool) : Recent (s.detachTimer timer clear) := by
  refine h.same rfl fun tv i u hu => ?_
  obtain ⟨hmem, hne⟩ := TvecBase.mem_unlink.mp hu
  exact ⟨hmem, (sameFor_detachTimer s hne).timer⟩

theorem Recent.forgetNext (timer : Nat) : Recent (s.forgetNext timer) :=
  have ⟨hsame, hjiffies⟩ := s.forgetNext_same timer
  h.same hjiffies fun tv i u hu => ⟨((hsame u).vec tv i).mp hu, (hsame u).timer⟩

section

variable (hadds : AddsRecent s timer expires)

include hadds

theorem Recent.addTimerAt : Recent (s.addTimerAt timer expires) := by
  rintro tv i u ⟨hu, hdef⟩
  rw [(s.adds ..).jiffies]
  rw [(s.adds ..).timers] at hdef ⊢
  by_cases hne : u = timer
  · subst hne
    rw [update_self] at hdef ⊢
    exact hadds hdef
  · rw [update_of_ne hne] at hdef ⊢
    exact h tv i u ⟨((sameFor_addTimerAt s expires hne).vec tv i).mp hu, hdef⟩

theorem Recent.modTimerCommon {pendingOnly : Bool} :
    Recent (s.modTimerCommon timer expires pendingOnly) := by
  unfold State.modTimerCommon
  split
  next =>
    refine ((h.detachTimer timer false).forgetNext timer).addTimerAt fun hdef => ?_
    obtain ⟨hsame, hjiffies⟩ := (s.detachTimer timer false).forgetNext_same timer
    rw [hjiffies]
    rw [(hsame timer).timer] at hdef
    refine hadds ?_
    have hself : (s.detachTimer timer false).timers timer =
        { s.timers timer with pending := (s.timers timer).pending && !false } :=
      update_self ..
    rwa [hself] at hdef
  next =>
    split
    · exact h
    · exact h.addTimerAt hadds

theorem Recent.modTimer : Recent (s.modTimer timer expires) := by
  unfold State.modTimer
  split
  · exact h
  · exact h.modTimerCommon hadds

end

theorem recent_act (hinv : Inv jiffies s) (hok : KeepsRecent s op) (hs : act s op = some s') :
    Recent s' := by
  cases op with
  | addTimer timer expires =>
    obtain ⟨-, hs⟩ := ite_none_left_eq_some.mp hs
    cases hs
    exact h.modTimer hok
  | modTimer timer expires =>
    cases hs
    exact h.modTimer hok
  | modTimerPending timer expires =>
    cases hs
    exact h.modTimerCommon hok
  | delTimer timer =>
    cases hs
    unfold State.delTimer
    split
    · exact (h.detachTimer timer true).forgetNext timer
    · exact h
  | setJiffies jiffies =>
    cases hs
    exact h
  | enter =>
    obtain ⟨-, hs⟩ := ite_none_left_eq_some.mp hs
    cases hs
    exact h
  | iterate =>
    obtain ⟨-, rfl⟩ := ite_some_none_eq_some.mp hs
    exact recent_iterate hinv
  | fire =>
    obtain ⟨timer, -, rfl⟩ := map_eq_some_iff.mp hs
    exact h.detachTimer timer true
  | leave =>
    obtain ⟨-, rfl⟩ := ite_some_none_eq_some.mp hs
    exact h

theorem recent_step (hinv : Inv jiffies s) (hok : KeepsRecent s op) (hs : step s op = some s') :
    Recent s' := by
  obtain ⟨s₁, hact, rfl⟩ := map_eq_some_iff.mp hs
  have hrecent : Recent s₁ := recent_act h hinv hok hact
  exact hrecent

/-! ## The result -/

/-- A timer that `__next_timer_interrupt` has to find. -/
def Waits (s : State) (u : Nat) : Prop :=
  (s.timers u).pending = true ∧ (s.timers u).deferrable = false
  deriving Decidable

/-- How far ahead of `timer_jiffies` a time is. -/
def ahead (s : State) (time : Nat) : Int := long ((time : Int) - s.base.timerJiffies)

theorem searchable (hinv : Inv jiffies s) : Searchable s.timers s.base (agenda jiffies s.log).now
      fun u => ((agenda jiffies s.log).due u).getD 0 where
  placed tv i u hu := by
    obtain ⟨n, hdue, hplaced, -⟩ := (hinv.kept.booked u id).vec tv i hu.1
    rwa [hdue]
  tells tv i u hu := by
    obtain ⟨n, hdue, -, htells⟩ := (hinv.kept.booked u id).vec tv i hu.1
    rwa [hdue]
  recent tv i u hu := by
    have := h tv i u hu
    rw [hinv.kept.jiffies] at this
    unfold nearest
    unfold long at *
    omega

end

theorem ahead_eq (hinv : Inv jiffies s) (time : Nat) :
    s.ahead time = nearest (agenda jiffies s.log).now time - (agenda jiffies s.log).now := by
  unfold ahead nearest
  rw [hinv.kept.jiffies]
  unfold long
  omega

/-- Between the iterations the pending timers are all in the wheel. -/
theorem exists_live (hinv : Inv jiffies s) (hwork : s.workList = []) {u : Nat} (hu : s.Waits u) :
    ∃ tv i, s.base.Live s.timers tv i u := by
  have hnot : u ∉ s.workList := by
    rw [hwork]
    exact List.not_mem_nil
  obtain ⟨tv, i, hmem⟩ :=
    ((hinv.kept.booked u id).held (hinv.kept.due_of_pending hu.1)).resolve_left hnot
  exact ⟨tv, i, hmem, hu.2⟩

/-- In every run in which no timer is added too late: between the iterations of `__run_timers` the
result of `__next_timer_interrupt` has passed or is now if this is so for a timer that is not
deferrable; if not, it is the earliest time of these timers, or the maximum. Deferrable timers
do not matter. -/
theorem next_timer_interrupt_earliest {deferrable : Nat → Bool}
    (h : Reached step KeepsRecent (init jiffies deferrable) s) (hwork : s.workList = []) :
    ((∃ u, s.Waits u ∧ s.ahead (s.timers u).expires ≤ 0) →
      s.ahead (s.base.nextTimerInterrupt s.timers) ≤ 0) ∧
    ((∀ u, s.Waits u → 0 < s.ahead (s.timers u).expires) →
      s.base.nextTimerInterrupt s.timers < 2 ^ 32 ∧
      IsLeast (fun d : Int => d = nextTimerMaxDelta ∨ ∃ u, s.Waits u ∧
        d = s.ahead (s.timers u).expires)
        (s.ahead (s.base.nextTimerInterrupt s.timers))) ∧
    (s.base.withoutDeferrable s.timers).nextTimerInterrupt s.timers =
      s.base.nextTimerInterrupt s.timers := by
  have hinv : Inv jiffies s ∧ Recent s :=
    h.invariant (P := fun s => Inv jiffies s ∧ Recent s)
      ⟨inv_init jiffies deferrable, fun _ _ _ hu => absurd hu.1 List.not_mem_nil⟩
      fun _ _ _ hinv hok hs => ⟨inv_step hinv.1 hs, recent_step hinv.2 hinv.1 hok hs⟩
  obtain ⟨hinv, hrecent⟩ := hinv
  have hs := searchable hrecent hinv
  have hfound := TvecBase.nextTimerInterrupt_found hs hinv.kept.jiffies
  -- A timer is due at its time or, if that has passed, in the next iteration.
  have hdue : ∀ u, s.Waits u → s.ahead (s.base.nextTimerInterrupt s.timers) ≤
      max 0 (s.ahead (s.timers u).expires) := by
    intro u hu
    obtain ⟨tv, i, hlive⟩ := exists_live hinv hwork hu
    have hleast := hfound.least tv i u trivial hlive
    have hle := (hs.placed tv i u hlive).le
    obtain ⟨⟨-, hnear, htells⟩, -⟩ := hs.tells tv i u hlive
    rw [ahead_eq hinv, ahead_eq hinv]
    rcases htells with heq | ⟨hnow, -⟩
    · rw [heq, nearest_eq hnear hle]
      omega
    · omega
  refine ⟨?_, fun hahead => ⟨?_, ?_, ?_⟩, TvecBase.nextTimerInterrupt_withoutDeferrable ..⟩
  · rintro ⟨u, hu, hpast⟩
    exact (hdue u hu).trans_eq (max_eq_left hpast)
  · rcases hfound.source with heq | ⟨tv, i, u, hlive, heq⟩
    · rw [heq]
      exact ulong_lt _
    · rw [heq]
      exact (hs.tells tv i u hlive).1.1
  · rcases hfound.source with heq | ⟨tv, i, u, hlive, heq⟩
    · left
      rw [heq, ahead_eq hinv, nearest_max]
      omega
    · obtain ⟨n, hdue, -⟩ := (hinv.kept.booked u id).vec _ _ hlive.1
      refine .inr ⟨u, ⟨?_, hlive.2⟩, by rw [heq]⟩
      rw [(hinv.kept.booked u id).pending, hdue]
      rfl
  · rintro d (rfl | ⟨u, hu, rfl⟩)
    · have := hfound.max
      rw [ahead_eq hinv]
      omega
    · exact (hdue u hu).trans_eq (max_eq_right (hahead u hu).le)

/-- A timer is in the second vector, another, which is deferrable, is in the first, and a third
one is due. -/
theorem next_timer_interrupt_earliest_due :
    ∃ s, Reached step KeepsRecent (init 255 fun u => u == 2) s ∧ s.workList = [] ∧
      s.Waits 1 ∧ s.Waits 3 ∧ s.base.timerJiffies = 256 ∧
      s.base.nextTimerInterrupt s.timers = 250 ∧
        s.ahead (s.base.nextTimerInterrupt s.timers) ≤ 0 := by
  obtain ⟨s, hrun, hwork, h1, h3, hj, hnext, hdue⟩ : ∃ s,
    Reached step KeepsRecent (init 255 fun u => u == 2) s ∧
      s.workList = [] ∧ s.Waits 1 ∧ s.Waits 3 ∧ s.base.timerJiffies = 256 ∧
        s.base.nextTimerInterrupt s.timers = 250 ∧ s.ahead (s.timers 3).expires ≤ 0 :=
    Reached.exists_of_checked
      [.addTimer 1 511, .addTimer 2 300, .enter, .iterate, .leave, .addTimer 3 250]
      (by decide +kernel)
  exact ⟨s, hrun, hwork, h1, h3, hj, hnext,
    (next_timer_interrupt_earliest hrun hwork).1 ⟨3, h3, hdue⟩⟩

/-- A timer is in the bucket of the second vector that comes round next, and another one is added
with a time that has passed `2 ^ 31 - 1` jiffies ago. It is due, but the result is 255 jiffies
ahead. -/
theorem next_timer_interrupt_late :
    ∃ s, Reached step (fun _ _ => True) (init 255 fun _ => false) s ∧ s.workList = [] ∧
      s.base.timerJiffies = 256 ∧ s.Waits 2 ∧ s.ahead (s.timers 2).expires = -(2 ^ 31 - 1) ∧
      s.base.nextTimerInterrupt s.timers = 511 ∧ s.ahead 511 = 255 :=
  Reached.exists_of_checked
    [.addTimer 1 511, .enter, .iterate, .leave, .addTimer 2 0x80000101] (by decide +kernel)

end State

end AndroidKernel.Timer
