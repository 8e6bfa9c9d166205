import AndroidKernel.Rtc.DeviceQueues

/-!
# Elapsed real time while the wall time is set

`alarm_set_rtc` moves `delta` by the distance to the new time before the clock is set,
and freezes the queues at the old wall time in between. The old time and the new `delta`
do not go together, so that elapsed real time is off by that distance until the clock has
been set, and for good if it cannot be set.
-/

namespace AndroidKernel

/-! ## Times form a cycle -/

/-- The nanoseconds after which times wrap. -/
def wrapNs : Int := 2 ^ 32 * 10 ^ 9

namespace KTime

variable {a b c : KTime}

theorem ns_emod_inj (h : a.ns % wrapNs = b.ns % wrapNs) : a = b := by
  obtain ⟨a, alower, aupper, anormal⟩ := a
  obtain ⟨b, blower, bupper, bnormal⟩ := b
  have hab : a = b := by
    unfold ns sec nsec wrapNs at h
    dsimp only at h
    omega
  subst hab
  rfl

theorem ns_sub_emod (a b : KTime) : (a.sub b).ns % wrapNs = (a.ns - b.ns) % wrapNs := by
  have := a.normal
  have := b.normal
  unfold ns sec nsec sub s64 long wrapNs at *
  dsimp only
  split <;> omega

/-- Time `b` seen from a zero point that has moved by `c` is off by as much. -/
theorem sub_sub_emod (a b c : KTime) :
    (a.sub (b.sub c)).ns % wrapNs = (a.ns - b.ns + c.ns) % wrapNs := by
  have houter := ns_sub_emod a (b.sub c)
  have hinner := ns_sub_emod b c
  unfold wrapNs at *
  omega

/-- The zero point moves only by nothing. -/
theorem sub_sub_eq_sub_iff : a.sub (b.sub c) = a.sub b ↔ c = zero := by
  have hshift := sub_sub_emod a b c
  have hplain := ns_sub_emod a b
  constructor
  · intro h
    apply ns_emod_inj
    rw [h] at hshift
    rw [ns_zero]
    unfold wrapNs at *
    omega
  · rintro rfl
    apply ns_emod_inj
    rw [hshift, hplain, ns_zero, Int.add_zero]

theorem ns_ofTimespec_emod (ts : NormalTimespec) :
    (ofTimespec ts).ns % wrapNs = (ts.tvSec * 10 ^ 9 + ts.tvNsec) % wrapNs := by
  have := ts.nonneg
  have := ts.lt
  unfold ofTimespec set ns sec nsec long wrapNs
  dsimp only
  omega

theorem ofTimespec_toTimespec (t : KTime) : ofTimespec t.toTimespec = t := by
  apply ns_emod_inj
  rw [ns_ofTimespec_emod]
  rfl

/-- `timespec_sub` wraps like the times themselves if both are proper. -/
theorem timespecSub_emod (lhs rhs : NormalTimespec) :
    ((timespecSub lhs.toTimespec rhs.toTimespec).tvSec * 10 ^ 9 +
        (timespecSub lhs.toTimespec rhs.toTimespec).tvNsec) % wrapNs =
      ((lhs.tvSec * 10 ^ 9 + lhs.tvNsec) - (rhs.tvSec * 10 ^ 9 + rhs.tvNsec)) % wrapNs := by
  have := lhs.nonneg
  have := lhs.lt
  have := rhs.nonneg
  have := rhs.lt
  unfold timespecSub setNormalizedTimespec
  dsimp only
  unfold long wrapNs
  omega

/-- The difference of two proper times is the distance between them. -/
theorem ns_timespecSub_emod (t : KTime) (ts : NormalTimespec) :
    (ofTimespec (timespecSub t.toTimespec.toTimespec ts.toTimespec)).ns % wrapNs =
      (t.ns - (ofTimespec ts).ns) % wrapNs := by
  have hts := ns_ofTimespec_emod ts
  have ht : t.ns = t.toTimespec.tvSec * 10 ^ 9 + t.toTimespec.tvNsec := rfl
  rw [ns_ofTimespec_emod, timespecSub_emod]
  unfold wrapNs at *
  omega

end KTime

namespace Alarms

open AlarmType

variable {s s' s₁ : State} {d d' e : Device} {type : AlarmType} {newTime : Timespec}

/-! ## The clock of a queue -/

/-- The fields that a queue's clock consists of stay as they are. -/
structure State.SameClock (s s' : State) : Prop where
  stopped : s'.stopped = s.stopped
  stoppedTime : s'.stoppedTime = s.stoppedTime
  delta : s'.delta = s.delta

theorem State.SameClock.refl (s : State) : SameClock s s := ⟨rfl, rfl, rfl⟩

theorem State.SameClock.trans (h : SameClock s s₁) (h' : SameClock s₁ s') : SameClock s s' :=
  ⟨h'.stopped.trans h.stopped, h'.stoppedTime.trans h.stoppedTime, h'.delta.trans h.delta⟩

theorem State.Called.sameClock (h : State.Called s s') : State.SameClock s s' :=
  ⟨h.stopped, h.stoppedTime, h.delta⟩

namespace Device

/-- The operations that have nothing to do with the wall time. -/
def Quiet (_ : Device) : DeviceOp → Prop
  | .setRtcStop _ | .settimeofday | .setRtcStart | .tick _ => False
  | _ => True

/-- Such an operation leaves every clock alone. -/
theorem quiet_step {op : DeviceOp} (hop : d.Quiet op) (hs : d.step op = some d') :
    d'.wall = d.wall ∧ d'.settingRtc = d.settingRtc ∧
    ∀ type, State.SameClock (d.get type) (d'.get type) := by
  have hcancel (type' type : AlarmType) : State.SameClock (d.get type)
      ((d.put type' { d.get type' with timer := none }).get type) := by
    rw [get_cancelled]
    split
    next htype =>
      subst htype
      exact ⟨rfl, rfl, rfl⟩
    · exact .refl _
  have hwake (type : AlarmType) : State.SameClock (d.get type) (d.wake.get type) := by
    rw [get_wake]
    split
    · have hc := State.Called.updateTimerLocked { d.get type with suspended := false } false
      exact ⟨hc.stopped, hc.stoppedTime, hc.delta⟩
    · exact .refl _
  cases stepped hs with
  | @call type' op s hcall =>
    refine ⟨rfl, rfl, fun type => ?_⟩
    have hc := State.Called.step hcall
    by_cases htype : type = type'
    · subst htype
      rw [get_put_self hc]
      exact hc.sameClock
    · rw [get_put_of_ne htype]
      exact .refl _
  | suspendMark =>
    refine ⟨rfl, rfl, fun type => ?_⟩
    exact ⟨rfl, rfl, rfl⟩
  | cancelFirst => exact ⟨rfl, rfl, hcancel rtcWakeup⟩
  | cancelSecond => exact ⟨rfl, rfl, hcancel systemtime⟩
  | asleep => exact ⟨rfl, rfl, fun type => .refl _⟩
  | busy | resume => exact ⟨rfl, rfl, hwake⟩
  | setRtcStop | settimeofday | setRtcStart | tick => exact hop.elim

theorem quiet_run (h : Reached step Quiet d d') : d'.wall = d.wall ∧ d'.settingRtc = d.settingRtc ∧
    ∀ type, State.SameClock (d.get type) (d'.get type) := by
  refine h.invariant (P := fun d' => d'.wall = d.wall ∧ d'.settingRtc = d.settingRtc ∧
    ∀ type, State.SameClock (d.get type) (d'.get type)) ⟨rfl, rfl, fun _ => .refl _⟩ ?_
  rintro d₁ d₂ op ⟨hwall, hsetting, hclock⟩ hop hs
  obtain ⟨hwall', hsetting', hclock'⟩ := quiet_step hop hs
  exact ⟨hwall'.trans hwall, hsetting'.trans hsetting,
    fun type => (hclock type).trans (hclock' type)⟩

/-- A queue's clock reads the same if its fields and the wall time are. -/
theorem now_eq (hwall : d'.wall = d.wall) (h : State.SameClock (d.get type) (d'.get type)) :
    d'.now type = d.now type := by
  unfold now
  rw [h.stopped, h.stoppedTime, h.delta, hwall]

/-- `alarm_timer_triggered` goes by the queue's clock. -/
theorem timerTriggered_now (h : (d.get type).step (.timerTriggered d.wall) = some s) :
    s.triggered = some ⟨d.now type, []⟩ := by
  simp only [State.step, State.alarmTimerTriggered] at h
  split at h
  · cases h
  · cases h
    rfl

/-! ## Both queues on elapsed real time -/

/-- The two queues on elapsed real time have one clock, which is stopped while the wall
time is set. -/
structure ElapsedOk (d : Device) : Prop where
  delta : ∀ type, type.isElapsed = true → (d.get type).delta = (d.get elapsedRealtime).delta
  stopped : ∀ type, type.isElapsed = true →
    ((d.get type).stopped = true ↔ d.settingRtc ≠ .idle)

theorem ne_systemtime (h : type.isElapsed = true) : type ≠ systemtime := by
  rintro rfl
  cases h

theorem ElapsedOk.sameClock (h : d.ElapsedOk) (hsetting : d'.settingRtc = d.settingRtc)
    (hclock : ∀ type, State.SameClock (d.get type) (d'.get type)) : d'.ElapsedOk := by
  constructor
  · intro type htype
    rw [(hclock type).delta, (hclock elapsedRealtime).delta]
    exact h.delta type htype
  · intro type htype
    rw [(hclock type).stopped, hsetting]
    exact h.stopped type htype

/-- The clock of a queue that is stopped. -/
theorem setRtcStop_clock (d : Device) (newTime : Timespec) (htype : type.isElapsed = true) :
    ((d.setRtcStop newTime).get type).stopped = true ∧
    ((d.setRtcStop newTime).get type).stoppedTime = d.wall ∧
    ((d.setRtcStop newTime).get type).delta = (d.get elapsedRealtime).delta.sub
      (.ofTimespec (timespecSub d.wall.toTimespec.toTimespec newTime)) := by
  rw [get_setRtcStop, if_neg (ne_systemtime htype), if_pos htype, KTime.ofTimespec_toTimespec]
  exact ⟨rfl, rfl, rfl⟩

/-- The clock of a queue that is started again. -/
theorem setRtcStart_clock (d : Device) (htype : type.isElapsed = true) :
    (d.setRtcStart.get type).stopped = false ∧
    (d.setRtcStart.get type).delta = (d.get type).delta := by
  rw [get_setRtcStart, if_neg (ne_systemtime htype)]
  have hclock := (State.Called.updateTimerLocked { d.get type with stopped := false } false)
  exact ⟨hclock.stopped, hclock.delta⟩

theorem ElapsedOk.step {op : DeviceOp} (h : d.ElapsedOk) (hs : d.step op = some d') :
    d'.ElapsedOk := by
  by_cases hquiet : d.Quiet op
  · obtain ⟨-, hsetting, hclock⟩ := quiet_step hquiet hs
    exact h.sameClock hsetting hclock
  cases stepped hs with
  | setRtcStop =>
    constructor
    · intro type htype
      rw [(setRtcStop_clock d _ htype).2.2, (setRtcStop_clock d _ rfl).2.2]
    · intro type htype
      rw [(setRtcStop_clock d _ htype).1]
      exact ⟨nofun, fun _ => rfl⟩
  | settimeofday hstopped =>
    refine ⟨h.delta, fun type htype => (h.stopped type htype).trans ?_⟩
    simp [hstopped]
  | setRtcStart =>
    constructor
    · intro type htype
      rw [(setRtcStart_clock d htype).2, (setRtcStart_clock d rfl).2]
      exact h.delta type htype
    · intro type htype
      rw [(setRtcStart_clock d htype).1]
      exact ⟨nofun, fun hne => absurd rfl hne⟩
  | tick => exact ⟨h.delta, h.stopped⟩
  | call | suspendMark | cancelFirst | cancelSecond | asleep | busy | resume =>
    exact absurd trivial hquiet

/-! ## A call of `alarm_set_rtc` -/

/-- Where elapsed real time is looked at. -/
inductive Point where
  | before
  /-- after the first locked section, before the clock is set -/
  | stopped
  /-- after `do_settimeofday`, before the second locked section -/
  | timeSet
  | after
  deriving DecidableEq

/-- The states at a point of a call of `alarm_set_rtc` that starts in `d`. Other calls may
come in between, but no time passes. -/
inductive Observed (d : Device) (newTime : Timespec) : Point → Device → Prop
  | before {e : Device} : Reached step Quiet d e → Observed d newTime .before e
  | stopped {e e₁ e' : Device} : Observed d newTime .before e →
      e.step (.setRtcStop newTime) = some e₁ → Reached step Quiet e₁ e' →
      Observed d newTime .stopped e'
  | timeSet {e e₁ e' : Device} : Observed d newTime .stopped e →
      e.step .settimeofday = some e₁ → Reached step Quiet e₁ e' →
      Observed d newTime .timeSet e'
  | after {e e₁ e' : Device} : Observed d newTime .timeSet e →
      e.step .setRtcStart = some e₁ → Reached step Quiet e₁ e' →
      Observed d newTime .after e'

/-- How far `alarm_set_rtc` moves `delta`. -/
def shift (d : Device) (newTime : Timespec) : KTime :=
  .ofTimespec (timespecSub d.wall.toTimespec.toTimespec newTime)

/-- The wall time when `do_settimeofday` has returned. -/
def wallAfter (d : Device) (newTime : Timespec) : KTime := (d.doSettimeofday newTime).1.wall

theorem Observed.before_clock (h : Observed d newTime .before e) :
    e.wall = d.wall ∧ ∀ type, State.SameClock (d.get type) (e.get type) := by
  cases h with
  | before hrun =>
    obtain ⟨hwall, -, hclock⟩ := quiet_run hrun
    exact ⟨hwall, hclock⟩

theorem Observed.stopped_clock (h : Observed d newTime .stopped e) :
    e.wall = d.wall ∧ e.settingRtc = .stopped newTime ∧
    ∀ type, type.isElapsed = true → (e.get type).stopped = true ∧
      (e.get type).stoppedTime = d.wall ∧
      (e.get type).delta = (d.get elapsedRealtime).delta.sub (d.shift newTime) := by
  cases h with
  | @stopped e₀ e₁ e' hbefore hs hrun =>
    obtain ⟨hwall, hclock⟩ := hbefore.before_clock
    obtain ⟨hwall', hsetting', hclock'⟩ := quiet_run hrun
    cases stepped hs
    refine ⟨hwall'.trans hwall, hsetting', fun type htype => ?_⟩
    obtain ⟨hstopped, htime, hdelta⟩ := setRtcStop_clock e₀ newTime htype
    rw [(hclock' type).stopped, (hclock' type).stoppedTime, (hclock' type).delta, hstopped, htime,
      hdelta, hwall, (hclock elapsedRealtime).delta]
    exact ⟨rfl, rfl, rfl⟩

theorem Observed.timeSet_clock (h : Observed d newTime .timeSet e) : e.wall = d.wallAfter newTime ∧
    ∀ type, type.isElapsed = true → (e.get type).stopped = true ∧
      (e.get type).stoppedTime = d.wall ∧
      (e.get type).delta = (d.get elapsedRealtime).delta.sub (d.shift newTime) := by
  cases h with
  | @timeSet e₀ e₁ e' hstopped hs hrun =>
    obtain ⟨hwall, hsetting, hclock⟩ := hstopped.stopped_clock
    obtain ⟨hwall', -, hclock'⟩ := quiet_run hrun
    cases stepped hs with
    | @settimeofday newTime' wall hsetting' hset =>
      obtain rfl : newTime = newTime' := by
        cases hsetting.symm.trans hsetting'
        rfl
      refine ⟨?_, fun type htype => ?_⟩
      · rw [hwall', hset]
        unfold wallAfter doSettimeofday
        split
        · rfl
        · exact hwall
      · rw [(hclock' type).stopped, (hclock' type).stoppedTime, (hclock' type).delta]
        exact hclock type htype

theorem Observed.after_clock (h : Observed d newTime .after e) : e.wall = d.wallAfter newTime ∧
    ∀ type, type.isElapsed = true → (e.get type).stopped = false ∧
      (e.get type).delta = (d.get elapsedRealtime).delta.sub (d.shift newTime) := by
  cases h with
  | @after e₀ e₁ e' hset hs hrun =>
    obtain ⟨hwall, hclock⟩ := hset.timeSet_clock
    obtain ⟨hwall', -, hclock'⟩ := quiet_run hrun
    cases stepped hs
    refine ⟨hwall'.trans hwall, fun type htype => ?_⟩
    obtain ⟨hstarted, hdelta⟩ := setRtcStart_clock e₀ htype
    rw [(hclock' type).stopped, (hclock' type).delta, hstarted, hdelta]
    exact ⟨rfl, (hclock type htype).2.2⟩

/-- If the clock has been set, the new wall time and the new `delta` go together. -/
theorem sub_shift_of_set (hset : (d.doSettimeofday newTime).2 = 0) (delta : KTime) :
    (d.wallAfter newTime).sub (delta.sub (d.shift newTime)) = d.wall.sub delta := by
  unfold wallAfter shift
  unfold doSettimeofday at hset ⊢
  split at hset
  next hvalid =>
    apply KTime.ns_emod_inj
    rw [dif_pos hvalid, KTime.sub_sub_emod, KTime.ns_sub_emod]
    have hshift := KTime.ns_timespecSub_emod d.wall ⟨newTime, hvalid.1, hvalid.2⟩
    dsimp only at hshift ⊢
    unfold wrapNs at *
    omega
  · cases hset

/-- If it has not been set, the wall time is the old one. -/
theorem wallAfter_of_not_set (hset : (d.doSettimeofday newTime).2 ≠ 0) :
    d.wallAfter newTime = d.wall := by
  unfold wallAfter
  unfold doSettimeofday at hset ⊢
  split at hset
  · exact absurd rfl hset
  next hvalid =>
    rw [dif_neg hvalid]

section Runs

variable {tmpTime systemTime : NormalTimespec} {point : Point}

theorem reached_elapsedOk
    (h : Reached step (fun _ _ => True) (alarmLateInit tmpTime systemTime) d) : d.ElapsedOk := by
  refine h.invariant ?_ fun _ _ _ hok _ hs => hok.step hs
  constructor
  · intro type htype
    cases type with
    | elapsedRealtime | elapsedRealtimeWakeup => rfl
    | rtcWakeup | rtc | systemtime => cases htype
  · intro type _
    exact ⟨nofun, fun hne => absurd rfl hne⟩

/-- Elapsed real time is the same before a call of `alarm_set_rtc` and after one that has
set the clock. In between, and after one that has failed, it is so only if the time was
not to be moved. -/
theorem elapsed_realtime_same_iff
    (h : Reached step (fun _ _ => True) (alarmLateInit tmpTime systemTime) d)
    (hidle : d.settingRtc = .idle) (he : Observed d newTime point e) :
    (e.alarmGetElapsedRealtime = d.alarmGetElapsedRealtime ↔
      point = .before ∨ (point = .after ∧ (d.doSettimeofday newTime).2 = 0) ∨
        d.shift newTime = .zero) ∧ ∀ type, type.isElapsed = true → ∀ s s',
      (d.get type).step (.timerTriggered d.wall) = some s →
      (e.get type).step (.timerTriggered e.wall) = some s' → (s'.triggered = s.triggered ↔
        point = .before ∨ (point = .after ∧ (d.doSettimeofday newTime).2 = 0) ∨
          d.shift newTime = .zero) := by
  have hok := reached_elapsedOk h
  have hnow (type : AlarmType) (htype : type.isElapsed = true) : e.now type = d.now type ↔
      point = .before ∨ (point = .after ∧ (d.doSettimeofday newTime).2 = 0) ∨
        d.shift newTime = .zero := by
    have hrunning : (d.get type).stopped = false := by
      have := hok.stopped type htype
      simpa [hidle] using this
    have hd : d.now type = d.wall.sub (d.get elapsedRealtime).delta := by
      unfold now
      rw [hrunning, hok.delta type htype]
      rfl
    rw [hd]
    cases point with
    | before =>
      obtain ⟨hwall, hclock⟩ := he.before_clock
      rw [now_eq hwall (hclock type), hd]
      simp
    | stopped =>
      obtain ⟨hstopped, htime, hdelta⟩ := he.stopped_clock.2.2 type htype
      unfold now
      rw [hstopped, htime, hdelta, if_pos rfl, KTime.sub_sub_eq_sub_iff]
      simp
    | timeSet =>
      obtain ⟨hstopped, htime, hdelta⟩ := he.timeSet_clock.2 type htype
      unfold now
      rw [hstopped, htime, hdelta, if_pos rfl, KTime.sub_sub_eq_sub_iff]
      simp
    | after =>
      obtain ⟨hwall, hclock⟩ := he.after_clock
      obtain ⟨hstarted, hdelta⟩ := hclock type htype
      unfold now
      rw [hstarted, hdelta, hwall, if_neg (by decide)]
      by_cases hset : (d.doSettimeofday newTime).2 = 0
      · rw [sub_shift_of_set hset]
        simp [hset]
      · rw [wallAfter_of_not_set hset, KTime.sub_sub_eq_sub_iff]
        simp [hset]
  refine ⟨hnow elapsedRealtime rfl, fun type htype s s' hs hs' => ?_⟩
  rw [timerTriggered_now hs, timerTriggered_now hs', ← hnow type htype]
  simp

end Runs

section OneCall

/-- A device that is started 100 seconds after the epoch, at system time 0. -/
def started : Device := alarmLateInit (setNormalizedTimespec 100 0) (setNormalizedTimespec 0 0)

theorem elapsed_realtime_same_iff_set : ∃ e, Observed started ⟨50, 0⟩ .after e ∧
    e.alarmGetElapsedRealtime = started.alarmGetElapsedRealtime := by
  have hstopped : Observed started ⟨50, 0⟩ .stopped _ := .stopped (.before .init) rfl .init
  have hset : Observed started ⟨50, 0⟩ .timeSet _ := .timeSet hstopped rfl .init
  have hafter : Observed started ⟨50, 0⟩ .after _ := .after hset rfl .init
  exact ⟨_, hafter, (elapsed_realtime_same_iff .init rfl hafter).1.mpr (.inr (.inl ⟨rfl, rfl⟩))⟩

/-- Elapsed real time is 0. While the clock is set back by 50 seconds it reads 50, and a
time that is refused because of its nanoseconds leaves it at 48. -/
theorem elapsed_realtime_disturbed :
    (∃ e, Observed started ⟨50, 0⟩ .stopped e ∧ started.alarmGetElapsedRealtime.ns = 0 ∧
      e.alarmGetElapsedRealtime.ns = 50 * 10 ^ 9) ∧
    ∃ e, Observed started ⟨50, 2 * 10 ^ 9⟩ .after e ∧
      e.alarmGetElapsedRealtime.ns = 48 * 10 ^ 9 := by
  constructor
  · exact ⟨_, .stopped (.before .init) rfl .init, by decide, by decide⟩
  · have hstopped : Observed started ⟨50, 2 * 10 ^ 9⟩ .stopped _ :=
      .stopped (.before .init) rfl .init
    have hset : Observed started ⟨50, 2 * 10 ^ 9⟩ .timeSet _ := .timeSet hstopped rfl .init
    exact ⟨_, .after hset rfl .init, by decide⟩

end OneCall

end Device

end Alarms

end AndroidKernel
