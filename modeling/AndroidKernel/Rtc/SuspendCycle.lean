import AndroidKernel.Rtc.DeviceQueues

/-!
# Alarm timers over a suspend and resume

`alarm_suspend` is to cancel the timers of the two queues that wake the system up, and
`alarm_resume` starts those timers again. The second timer that is cancelled is named by
`ANDROID_ALARM_ELAPSED_REALTIME_WAKEUP_MASK`, which as an index is that of the queue on
system time: its timer is cancelled and not started again, and the timer of the queue on
elapsed real time stays enqueued.
-/

namespace AndroidKernel.Alarms

open AlarmType Option

variable {s : State} {d d' : Device} {type : AlarmType}

/-- The timer goes off in time for the first alarm, if there is one. -/
def State.InTime (s : State) : Prop :=
  ∀ id, s.first = some id → ∃ timer, s.timer = some timer ∧
    timer.expires.ns ≤ s.delta.ns + (s.alarm id).expires.ns

/-- A timer that is not enqueued is in time for no alarm. -/
theorem State.InTime.first_of_timer (hin : s.InTime) (h : s.timer = none) : s.first = none := by
  cases hfirst : s.first with
  | none => rfl
  | some id =>
    obtain ⟨timer, htimer, -⟩ := hin id hfirst
    cases h.symm.trans htimer

/-! ## What the functions for several queues keep -/

theorem State.Ok.restart (h : s.Ok) (stopped suspended : Bool) :
    ({ s with stopped := stopped, suspended := suspended }.updateTimerLocked false).Ok := by
  obtain ⟨timer, lock, heq⟩ :=
    updateTimerLocked_eq { s with stopped := stopped, suspended := suspended } false
  rw [heq]
  exact ⟨⟨h.queued.ordered, h.queued.first⟩, h.called⟩

/-- A timer that is started anew is in time. -/
theorem State.Timely.restart (h : s.Timely) (hok : s.Ok) (stopped suspended : Bool) :
    ({ s with stopped := stopped, suspended := suspended }.updateTimerLocked false).Timely := by
  have hq : State.Queued { s with stopped := stopped, suspended := suspended } :=
    ⟨hok.queued.ordered, hok.queued.first⟩
  obtain ⟨hnonneg, harmed⟩ := updateTimerLocked_timely hq h.nonneg false
  exact ⟨hnonneg, fun _ => harmed⟩

/-- A timer need not be enqueued while the queue is suspended or stopped or empty. -/
theorem State.Timely.cancel (h : s.Timely)
    (hoff : s.suspended = true ∨ s.stopped = true ∨ s.first = none) :
    State.Timely { s with timer := none } := by
  refine ⟨h.nonneg, fun _ hstopped hsuspended id hid => ?_⟩
  rcases hoff with hoff | hoff | hoff
  · cases hoff.symm.trans hsuspended
  · cases hoff.symm.trans hstopped
  · cases hoff.symm.trans hid

namespace Device

/-! ## Runs without negative times -/

/-- The conditions under which the timer of a single queue is started in time: no alarm
has a soft expiry time that is negative on the clock, also not because the clock is set. -/
def Nonneg (d : Device) : DeviceOp → Prop
  | .call type op => InOrderNonneg (d.get type) op
  | .setRtcStop newTime => ∀ type, ((d.setRtcStop newTime).get type).Nonneg
  | _ => True

/-- Besides, the timer that is cancelled second is not needed, and that of the other
queue on elapsed real time is not enqueued when `alarm_suspend` will return 0, because the real
time clock is not about to go off. -/
def Harmless (d : Device) (op : DeviceOp) : Prop :=
  d.Nonneg op ∧ match op with
  | .cancelSecond => (d.get systemtime).first = none
  | .suspendFinish r =>
    d.wakeupQueue.any (d.aboutToGoOff r) = false → (d.get elapsedRealtimeWakeup).timer = none
  | _ => True

instance decidableForallType {p : AlarmType → Prop} [DecidablePred p] :
    Decidable (∀ type, p type) :=
  decidable_of_iff
    (∀ type ∈ [rtcWakeup, rtc, elapsedRealtimeWakeup, elapsedRealtime, systemtime], p type)
    ⟨fun h type => h type (by cases type <;> decide), fun h type _ => h type⟩

instance (d : Device) (op : DeviceOp) : Decidable (d.Harmless op) := by
  unfold Harmless Nonneg State.Nonneg
  cases op <;> infer_instance

/-- What every step keeps for the queues that are `watched`. -/
structure Sound (watched : AlarmType → Prop) (d : Device) : Prop where
  ok : ∀ type, (d.get type).Ok
  timely : ∀ type, watched type → (d.get type).Timely
  suspended : d.suspended = true ↔ d.suspending ≠ .awake

namespace Sound

variable {watched : AlarmType → Prop} (h : d.Sound watched)

include h

/-- A queue that has only been called is stored back. -/
theorem put (hc : State.Called (d.get type) s) (hok : s.Ok)
    (ht : watched type → s.Timely) : (d.put type s).Sound watched := by
  refine ⟨fun type' => ?_, fun type' hw => ?_, h.suspended⟩
  · by_cases htype : type' = type
    · subst htype
      rw [get_put_self hc]
      exact hok
    · rw [get_put_of_ne htype]
      exact h.ok type'
  · by_cases htype : type' = type
    · subst htype
      rw [get_put_self hc]
      exact ht hw
    · rw [get_put_of_ne htype]
      exact h.timely type' hw

theorem suspendMark : d.suspendMark.Sound watched := by
  refine ⟨fun type => ?_, fun type hw => ?_, ⟨nofun, fun _ => rfl⟩⟩
  · exact ⟨⟨(h.ok type).queued.ordered, (h.ok type).queued.first⟩, (h.ok type).called⟩
  · rw [get_suspendMark]
    refine ⟨(h.timely type hw).nonneg, fun hrun hstopped hsuspended => ?_⟩
    -- the timers of the other queues are still needed, and are as they were
    have hother : (d.get type).suspended = false := by
      change type.isWakeup = false at hsuspended
      simp [get, hsuspended]
    exact (h.timely type hw).armed hrun hstopped hother

/-- A step of `alarm_suspend` that cancels a timer which is not needed. -/
theorem cancel {phase : Suspending}
    (hoff : watched type → (d.get type).suspended = true ∨ (d.get type).first = none)
    (hphase : d.suspending ≠ .awake) (hphase' : phase ≠ .awake) : Sound watched
      { d.put type { d.get type with timer := none } with suspending := phase } := by
  have hcalled : State.Called (d.get type) { d.get type with timer := none } :=
    ⟨rfl, rfl, rfl, rfl, rfl, fun _ _ _ => rfl⟩
  have hok : State.Ok { d.get type with timer := none } :=
    ⟨⟨(h.ok type).queued.ordered, (h.ok type).queued.first⟩, (h.ok type).called⟩
  have hput := h.put hcalled hok fun hw =>
    (h.timely type hw).cancel ((hoff hw).imp_right .inr)
  exact ⟨hput.ok, hput.timely, ⟨fun _ => hphase', fun _ => h.suspended.mpr hphase⟩⟩

/-- The timers of the queues that wake the system up are started again. -/
theorem wake : d.wake.Sound watched := by
  refine ⟨fun type => ?_, fun type hw => ?_, ⟨nofun, fun hne => absurd rfl hne⟩⟩
  · rw [get_wake]
    split
    · exact (h.ok type).restart _ false
    · exact h.ok type
  · rw [get_wake]
    split
    · exact (h.timely type hw).restart (h.ok type) _ false
    · exact h.timely type hw

theorem setRtcStop {newTime : Timespec} (hn : ∀ type, ((d.setRtcStop newTime).get type).Nonneg) :
    (d.setRtcStop newTime).Sound watched := by
  refine ⟨fun type => ?_, fun type hw => ⟨hn type, ?_⟩, h.suspended⟩
  · rw [get_setRtcStop]
    split
    · exact h.ok type
    · unfold State.hrtimerTryToCancel
      split <;> exact ⟨⟨(h.ok type).queued.ordered, (h.ok type).queued.first⟩, (h.ok type).called⟩
  · rw [get_setRtcStop]
    split
    · exact (h.timely type hw).armed
    · intro _ hstopped
      cases hstopped

theorem setRtcStart : d.setRtcStart.Sound watched := by
  refine ⟨fun type => ?_, fun type hw => ?_, h.suspended⟩
  · rw [get_setRtcStart]
    split
    · exact h.ok type
    · exact (h.ok type).restart false _
  · rw [get_setRtcStart]
    split
    · exact h.timely type hw
    · exact (h.timely type hw).restart (h.ok type) false _

/-- Only the second cancellation can take a timer away that is needed. -/
theorem step {op : DeviceOp} (hop : d.Nonneg op)
    (hcancel : op = .cancelSecond → watched systemtime → (d.get systemtime).first = none)
    (hs : d.step op = some d') : d'.Sound watched := by
  cases stepped hs with
  | call hcall =>
    obtain ⟨hok, htimely⟩ := step_ok (h.ok _) (InOrderNonneg.inOrder hop) hcall
    exact h.put (.step hcall) hok fun hw => htimely (h.timely _ hw) hop
  | suspendMark => exact h.suspendMark
  | cancelFirst hphase =>
    have hne : d.suspending ≠ .awake := by simp [hphase]
    exact h.cancel (fun _ => .inl (h.suspended.mpr hne)) hne nofun
  | cancelSecond hphase =>
    have hne : d.suspending ≠ .awake := by simp [hphase]
    exact h.cancel (fun hw => .inr (hcancel rfl hw)) hne nofun
  | asleep hphase =>
    exact ⟨h.ok, h.timely, ⟨nofun, fun _ => h.suspended.mpr (by simp [hphase])⟩⟩
  | busy | resume => exact h.wake
  | setRtcStop => exact h.setRtcStop hop
  | settimeofday | tick => exact ⟨h.ok, h.timely, h.suspended⟩
  | setRtcStart => exact h.setRtcStart

end Sound

/-! ## Timers that are off while suspended -/

/-- A timer that wakes the system up and is off stays off until `suspended` is cleared. -/
theorem timer_stays_off {op : DeviceOp} (hsuspended : d.suspended = true)
    (hw : type.isWakeup = true) (ht : (d.get type).timer = none) (hs : d.step op = some d') :
    d'.suspended = false ∨ (d'.get type).timer = none := by
  have hget : (d.get type).suspended = true := by simp [get, hw, hsuspended]
  -- the timer of another queue may be cancelled
  have hcancel (type' : AlarmType) :
      ((d.put type' { d.get type' with timer := none }).get type).timer = none := by
    rw [get_cancelled]
    split
    · rfl
    · exact ht
  cases stepped hs with
  | @call type' op s hcall =>
    have hc := State.Called.step hcall
    right
    by_cases htype : type = type'
    · subst htype
      rw [get_put_self hc]
      exact hc.timer hw hget ht
    · rw [get_put_of_ne htype]
      exact ht
  | suspendMark | asleep | settimeofday | tick => exact .inr ht
  | cancelFirst => exact .inr (hcancel rtcWakeup)
  | cancelSecond => exact .inr (hcancel systemtime)
  | busy | resume => exact .inl rfl
  | setRtcStop =>
    right
    rw [get_setRtcStop]
    split
    · exact ht
    · unfold State.hrtimerTryToCancel
      split
      · exact ht
      · rfl
  | setRtcStart =>
    right
    rw [get_setRtcStart]
    split
    · exact ht
    · exact (State.Called.updateTimerLocked _ false).timer hw hget ht

/-- The timers that are off while the system is suspended, as they should be. -/
structure Off (d : Device) : Prop where
  rtcWakeup : d.suspending = .firstCancelled ∨ d.suspending = .cancelled ∨
    d.suspending = .asleep → (d.get rtcWakeup).timer = none
  elapsed : d.suspending = .asleep → (d.get elapsedRealtimeWakeup).timer = none

theorem Off.step {watched : AlarmType → Prop} {op : DeviceOp} (h : d.Off)
    (hsound : d.Sound watched) (hsound' : d'.Sound watched) (hop : d.Harmless op)
    (hs : d.step op = some d') : d'.Off := by
  -- a timer that was off still is, unless the system is awake again
  have hstays {type : AlarmType} (hw : type.isWakeup = true) (ht : (d.get type).timer = none)
      (hphase : d.suspending ≠ .awake) (hphase' : d'.suspending ≠ .awake) :
      (d'.get type).timer = none := by
    rcases timer_stays_off (hsound.suspended.mpr hphase) hw ht hs with hoff | hoff
    · cases hoff.symm.trans (hsound'.suspended.mpr hphase')
    · exact hoff
  have hsame (hphase : d'.suspending = d.suspending) : d'.Off := by
    constructor
    · intro hoff
      refine hstays rfl (h.rtcWakeup (hphase ▸ hoff)) ?_ ?_
      · rcases hphase ▸ hoff with hoff | hoff | hoff <;> simp [hoff]
      · rcases hoff with hoff | hoff | hoff <;> simp [hoff]
    · intro hoff
      exact hstays rfl (h.elapsed (hphase ▸ hoff)) (by simp [← hphase, hoff]) (by simp [hoff])
  have hawake (hphase : d'.suspending = .awake) : d'.Off := by
    constructor <;> simp [hphase]
  cases stepped hs with
  | suspendMark => exact ⟨by simp [suspendMark], by simp [suspendMark]⟩
  | cancelFirst =>
    refine ⟨fun _ => ?_, fun hphase => by cases hphase⟩
    change ((d.put .rtcWakeup { d.get .rtcWakeup with timer := none }).get .rtcWakeup).timer = none
    rw [get_cancelled, if_pos rfl]
  | cancelSecond hphase =>
    refine ⟨fun _ => hstays rfl (h.rtcWakeup (.inl hphase)) (by simp [hphase]) ?_, ?_⟩
    · intro h
      cases h
    · intro h
      cases h
  | asleep hphase hr =>
    exact ⟨fun _ => h.rtcWakeup (.inr (.inl hphase)), fun _ => hop.2 (not_aboutToGoOff hr)⟩
  | busy | resume => exact hawake rfl
  | call | setRtcStop | settimeofday | setRtcStart | tick => exact hsame rfl

/-! ## One suspend and resume -/

/-- What `alarm_suspend` has made of each queue before it looks at the real time clock. -/
def Cancelled (d d₁ : Device) : Prop :=
  ∀ type, d₁.get type = { d.get type with
    suspended := type.isWakeup
    timer := if type = rtcWakeup ∨ type = systemtime then none else (d.get type).timer }

theorem alarmSuspend_cases {r : RtcReadings} {err : Int} (h : d.alarmSuspend r = some (d', err)) :
    ∃ d₁, Cancelled d d₁ ∧
      ((d' = { d₁ with suspending := .asleep } ∧ err = 0) ∨ (d' = d₁.wake ∧ err = ebusy)) := by
  obtain ⟨d₁, hmark, h⟩ := bind_eq_some_iff.mp h
  obtain ⟨d₂, hfirst, h⟩ := bind_eq_some_iff.mp h
  obtain ⟨d₃, hsecond, h⟩ := bind_eq_some_iff.mp h
  have hget₁ (type : AlarmType) :
      d₁.get type = { d.get type with suspended := type.isWakeup } := by
    cases stepped hmark
    exact get_suspendMark d type
  have hget₂ (type : AlarmType) : d₂.get type =
      if type = rtcWakeup then { d₁.get rtcWakeup with timer := none } else d₁.get type := by
    cases stepped hfirst
    exact get_cancelled d₁ rtcWakeup type
  have hget₃ (type : AlarmType) : d₃.get type =
      if type = systemtime then { d₂.get systemtime with timer := none } else d₂.get type := by
    cases stepped hsecond
    exact get_cancelled d₂ systemtime type
  have hcancelled : Cancelled d d₃ := by
    intro type
    cases type <;> simp [hget₁, hget₂, hget₃]
  have hfinish : d₃.suspendFinish r = (d', err) := some.inj h
  refine ⟨d₃, hcancelled, ?_⟩
  rcases suspendFinish_cases d₃ r with hr | hr
  · cases hr.symm.trans hfinish
    exact .inl ⟨rfl, rfl⟩
  · cases hr.symm.trans hfinish
    exact .inr ⟨rfl, rfl⟩

/-- When the timers have been started again, only that of the queue on system time is
not there. -/
theorem Cancelled.inTime_wake {d₁ : Device} (h : Cancelled d d₁)
    (hsound : d.Sound (· ≠ systemtime)) (hawake : d.suspending = .awake)
    (hidle : ∀ type, (d.get type).triggered = none ∧ (d.get type).stopped = false) :
    (∀ type, (d₁.wake.get type).InTime) ↔ (d.get systemtime).first = none := by
  have hsuspended : d.suspended = false := by
    have := hsound.suspended
    simpa [hawake] using this
  have hsystemtime : d₁.wake.get systemtime = { d.get systemtime with timer := none } := by
    rw [get_wake, h systemtime]
    simp [isWakeup, get]
  have hothers (type : AlarmType) (hne : type ≠ systemtime) : (d₁.wake.get type).InTime := by
    have htimely := hsound.timely type hne
    rw [get_wake]
    split
    · -- started anew, for the same first alarm
      rw [h type]
      have hq : State.Queued { d.get type with
          suspended := false
          timer := if type = rtcWakeup ∨ type = systemtime then none else (d.get type).timer } :=
        ⟨(hsound.ok type).queued.ordered, (hsound.ok type).queued.first⟩
      have harmed := (State.updateTimerLocked_timely hq htimely.nonneg false).2
      obtain ⟨timer, lock, heq⟩ := State.updateTimerLocked_eq { d.get type with
          suspended := false
          timer := if type = rtcWakeup ∨ type = systemtime then none else (d.get type).timer } false
      rw [heq] at harmed ⊢
      exact harmed (hidle type).2 rfl
    next hw =>
      have htimer : ¬(type = rtcWakeup ∨ type = systemtime) := by
        rintro (rfl | rfl)
        · exact hw rfl
        · exact hne rfl
      rw [h type, if_neg htimer]
      refine htimely.armed (hidle type).1 (hidle type).2 ?_
      simp [get, hsuspended]
  constructor
  · intro hall
    have hin := hall systemtime
    have htimer : (d₁.wake.get systemtime).timer = none := by rw [hsystemtime]
    have hfirst := hin.first_of_timer htimer
    rw [hsystemtime] at hfirst
    exact hfirst
  · intro hfirst type
    by_cases htype : type = systemtime
    · subst htype
      rw [hsystemtime]
      intro id hid
      cases hfirst.symm.trans hid
    · exact hothers type htype

/-- `alarm_suspend` leaves the timer of the queue on elapsed real time as it is. -/
theorem Cancelled.timers_off_iff {d₁ : Device} (h : Cancelled d d₁) :
    (∀ type, type.isWakeup = true → (d₁.get type).timer = none) ↔
      (d.get elapsedRealtimeWakeup).timer = none := by
  constructor
  · intro hoff
    have helapsed := hoff elapsedRealtimeWakeup rfl
    rw [h elapsedRealtimeWakeup] at helapsed
    exact helapsed
  · intro helapsed type hw
    rw [h type]
    cases type with
    | rtcWakeup => rfl
    | elapsedRealtimeWakeup => exact helapsed
    | rtc | elapsedRealtime | systemtime => cases hw

/-! ## Runs -/

section Runs

variable {tmpTime systemTime : NormalTimespec}

theorem init_sound (watched : AlarmType → Prop) :
    (alarmLateInit tmpTime systemTime).Sound watched := by
  have hinit (type : AlarmType) : ((alarmLateInit tmpTime systemTime).get type).Ok ∧
      ((alarmLateInit tmpTime systemTime).get type).Timely := reached_timely .init
  exact ⟨fun type => (hinit type).1, fun type _ => (hinit type).2, by simp [alarmLateInit]⟩

theorem reached_sound (h : Reached step Nonneg (alarmLateInit tmpTime systemTime) d) :
    d.Sound (· ≠ systemtime) :=
  h.invariant (init_sound _) fun _ _ _ hsound hop hs =>
    hsound.step hop (fun _ hw => absurd rfl hw) hs

theorem reached_harmless (h : Reached step Harmless (alarmLateInit tmpTime systemTime) d) :
    d.Sound (fun _ => True) ∧ d.Off := by
  refine h.invariant (P := fun d => d.Sound (fun _ => True) ∧ d.Off) ⟨init_sound _, ?_⟩ ?_
  · constructor <;> simp [alarmLateInit]
  · intro d d' op hd hop hs
    have hsound := hd.1.step hop.1 (fun hcancel _ => by subst hcancel; exact hop.2) hs
    exact ⟨hsound, hd.2.step hd.1 hsound hop hs⟩

/-- In runs in which the queue on system time is empty whenever `alarm_suspend` cancels
its second timer, and the timer of the queue on elapsed real time is not enqueued when it
returns 0, the timers are as they should be while the system is awake and while it is
suspended. For each single suspend and resume these two conditions are necessary, too. -/
theorem timers_over_suspend (h : Reached step Nonneg (alarmLateInit tmpTime systemTime) d) :
    (Reached step Harmless (alarmLateInit tmpTime systemTime) d →
      (d.suspending = .awake → ∀ type, (d.get type).triggered = none →
        (d.get type).stopped = false → (d.get type).InTime) ∧
      (d.suspending = .asleep → ∀ type, type.isWakeup = true → (d.get type).timer = none)) ∧
    ∀ r d' err, (∀ type, (d.get type).triggered = none ∧ (d.get type).stopped = false) →
      d.alarmSuspend r = some (d', err) → (err = 0 ∧
        ((∀ type, type.isWakeup = true → (d'.get type).timer = none) ↔
          (d.get elapsedRealtimeWakeup).timer = none) ∧
        ((∀ type, (d'.alarmResume.get type).InTime) ↔ (d.get systemtime).first = none)) ∨
      (err = ebusy ∧ ((∀ type, (d'.get type).InTime) ↔ (d.get systemtime).first = none)) := by
  constructor
  · intro hrun
    obtain ⟨hsound, hoff⟩ := reached_harmless hrun
    constructor
    · intro hawake type hidle hstopped
      have hsuspended : d.suspended = false := by
        have := hsound.suspended
        simpa [hawake] using this
      exact (hsound.timely type trivial).armed hidle hstopped (by simp [get, hsuspended])
    · intro hasleep type hw
      cases type with
      | rtcWakeup => exact hoff.rtcWakeup (.inr (.inr hasleep))
      | elapsedRealtimeWakeup => exact hoff.elapsed hasleep
      | rtc | elapsedRealtime | systemtime => cases hw
  · intro r d' err hidle hsuspend
    have hawake : d.suspending = .awake := by
      obtain ⟨d₁, hmark, -⟩ := bind_eq_some_iff.mp hsuspend
      cases stepped hmark with
      | suspendMark hawake => exact hawake
    obtain ⟨d₁, hcancelled, ⟨rfl, rfl⟩ | ⟨rfl, rfl⟩⟩ := alarmSuspend_cases hsuspend
    · exact .inl ⟨rfl, hcancelled.timers_off_iff,
        hcancelled.inTime_wake (reached_sound h) hawake hidle⟩
    · exact .inr ⟨rfl, hcancelled.inTime_wake (reached_sound h) hawake hidle⟩

end Runs

section OneCycle

/-- The epoch. -/
def epoch : NormalTimespec := setNormalizedTimespec 0 0

/-- Fifty seconds after it. -/
def fifty : NormalTimespec := setNormalizedTimespec 50 0

/-- What `alarm_suspend` reads if the real time clock is at the epoch. -/
def readings : RtcReadings := ⟨0, epoch.toTimespec, 0⟩

def alarmAt (type : AlarmType) (id : AlarmId) (sec : Int) : DeviceOp :=
  .call type (.startAt id sec sec)

/-- Two alarms that wake the system up, of which one is called, and one that does not. Then the
system is suspended, which cancels the timer of the other one, and is resumed. -/
theorem timers_over_suspend_wakeup : ∃ d, Reached step Harmless (alarmLateInit epoch epoch) d ∧
    (d.suspending = .awake ∧ (d.get rtcWakeup).first = some 1 ∧
      (d.get rtcWakeup).triggered = none ∧ (d.get rtcWakeup).stopped = false) ∧
    (d.get rtcWakeup).InTime :=
  Reached.exists_of_checked_and [alarmAt rtcWakeup 1 100, alarmAt rtcWakeup 2 50,
      alarmAt elapsedRealtime 3 70, .call rtcWakeup (.timerTriggered (.ofTimespec fifty)),
      .call rtcWakeup .timerNext, .call rtcWakeup .timerNext, .suspendMark, .cancelFirst,
      .cancelSecond, .suspendFinish readings, .resume] (by decide +kernel)
    fun _ h hd => ((timers_over_suspend (h.mono fun _ _ hop => hop.1)).1 h).1 hd.1 rtcWakeup
      hd.2.2.1 hd.2.2.2

/-- With an alarm on system time and one on elapsed real time that wakes the system up:
the timer of the second stays enqueued while the system is suspended, and that of the
first is not there when it is awake again. -/
theorem suspend_cancels_systemtime : ∃ d d', Reached step Nonneg (alarmLateInit epoch epoch) d ∧
    d.alarmSuspend readings = some (d', 0) ∧ (d'.get elapsedRealtimeWakeup).timer.isSome = true ∧
    (d'.alarmResume.get systemtime).first = some 1 ∧
    (d'.alarmResume.get systemtime).timer = none := by
  have hfirst : Nonneg (alarmLateInit epoch epoch) (alarmAt systemtime 1 100) :=
    ⟨by decide, by decide⟩
  have hrun : Reached step Nonneg (alarmLateInit epoch epoch) _ :=
    (Reached.init.step hfirst rfl).step
      (show Nonneg _ (alarmAt elapsedRealtimeWakeup 2 100) from ⟨by decide, by decide⟩) rfl
  exact ⟨_, _, hrun, rfl, rfl, rfl, rfl⟩

end OneCycle

end Device

end AndroidKernel.Alarms
