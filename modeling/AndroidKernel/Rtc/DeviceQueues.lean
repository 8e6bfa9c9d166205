import AndroidKernel.Rtc.Device

/-!
# What each step does to each queue

A call for one queue is a step of that queue which the others do not see. The functions
for several queues are described by what they make of each of them.
-/

namespace AndroidKernel.Alarms

open AlarmType Option Function

variable {s s' s₁ s₂ : State}

/-! ## What the calls for one queue leave alone -/

/-- The variables that only `alarm_suspend`, `alarm_resume` and `alarm_set_rtc` change.
A queue that wakes the system up does not start its timer while it is suspended. -/
structure State.Called (s s' : State) : Prop where
  isWakeup : s'.isWakeup = s.isWakeup
  suspended : s'.suspended = s.suspended
  stopped : s'.stopped = s.stopped
  stoppedTime : s'.stoppedTime = s.stoppedTime
  delta : s'.delta = s.delta
  timer : s.isWakeup = true → s.suspended = true → s.timer = none → s'.timer = none

namespace State.Called

/-- The queue itself may change. -/
theorem queue (s : State) (alarm : AlarmId → Alarm) (alarms : Rbtree AlarmId)
    (first : Option AlarmId) (triggered : Option Triggered) :
    Called s { s with alarm := alarm, alarms := alarms, first := first, triggered := triggered } :=
  ⟨rfl, rfl, rfl, rfl, rfl, fun _ _ h => h⟩

theorem trans (h : Called s s₁) (h' : Called s₁ s₂) : Called s s₂ where
  isWakeup := h'.isWakeup.trans h.isWakeup
  suspended := h'.suspended.trans h.suspended
  stopped := h'.stopped.trans h.stopped
  stoppedTime := h'.stoppedTime.trans h.stoppedTime
  delta := h'.delta.trans h.delta
  timer hw hs ht := h'.timer (h.isWakeup.trans hw) (h.suspended.trans hs) (h.timer hw hs ht)

theorem updateTimerLocked (s : State) (headRemoved : Bool) :
    Called s (s.updateTimerLocked headRemoved) := by
  obtain ⟨timer, lock, heq⟩ := updateTimerLocked_eq s headRemoved
  refine ⟨by rw [heq], by rw [heq], by rw [heq], by rw [heq], by rw [heq], ?_⟩
  intro hw hs ht
  obtain ⟨lock, hlock⟩ := unlock_eq s (s.isWakeup && !s.suspended && headRemoved)
  unfold State.updateTimerLocked
  rw [hlock]
  split
  · exact ht
  · simp only [hw, hs]
    split <;> exact ht

section

variable (s : State) (id : AlarmId)

theorem skipFirst : Called s (s.skipFirst id) := by
  rw [skipFirst_eq]
  exact queue s _ _ _ _

theorem removeNode : Called s (s.removeNode id) := queue s _ _ _ _

theorem alarmStartRange (start «end» : KTime) : Called s (s.alarmStartRange id start «end») := by
  have hdetach (s : State) : Called s (s.detach id) := by
    unfold State.detach
    dsimp only
    split
    · exact (skipFirst s id).trans (removeNode _ id)
    · exact skipFirst s id
  have hattach (s : State) : Called s (s.attach id) := by
    unfold State.attach
    dsimp only
    split
    · have hfirst := queue s s.alarm s.alarms (some id) s.triggered
      exact (hfirst.trans (updateTimerLocked _ false)).trans (queue _ _ _ _ _)
    · exact queue s _ _ _ _
  exact ((queue s _ _ _ _).trans (hdetach _)).trans (hattach _)

theorem alarmTryToCancel : Called s (s.alarmTryToCancel id).1 := by
  unfold State.alarmTryToCancel
  split
  · have hout := (skipFirst s id).trans (removeNode _ id)
    dsimp only
    split
    · exact hout.trans (updateTimerLocked _ true)
    · exact hout
  · exact queue s _ _ _ _

end

theorem alarmTimerNext (hs : s.alarmTimerNext = some s') : Called s s' := by
  have hdone : Called s { s.updateTimerLocked true with triggered := none } :=
    (updateTimerLocked s true).trans (queue _ _ _ _ _)
  unfold State.alarmTimerNext at hs
  split at hs
  · cases hs
  split at hs
  · cases hs
    exact hdone
  · split at hs
    · cases hs
      exact hdone
    · cases hs
      exact queue s _ _ _ _

/-- Every call for a queue is such a one. -/
theorem step {op : Op} (hs : s.step op = some s') : Called s s' := by
  cases op with
  | startRange id start «end» =>
    cases hs
    exact alarmStartRange s id start «end»
  | tryToCancel id =>
    cases hs
    exact alarmTryToCancel s id
  | timerTriggered time =>
    simp only [State.step, State.alarmTimerTriggered] at hs
    split at hs
    · cases hs
    · cases hs
      exact ⟨rfl, rfl, rfl, rfl, rfl, fun _ _ _ => rfl⟩
  | timerNext => exact alarmTimerNext hs

end State.Called

/-! ## Reading a queue back -/

namespace Device

variable {d d' : Device} {type type' : AlarmType}

/-- A queue that has only been called is read back as it was stored. -/
theorem get_put_self (h : State.Called (d.get type) s) : (d.put type s).get type = s := by
  have hw : s.isWakeup = type.isWakeup := h.isWakeup
  have hs : s.suspended = (type.isWakeup && d.suspended) := h.suspended
  unfold get put
  simp only [update_self]
  rw [← hw] at hs ⊢
  rw [← hs]

theorem get_put_of_ne (h : type' ≠ type) : (d.put type s).get type' = d.get type' := by
  simp [get, put, update_of_ne h]

theorem get_suspendMark (d : Device) (type : AlarmType) :
    d.suspendMark.get type = { d.get type with suspended := type.isWakeup } := by
  simp [get, suspendMark]

/-- A cancelled timer is not enqueued, and nothing else changes. -/
theorem hrtimerCancel_eq {i : Nat} (hi : ofIndex i = some type) (h : d.hrtimerCancel i = some d') :
    (d.get type).triggered = none ∧ d' = d.put type { d.get type with timer := none } := by
  unfold hrtimerCancel State.hrtimerCancel at h
  rw [hi, bind_some] at h
  split at h
  · cases h
  next hrun =>
    cases h
    exact ⟨by simpa using hrun, rfl⟩

theorem get_cancelled (d : Device) (type type' : AlarmType) :
    (d.put type { d.get type with timer := none }).get type' =
      if type' = type then { d.get type with timer := none } else d.get type' := by
  split
  next h =>
    subst h
    exact get_put_self ⟨rfl, rfl, rfl, rfl, rfl, fun _ _ _ => rfl⟩
  next h =>
    exact get_put_of_ne h

theorem get_updateTimerLocked (d : Device) (type type' : AlarmType) :
    (d.updateTimerLocked type).get type' =
      if type' = type then (d.get type).updateTimerLocked false else d.get type' := by
  split
  next h =>
    subst h
    exact get_put_self (.updateTimerLocked _ _)
  next h =>
    exact get_put_of_ne h

/-- `alarm_resume` starts the timers of the queues that wake the system up. -/
theorem get_wake (d : Device) (type : AlarmType) : d.wake.get type =
      if type.isWakeup then { d.get type with suspended := false }.updateTimerLocked false
      else d.get type := by
  have hawake (type : AlarmType) :
      get { d with suspended := false, suspending := .awake } type =
        { d.get type with suspended := false } := by simp [get]
  unfold wake
  rw [get_updateTimerLocked, get_updateTimerLocked, get_updateTimerLocked]
  cases type <;> simp
  all_goals simp [get, isWakeup]

theorem get_setRtcStop (d : Device) (newTime : Timespec) (type : AlarmType) :
    (d.setRtcStop newTime).get type = if type = systemtime then d.get type
      else
        { (d.get type).hrtimerTryToCancel with
          stopped := true
          stoppedTime := .ofTimespec d.wall.toTimespec
          delta := if type.isElapsed then
              (d.get elapsedRealtime).delta.sub
                (.ofTimespec (timespecSub d.wall.toTimespec.toTimespec newTime))
            else (d.get type).delta } := by
  unfold setRtcStop
  by_cases h : type = systemtime
  · simp [get, h]
  · by_cases hrun : (d.queue type).triggered.isSome <;>
      simp [get, h, hrun, State.hrtimerTryToCancel]

theorem get_startQueue (d : Device) (type type' : AlarmType) : (d.startQueue type).get type' =
      if type' = type then { d.get type with stopped := false }.updateTimerLocked false
      else d.get type' := by
  have hc := State.Called.updateTimerLocked { d.get type with stopped := false } false
  split
  next h =>
    subst h
    unfold startQueue put get at *
    have hw := hc.isWakeup
    have hs := hc.suspended
    simp only [update_self] at hw hs ⊢
    generalize State.updateTimerLocked _ false = s at hw hs
    rw [← hs, ← hw]
  next h =>
    exact get_put_of_ne h

theorem get_setRtcStart (d : Device) (type : AlarmType) : d.setRtcStart.get type =
      if type = systemtime then d.get type
      else { d.get type with stopped := false }.updateTimerLocked false := by
  have hget : d.setRtcStart.get type =
      ([rtcWakeup, rtc, elapsedRealtimeWakeup, elapsedRealtime].foldl startQueue d).get type := rfl
  rw [hget]
  simp only [List.foldl_cons, List.foldl_nil, get_startQueue]
  cases type <;> simp

/-! ## Steps -/

/-- What a step can do. -/
inductive Stepped (d : Device) : DeviceOp → Device → Prop
  | call {type : AlarmType} {op : Op} {s : State} (h : (d.get type).step op = some s) :
      Stepped d (.call type op) (d.put type s)
  | suspendMark (h : d.suspending = .awake) : Stepped d .suspendMark d.suspendMark
  | cancelFirst (h : d.suspending = .marked) (hrun : (d.get rtcWakeup).triggered = none) :
      Stepped d .cancelFirst { d.put rtcWakeup { d.get rtcWakeup with timer := none } with
        suspending := .firstCancelled }
  | cancelSecond (h : d.suspending = .firstCancelled)
      (hrun : (d.get systemtime).triggered = none) :
      Stepped d .cancelSecond { d.put systemtime { d.get systemtime with timer := none } with
        suspending := .cancelled }
  | asleep {r : RtcReadings} (h : d.suspending = .cancelled) (hr : (d.suspendFinish r).2 = 0) :
      Stepped d (.suspendFinish r) { d with suspending := .asleep }
  | busy {r : RtcReadings} (h : d.suspending = .cancelled) (hr : (d.suspendFinish r).2 = ebusy) :
      Stepped d (.suspendFinish r) d.wake
  | resume (h : d.suspending = .asleep) : Stepped d .resume d.wake
  | setRtcStop {newTime : Timespec} (h : d.settingRtc = .idle) :
      Stepped d (.setRtcStop newTime) (d.setRtcStop newTime)
  | settimeofday {newTime : Timespec} {wall : KTime} (h : d.settingRtc = .stopped newTime)
      (hwall : wall = (d.doSettimeofday newTime).1.wall) :
      Stepped d .settimeofday { d with wall := wall, settingRtc := .timeSet }
  | setRtcStart (h : d.settingRtc = .timeSet) : Stepped d .setRtcStart d.setRtcStart
  | tick {wall : KTime} : Stepped d (.tick wall) { d with wall := wall }

/-- It returns 0 only if the real time clock is not about to go off. -/
theorem not_aboutToGoOff {d : Device} {r : RtcReadings} (h : (d.suspendFinish r).2 = 0) :
    d.wakeupQueue.any (d.aboutToGoOff r) = false := by
  unfold suspendFinish at h
  split at h
  next hnone => rw [hnone, Option.any_none]
  next type hsome =>
    split at h
    next => cases h
    next hoff => rw [hsome, Option.any_some, Bool.eq_false_of_not_eq_true hoff]

/-- The result of `alarm_suspend` says what it has done. -/
theorem suspendFinish_cases (d : Device) (r : RtcReadings) :
    d.suspendFinish r = ({ d with suspending := .asleep }, 0) ∨
    d.suspendFinish r = (d.wake, ebusy) := by
  unfold suspendFinish
  split
  · exact .inl rfl
  · split
    · exact .inr rfl
    · exact .inl rfl

theorem stepped {op : DeviceOp} (hs : d.step op = some d') : Stepped d op d' := by
  cases op with
  | call type op =>
    obtain ⟨s, hcall, rfl⟩ := map_eq_some_iff.mp hs
    exact .call hcall
  | suspendMark | resume | setRtcStop | setRtcStart =>
    obtain ⟨h, rfl⟩ := ite_some_none_eq_some.mp hs
    constructor
    exact h
  | cancelFirst =>
    obtain ⟨h, hs⟩ := ite_none_right_eq_some.mp hs
    obtain ⟨d₁, hcancel, rfl⟩ := map_eq_some_iff.mp hs
    have hi : ofIndex rtcWakeup.toIndex = some rtcWakeup := rfl
    obtain ⟨hrun, rfl⟩ := hrtimerCancel_eq hi hcancel
    exact .cancelFirst h hrun
  | cancelSecond =>
    obtain ⟨h, hs⟩ := ite_none_right_eq_some.mp hs
    obtain ⟨d₁, hcancel, rfl⟩ := map_eq_some_iff.mp hs
    -- the mask of a queue is taken for its index
    have hi : ofIndex elapsedRealtimeWakeup.mask = some systemtime := rfl
    obtain ⟨hrun, rfl⟩ := hrtimerCancel_eq hi hcancel
    exact .cancelSecond h hrun
  | suspendFinish r =>
    obtain ⟨h, hs⟩ := ite_none_right_eq_some.mp hs
    rcases suspendFinish_cases d r with hr | hr
    · rw [hr] at hs
      cases hs
      exact .asleep h (by rw [hr])
    · rw [hr] at hs
      cases hs
      exact .busy h (by rw [hr])
  | settimeofday =>
    unfold step at hs
    dsimp only at hs
    split at hs
    next newTime hstopped =>
      have hwall : (d.doSettimeofday newTime).1 =
          { d with wall := (d.doSettimeofday newTime).1.wall } := by
        unfold doSettimeofday
        split <;> rfl
      rw [hwall] at hs
      cases hs
      exact .settimeofday hstopped rfl
    · cases hs
  | tick wall =>
    cases hs
    exact .tick

end Device

end AndroidKernel.Alarms
