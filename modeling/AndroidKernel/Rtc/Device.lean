import AndroidKernel.Rtc.AlarmQueue

/-!
# The five alarm queues (`drivers/rtc/alarm.c`)

`alarms[]` with the functions that work on several queues: `alarm_suspend`,
`alarm_resume` and `alarm_set_rtc`. Each of them gives `alarm_slock` up on its way, so
they are cut into the steps between which calls for single queues can come.

What the real time clock says, and the cached wall time `xtime`, are arguments of the
last step of `alarm_suspend`. `alarm_rtc_wake_lock` is shared by the queues but read by
none of these functions; the copies in the queues are not kept equal.
-/

namespace AndroidKernel

/-! ## Times as seconds and nanoseconds -/

/-- `struct timespec`. -/
structure Timespec where
  tvSec : Int
  tvNsec : Int
  deriving DecidableEq

/-- A `timespec` with its nanoseconds in their range. -/
structure NormalTimespec extends Timespec where
  nonneg : 0 ≤ tvNsec
  lt : tvNsec < 10 ^ 9
  deriving DecidableEq

/-- `set_normalized_timespec`; its loops count the whole seconds in `nsec`. -/
def setNormalizedTimespec (sec nsec : Int) : NormalTimespec where
  tvSec := long (sec + nsec / 10 ^ 9)
  tvNsec := nsec % 10 ^ 9
  nonneg := Int.emod_nonneg _ (by decide)
  lt := Int.emod_lt_of_pos _ (by decide)

/-- `timespec_sub`; both differences are of type `long`. -/
def timespecSub (lhs rhs : Timespec) : NormalTimespec :=
  setNormalizedTimespec (long (lhs.tvSec - rhs.tvSec)) (long (lhs.tvNsec - rhs.tvNsec))

namespace KTime

/-- `timespec_to_ktime`. -/
def ofTimespec (ts : NormalTimespec) : KTime :=
  set ts.tvSec ts.tvNsec.toNat (by have := ts.nonneg; have := ts.lt; omega)

/-- `ktime_to_timespec`. -/
def toTimespec (kt : KTime) : NormalTimespec where
  tvSec := kt.sec
  tvNsec := kt.nsec
  nonneg := Int.emod_nonneg _ (by decide)
  lt := kt.normal

end KTime

namespace Alarms

/-- `enum android_alarm_type`. -/
inductive AlarmType where
  | rtcWakeup
  | rtc
  | elapsedRealtimeWakeup
  | elapsedRealtime
  | systemtime
  deriving DecidableEq

namespace AlarmType

def toIndex : AlarmType → Nat
  | rtcWakeup => 0
  | rtc => 1
  | elapsedRealtimeWakeup => 2
  | elapsedRealtime => 3
  | systemtime => 4

/-- The queue at an index of `alarms[]`. -/
def ofIndex : Nat → Option AlarmType
  | 0 => some rtcWakeup
  | 1 => some rtc
  | 2 => some elapsedRealtimeWakeup
  | 3 => some elapsedRealtime
  | 4 => some systemtime
  | _ => none

/-- `enum android_alarm_return_flags`: `1U << type`. -/
def mask (type : AlarmType) : Nat := 1 <<< type.toIndex

/-- `is_wakeup` of `update_timer_locked`. -/
def isWakeup : AlarmType → Bool
  | rtcWakeup | elapsedRealtimeWakeup => true
  | _ => false

/-- Whether the queue runs on elapsed real time. -/
def isElapsed : AlarmType → Bool
  | elapsedRealtimeWakeup | elapsedRealtime => true
  | _ => false

end AlarmType

open AlarmType

/-- How far `alarm_suspend` has got. -/
inductive Suspending where
  /-- not called, or it has returned `-EBUSY` or has been followed by `alarm_resume` -/
  | awake
  /-- `suspended` is set -/
  | marked
  /-- the first timer is cancelled -/
  | firstCancelled
  /-- both timers are cancelled -/
  | cancelled
  /-- it has returned 0 -/
  | asleep
  deriving DecidableEq

/-- How far `alarm_set_rtc` has got. -/
inductive SettingRtc where
  | idle
  /-- between the first locked section and `do_settimeofday` -/
  | stopped (newTime : Timespec)
  /-- between `do_settimeofday` and the second locked section -/
  | timeSet
  deriving DecidableEq

/-- What `alarm_suspend` reads: the time of the real time clock, in seconds, before and
after the alarm is set in it, and `xtime`. -/
structure RtcReadings where
  rtcCurrentSec : Int
  xtime : Timespec
  rtcCurrentTime : Nat

/-- `alarms[]` and the variables of the driver. -/
structure Device where
  queue : AlarmType → State
  /-- `timer._expires`, which stays when the timer is no longer enqueued -/
  timerExpires : AlarmType → KTime
  suspended : Bool
  /-- the wall time, `ktime_get_real` -/
  wall : KTime
  suspending : Suspending
  settingRtc : SettingRtc

namespace State

/-- `hrtimer_try_to_cancel`: a timer whose callback is running is left alone. -/
def hrtimerTryToCancel (s : State) : State :=
  if s.triggered.isSome then s else { s with timer := none }

/-- `hrtimer_cancel`, which waits for a callback. -/
def hrtimerCancel (s : State) : Option State :=
  if s.triggered.isSome then none else some { s with timer := none }

end State

namespace Device

variable (d : Device) (r : RtcReadings) (type : AlarmType)

/-- A queue with the variables that its functions read. They look at `suspended` only
if the queue wakes the system up. -/
def get : State :=
  { d.queue type with
    isWakeup := type.isWakeup
    suspended := type.isWakeup && d.suspended }

/-- A queue is stored back. -/
def put (s : State) : Device :=
  { d with
    queue := Function.update d.queue type s
    timerExpires := Function.update d.timerExpires type
      ((s.timer.map Hrtimer.expires).getD (d.timerExpires type)) }

def updateTimerLocked (d : Device) (type : AlarmType) : Device :=
  d.put type ((d.get type).updateTimerLocked false)

/-- The queues after `alarm_driver_init` and `alarm_late_init`. -/
def alarmLateInit (tmpTime systemTime : NormalTimespec) : Device where
  queue type :=
    .init (if type.isElapsed then
        .ofTimespec (timespecSub tmpTime.toTimespec systemTime.toTimespec)
      else .zero) false .zero type.isWakeup false
  timerExpires _ := .zero
  suspended := false
  wall := .ofTimespec tmpTime
  suspending := .awake
  settingRtc := .idle

/-! ## Suspending -/

/-- The first locked section of `alarm_suspend`. -/
def suspendMark : Device :=
  { d with suspended := true, suspending := .marked }

/-- `hrtimer_cancel(&alarms[i].timer)`. -/
def hrtimerCancel (d : Device) (i : Nat) : Option Device :=
  (ofIndex i).bind fun type => (d.get type).hrtimerCancel.map (d.put type)

/-- The queue whose timer is taken for the alarm of the real time clock. -/
def wakeupQueue : Option AlarmType :=
  let wakeup := if (d.get rtcWakeup).first.isSome then some rtcWakeup else none
  if (d.get elapsedRealtimeWakeup).first.isSome &&
      wakeup.all (fun type =>
        (d.timerExpires elapsedRealtimeWakeup).tv64 < (d.timerExpires type).tv64) then
    some elapsedRealtimeWakeup
  else wakeup

/-- Whether the real time clock would go off for this queue within a second. -/
def aboutToGoOff : Bool :=
  let rtcDelta := timespecSub r.xtime ⟨r.rtcCurrentSec, 0⟩
  let rtcAlarmTime :=
    ulong (timespecSub (d.timerExpires type).toTimespec.toTimespec rtcDelta.toTimespec).tvSec
  rtcAlarmTime ≤ ulong (r.rtcCurrentTime + 1)

/-- The locked section in which `alarm_suspend` gives up, and that of `alarm_resume`. -/
def wake : Device :=
  let d := { d with suspended := false, suspending := .awake }
  (d.updateTimerLocked rtcWakeup).updateTimerLocked elapsedRealtimeWakeup

def ebusy : Int := -16

/-- The rest of `alarm_suspend`, with the result. -/
def suspendFinish : Device × Int :=
  match d.wakeupQueue with
  | none => ({ d with suspending := .asleep }, 0)
  | some type =>
    if d.aboutToGoOff r type then (d.wake, ebusy) else ({ d with suspending := .asleep }, 0)

/-- `alarm_resume`. -/
def alarmResume : Device := d.wake

/-! ## Setting the wall time -/

/-- The first locked section of `alarm_set_rtc`. -/
def setRtcStop (newTime : Timespec) : Device :=
  let tmpTime := d.wall.toTimespec
  let delta := (d.get elapsedRealtime).delta.sub
    (.ofTimespec (timespecSub tmpTime.toTimespec newTime))
  let stop (type : AlarmType) (s : State) : State :=
    if type = systemtime then s
    else
      { s.hrtimerTryToCancel with
        stopped := true
        stoppedTime := .ofTimespec tmpTime
        delta := if type.isElapsed then delta else s.delta }
  { d with
    queue := fun type => stop type (d.queue type)
    settingRtc := .stopped newTime }

def einval : Int := -22

/-- `do_settimeofday`. -/
def doSettimeofday (tv : Timespec) : Device × Int :=
  if h : 0 ≤ tv.tvNsec ∧ tv.tvNsec < 10 ^ 9 then
    ({ d with wall := .ofTimespec ⟨tv, h.1, h.2⟩ }, 0)
  else (d, einval)

/-- The body of the loop in the second locked section of `alarm_set_rtc`. -/
def startQueue : Device :=
  d.put type ({ d.get type with stopped := false }.updateTimerLocked false)

/-- The second locked section of `alarm_set_rtc`. -/
def setRtcStart : Device :=
  { [rtcWakeup, rtc, elapsedRealtimeWakeup, elapsedRealtime].foldl startQueue d with
    settingRtc := .idle }

/-- The time of a queue's clock, as `alarm_get_elapsed_realtime` and
`alarm_timer_triggered` take it. -/
def now : KTime :=
  (if (d.get type).stopped then (d.get type).stoppedTime else d.wall).sub (d.get type).delta

/-- `alarm_get_elapsed_realtime`. -/
def alarmGetElapsedRealtime : KTime := d.now elapsedRealtime

end Device

/-! ## Steps -/

inductive DeviceOp where
  /-- a call for one queue -/
  | call (type : AlarmType) (op : Op)
  | suspendMark
  | cancelFirst
  | cancelSecond
  | suspendFinish (r : RtcReadings)
  | resume
  | setRtcStop (newTime : Timespec)
  | settimeofday
  | setRtcStart
  /-- the wall time passes -/
  | tick (wall : KTime)

def Device.step (d : Device) : DeviceOp → Option Device
  | .call type op => ((d.get type).step op).map (d.put type)
  | .suspendMark => if d.suspending = .awake then some d.suspendMark else none
  | .cancelFirst =>
    if d.suspending = .marked then
      (d.hrtimerCancel rtcWakeup.toIndex).map ({ · with suspending := .firstCancelled })
    else none
  | .cancelSecond =>
    if d.suspending = .firstCancelled then
      (d.hrtimerCancel elapsedRealtimeWakeup.mask).map ({ · with suspending := .cancelled })
    else none
  | .suspendFinish r =>
    if d.suspending = .cancelled then some (d.suspendFinish r).1 else none
  | .resume => if d.suspending = .asleep then some d.alarmResume else none
  | .setRtcStop newTime => if d.settingRtc = .idle then some (d.setRtcStop newTime) else none
  | .settimeofday =>
    match d.settingRtc with
    | .stopped newTime => some { (d.doSettimeofday newTime).1 with settingRtc := .timeSet }
    | _ => none
  | .setRtcStart => if d.settingRtc = .timeSet then some d.setRtcStart else none
  | .tick wall => some { d with wall := wall }

/-- `alarm_suspend`, with no other call on its way. -/
def Device.alarmSuspend (d : Device) (r : RtcReadings) : Option (Device × Int) := do
  let d ← d.step .suspendMark
  let d ← d.step .cancelFirst
  let d ← d.step .cancelSecond
  return d.suspendFinish r

end Alarms

end AndroidKernel
