import AndroidKernel.Lib.Rbtree
import AndroidKernel.Lib.Runs
import AndroidKernel.Rtc.Ktime

/-!
# Android alarms (`drivers/rtc/alarm.c`)

One alarm queue: a tree of alarms ordered by `expires`, the cached leftmost node
`first`, and the hrtimer that runs `alarm_timer_triggered`. The tree holds the names of
alarms; their times are in a table, because `alarm_start_range` changes the times of an
alarm that may still be in the tree.

`alarm_timer_triggered` gives the lock up around each callback. What callbacks do, and
what other processors do in the meantime, are calls that come between its locked
sections. The first of these is entered with `now` already read; here, too, other calls
may come in between, which only adds runs. `called` is not in the code.
-/

namespace AndroidKernel.Alarms

open Rbtree

abbrev AlarmId := Nat

/-- `struct alarm`; `linked` is the opposite of `RB_EMPTY_NODE`. -/
structure Alarm where
  linked : Bool
  softexpires : KTime
  expires : KTime

/-- A run of `alarm_timer_triggered`, with the alarms that it has called and their
`softexpires` at that point. -/
structure Triggered where
  now : KTime
  called : List (AlarmId × KTime)

/-- `struct alarm_queue`, with the alarms themselves and the driver's variables. -/
structure State where
  alarm : AlarmId → Alarm
  alarms : Rbtree AlarmId
  first : Option AlarmId
  /-- the hrtimer, while it is enqueued -/
  timer : Option Hrtimer
  delta : KTime
  stopped : Bool
  stoppedTime : KTime
  /-- whether this is one of the two queues that wake the system up -/
  isWakeup : Bool
  suspended : Bool
  /-- whether `alarm_rtc_wake_lock` is held -/
  rtcWakeLock : Bool
  triggered : Option Triggered

namespace State

/-- An empty queue. -/
def init (delta : KTime) (stopped : Bool) (stoppedTime : KTime) (isWakeup suspended : Bool) :
    State where
  alarm _ := ⟨false, .zero, .zero⟩
  alarms := .nil
  first := none
  timer := none
  delta := delta
  stopped := stopped
  stoppedTime := stoppedTime
  isWakeup := isWakeup
  suspended := suspended
  rtcWakeLock := false
  triggered := none

variable (s : State) (id entry : AlarmId)

/-- `update_timer_locked`. -/
def updateTimerLocked (headRemoved : Bool) : State :=
  if s.stopped then s
  else
    let s :=
      if s.isWakeup && !s.suspended && headRemoved then { s with rtcWakeLock := false } else s
    match s.first with
    | none => s
    | some id =>
      if s.isWakeup && s.suspended then { s with rtcWakeLock := true }
      else
        { s with
          timer := some (hrtimerStartExpires (s.delta.add (s.alarm id).softexpires)
            (s.delta.add (s.alarm id).expires)) }

/-- `base->first` moves on if it is this alarm. -/
def skipFirst : State :=
  if s.first = some id then { s with first := rbNext id s.alarms } else s

/-- `rb_erase` and `RB_CLEAR_NODE`. -/
def removeNode : State :=
  { s with
    alarms := rbErase id s.alarms
    alarm := Function.update s.alarm id { s.alarm id with linked := false } }

/-- The first lines of `alarm_enqueue_locked`: an alarm that is queued leaves the tree. -/
def detach : State :=
  let s := s.skipFirst id
  if (s.alarm id).linked then s.removeNode id else s

/-- The comparison by which `alarm_enqueue_locked` goes left. -/
def goesLeft : Bool :=
  (s.alarm id).expires.tv64 < (s.alarm entry).expires.tv64

/-- `rb_link_node` and `rb_insert_color` at the place that the descent leads to. -/
def linkNode : State :=
  { s with
    alarms := insertAt (s.goesLeft id) id s.alarms
    alarm := Function.update s.alarm id { s.alarm id with linked := true } }

/-- The rest of `alarm_enqueue_locked`: the descent finds the alarm's place, and whether
it is the leftmost one. -/
def attach : State :=
  let leftmost := (visited (s.goesLeft id) s.alarms).all (s.goesLeft id)
  let s := if leftmost then { s with first := some id }.updateTimerLocked false else s
  s.linkNode id

/-- `alarm_enqueue_locked`. -/
def alarmEnqueueLocked : State := (s.detach id).attach id

/-- `alarm_start_range`. -/
def alarmStartRange (start «end» : KTime) : State :=
  { s with
    alarm := Function.update s.alarm id
      { s.alarm id with softexpires := start, expires := «end» } }.alarmEnqueueLocked id

/-- `alarm_try_to_cancel`. -/
def alarmTryToCancel : State × Int :=
  if (s.alarm id).linked then
    let first := s.first = some id
    let s := (s.skipFirst id).removeNode id
    (if first then s.updateTimerLocked true else s, 1)
  else
    -- `hrtimer_callback_running`
    (s, if s.triggered.isSome then -1 else 0)

/-- The start of `alarm_timer_triggered`; the timer has just been taken off its queue
and reads `time`. -/
def alarmTimerTriggered (time : KTime) : Option State :=
  match s.triggered with
  | some _ => none
  | none =>
    let now := if s.stopped then s.stoppedTime else time
    some { s with timer := none, triggered := some ⟨now.sub s.delta, []⟩ }

/-- A locked section of `alarm_timer_triggered`: up to the next callback, or to the end. -/
def alarmTimerNext : Option State :=
  match s.triggered with
  | none => none
  | some run =>
    let done := { s.updateTimerLocked true with triggered := none }
    match s.first with
    | none => some done
    | some id =>
      if run.now.tv64 < (s.alarm id).softexpires.tv64 then some done
      else
        let s' := { s with first := rbNext id s.alarms }.removeNode id
        some { s' with
          triggered := some ⟨run.now, run.called ++ [(id, (s.alarm id).softexpires)]⟩ }

end State

inductive Op where
  | startRange (id : AlarmId) (start «end» : KTime)
  | tryToCancel (id : AlarmId)
  | timerTriggered (time : KTime)
  | timerNext

def State.step (s : State) : Op → Option State
  | .startRange id start «end» => some (s.alarmStartRange id start «end»)
  | .tryToCancel id => some (s.alarmTryToCancel id).1
  | .timerTriggered time => s.alarmTimerTriggered time
  | .timerNext => s.alarmTimerNext

end AndroidKernel.Alarms
