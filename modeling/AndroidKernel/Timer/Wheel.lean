import AndroidKernel.Lib.Words

/-!
# The timers of `kernel/timer.c`

The timer wheel of one processor, for a kernel with `CONFIG_BASE_SMALL=0` and without `CONFIG_SMP`:
there is one `tvec_base`, and `timer->base` is always that one. `unsigned long` has 32 bits.

A timer is known by a number. It is pending if it is in a list: in a bucket of the wheel, or in
the work list of `__run_timers`.
-/

namespace AndroidKernel.Timer

def tvnBits : Nat := 6

def tvrBits : Nat := 8

def tvnSize : Nat := 2 ^ tvnBits

def tvrSize : Nat := 2 ^ tvrBits

/-- The vectors of a `struct tvec_base`. -/
inductive Level
  | tv1
  | tv2
  | tv3
  | tv4
  | tv5
  deriving DecidableEq

namespace Level

/-- The lowest bit of a time that selects a bucket. -/
def shift : Level → Nat
  | tv1 => 0
  | tv2 => tvrBits
  | tv3 => tvrBits + tvnBits
  | tv4 => tvrBits + 2 * tvnBits
  | tv5 => tvrBits + 3 * tvnBits

/-- How many bits select it. -/
def bits : Level → Nat
  | tv1 => tvrBits
  | _ => tvnBits

end Level

/-- `struct timer_list`. The flag in `base` is a field of its own. -/
structure TimerList where
  /-- `timer_pending`. -/
  pending : Bool
  expires : Nat
  deferrable : Bool

/-- `struct tvec_base`. -/
structure TvecBase where
  timerJiffies : Nat
  nextTimer : Nat
  vec : Level → Nat → List Nat

/-- `time_before`. -/
def timeBefore (a b : Nat) : Prop := long ((a : Int) - b) < 0
  deriving Decidable

/-- `time_after_eq`. -/
def timeAfterEq (a b : Nat) : Prop := 0 ≤ long ((a : Int) - b)
  deriving Decidable

namespace TvecBase

/-- The vector and the bucket that `internal_add_timer` selects. With 32 bits `idx` is never above
`0xffffffff`. -/
def bucket (timerJiffies expires : Nat) : Level × Nat :=
  let idx := ulong ((expires : Int) - timerJiffies)
  if idx < tvrSize then (.tv1, expires % tvrSize)
  else if idx < 2 ^ (tvrBits + tvnBits) then (.tv2, expires / 2 ^ tvrBits % tvnSize)
  else if idx < 2 ^ (tvrBits + 2 * tvnBits) then
    (.tv3, expires / 2 ^ (tvrBits + tvnBits) % tvnSize)
  else if idx < 2 ^ (tvrBits + 3 * tvnBits) then
    (.tv4, expires / 2 ^ (tvrBits + 2 * tvnBits) % tvnSize)
  else if long idx < 0 then (.tv1, timerJiffies % tvrSize)
  else (.tv5, expires / 2 ^ (tvrBits + 3 * tvnBits) % tvnSize)

variable (expires : Nat → Nat) (base : TvecBase) (tv : Level)

/-- `list_add_tail`. -/
def addTail (place : Level × Nat) (timer : Nat) : TvecBase :=
  { base with
    vec := fun level i =>
      if (level, i) = place then base.vec level i ++ [timer] else base.vec level i }

/-- `internal_add_timer`, for a timer with this `expires`. -/
def internalAddTimer (expires timer : Nat) : TvecBase :=
  base.addTail (bucket base.timerJiffies expires) timer

/-- The timer is unlinked from the list that it is in. -/
def unlink (timer : Nat) : TvecBase :=
  { base with vec := fun level i => (base.vec level i).filter (· ≠ timer) }

/-- `list_replace_init` of a bucket. -/
def replaceInit (place : Level × Nat) : TvecBase :=
  { base with vec := fun level i => if (level, i) = place then [] else base.vec level i }

/-- The loop of `cascade` over the timers that it has taken out. -/
def addAll (timers : List Nat) : TvecBase :=
  timers.foldl (fun base timer => base.internalAddTimer (expires timer) timer) base

/-- `cascade`. -/
def cascade (index : Nat) : TvecBase :=
  addAll expires (base.replaceInit (tv, index)) (base.vec tv index)

/-- `timer_jiffies & TVR_MASK`, and `INDEX` for the other vectors. -/
def index : Nat := base.timerJiffies / 2 ^ tv.shift % 2 ^ tv.bits

/-- `__run_timers` cascades a vector if the indices into those before it are all zero. -/
def cascadeFrom (expires : Nat → Nat) : List Level → TvecBase → TvecBase
  | [], base => base
  | tv :: rest, base =>
    let index := base.index tv
    let base := base.cascade expires tv index
    if index = 0 then cascadeFrom expires rest base else base

/-- What `__run_timers` does first in an iteration. -/
def cascadeTimers : TvecBase :=
  if base.index .tv1 = 0 then cascadeFrom expires [.tv2, .tv3, .tv4, .tv5] base else base

end TvecBase

/-- What has been asked for and what has been done with timers. -/
inductive Event
  /-- A call of `add_timer`, `mod_timer` or, if `pendingOnly` is set, `mod_timer_pending` when
  `timer_jiffies` had this value. -/
  | modified (timer expires timerJiffies : Nat) (pendingOnly : Bool)
  /-- A call of `del_timer`. -/
  | deleted (timer : Nat)
  /-- An iteration of `__run_timers`, with `timer_jiffies` before it is incremented. -/
  | iteration (timerJiffies : Nat)
  /-- The function of a timer was called. -/
  | ran (timer : Nat)
  deriving DecidableEq

/-- The timers, the wheel and a call of `__run_timers`, which may have a work list. -/
structure State where
  timers : Nat → TimerList
  base : TvecBase
  jiffies : Nat
  running : Bool
  workList : List Nat
  /-- The last event comes first. -/
  log : List Event

namespace State

variable (s : State) (timer expires : Nat)

def setTimer (t : TimerList) : State :=
  { s with timers := Function.update s.timers timer t }

/-- `detach_timer`. -/
def detachTimer (clearPending : Bool) : State :=
  { s.setTimer timer
      { s.timers timer with pending := (s.timers timer).pending && !clearPending } with
    base := s.base.unlink timer
    workList := s.workList.filter (· ≠ timer) }

/-- If the timer that is taken out was the next one, `next_timer` is not known any more. -/
def forgetNext : State :=
  if (s.timers timer).expires = s.base.nextTimer ∧ (s.timers timer).deferrable = false then
    { s with base := { s.base with nextTimer := s.base.timerJiffies } }
  else s

/-- The part of `__mod_timer` that adds the timer. -/
def addTimerAt : State :=
  let s := s.setTimer timer { s.timers timer with pending := true, expires := expires }
  let s :=
    if timeBefore expires s.base.nextTimer ∧ (s.timers timer).deferrable = false then
      { s with base := { s.base with nextTimer := expires } }
    else s
  { s with base := s.base.internalAddTimer expires timer }

/-- `__mod_timer`. -/
def modTimerCommon (pendingOnly : Bool) : State :=
  if (s.timers timer).pending then
    ((s.detachTimer timer false).forgetNext timer).addTimerAt timer expires
  else if pendingOnly then s
  else s.addTimerAt timer expires

/-- `mod_timer`. -/
def modTimer : State :=
  if (s.timers timer).pending ∧ (s.timers timer).expires = expires then s
  else s.modTimerCommon timer expires false

/-- `add_timer`, after `expires` has been set. It is a `BUG` if the timer is pending. -/
def addTimer : Option State :=
  if (s.timers timer).pending then none
  else some (s.modTimer timer expires)

/-- `del_timer`. -/
def delTimer : State :=
  if (s.timers timer).pending then (s.detachTimer timer true).forgetNext timer else s

/-- An iteration of `__run_timers`, up to its inner loop. -/
def iterate : State :=
  let index := s.base.index .tv1
  let base := s.base.cascadeTimers fun timer => (s.timers timer).expires
  { s with
    base := { base.replaceInit (.tv1, index) with timerJiffies := ulong (base.timerJiffies + 1) }
    workList := base.vec .tv1 index }

/-- The inner loop takes the first timer out and calls its function. -/
def fire : State := s.detachTimer timer true

/-! ## The machine -/

inductive Op
  | addTimer (timer expires : Nat)
  | modTimer (timer expires : Nat)
  /-- `mod_timer_pending`. -/
  | modTimerPending (timer expires : Nat)
  | delTimer (timer : Nat)
  /-- The time changes. -/
  | setJiffies (jiffies : Nat)
  /-- `__run_timers` is called, goes on or returns. -/
  | enter
  | iterate
  | fire
  | leave

/-- The functions of timers are called without the lock: whatever they do, and what others do
meanwhile, are steps of their own between those of `__run_timers`. -/
def act : Op → Option State
  | .addTimer timer expires => s.addTimer timer (ulong expires)
  | .modTimer timer expires => some (s.modTimer timer (ulong expires))
  | .modTimerPending timer expires => some (s.modTimerCommon timer (ulong expires) true)
  | .delTimer timer => some (s.delTimer timer)
  | .setJiffies jiffies => some { s with jiffies := ulong jiffies }
  | .enter => if s.running then none else some { s with running := true }
  | .iterate =>
    if s.running ∧ s.workList = [] ∧ timeAfterEq s.jiffies s.base.timerJiffies then some s.iterate
    else none
  | .fire => s.workList.head?.map s.fire
  | .leave =>
    if s.running ∧ s.workList = [] ∧ ¬timeAfterEq s.jiffies s.base.timerJiffies then
      some { s with running := false }
    else none

/-- What the log has for a step. -/
def event : Op → Option Event
  | .addTimer timer expires | .modTimer timer expires =>
    some (.modified timer (ulong expires) s.base.timerJiffies false)
  | .modTimerPending timer expires =>
    some (.modified timer (ulong expires) s.base.timerJiffies true)
  | .delTimer timer => some (.deleted timer)
  | .iterate => some (.iteration s.base.timerJiffies)
  | .fire => s.workList.head?.map .ran
  | .setJiffies _ | .enter | .leave => none

def step (op : Op) : Option State :=
  (s.act op).map fun s' => { s' with log := (s.event op).toList ++ s.log }

/-- `init_timers_cpu`. No timer is pending. -/
def init (jiffies : Nat) (deferrable : Nat → Bool) : State where
  timers timer := { pending := false, expires := 0, deferrable := deferrable timer }
  base := { timerJiffies := ulong jiffies, nextTimer := ulong jiffies, vec := fun _ _ => [] }
  jiffies := ulong jiffies
  running := false
  workList := []
  log := []

end State

end AndroidKernel.Timer
