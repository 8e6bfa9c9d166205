import AndroidKernel.Lib.Heap
import AndroidKernel.Lib.Runs
import AndroidKernel.Lib.Words

/-!
# Wake locks (`kernel/power/wakelock.c`)

As long as a lock of type `WAKE_LOCK_SUSPEND` is active the system does not suspend.
A lock may have a timeout, after which it counts as released. One timer for all
locks, `expire_timer`, is there to queue the suspend work when the last of them has
lapsed.

The functions work under `list_lock` and are one step each; a firing of the timer
is one step too. `jiffies` and `expires` are of type `unsigned long` with 32 bits.
The statistics of locks, the number of wakeup events and the suspend work itself are
left out: the work only calls `has_wake_lock` and `wake_lock_timeout`. `queued` is not
part of the code: it says that the suspend work was queued since a suspend lock was
last taken.
-/

namespace AndroidKernel.Wakelock

abbrev LockId := Nat

/-- `WAKE_LOCK_SUSPEND` and `WAKE_LOCK_IDLE`. -/
inductive LockType where
  | suspend
  | idle
  deriving DecidableEq

/-- `struct wake_lock`: the flags and `expires`. -/
structure WakeLock where
  type : LockType
  active : Bool := false
  autoExpire : Bool := false
  expires : Nat := 0
  deriving DecidableEq

structure State where
  /-- the locks that are `WAKE_LOCK_INITIALIZED` -/
  locks : Heap WakeLock
  inactiveLocks : List LockId
  activeWakeLocks : LockType → List LockId
  jiffies : Nat
  /-- when `expire_timer` is to fire, if it is pending -/
  expireTimer : Option Nat
  queued : Bool

namespace State

variable (s : State) (l : LockId) (lock : WakeLock)

/-- `expires - jiffies` as a `long`. -/
def timeLeft (expires : Nat) : Int := long ((expires : Int) - s.jiffies)

/-- `list_del(&lock->link)`, whatever list the lock is on. -/
def listDel : State :=
  { s with
    inactiveLocks := s.inactiveLocks.erase l
    activeWakeLocks := fun type => (s.activeWakeLocks type).erase l }

/-- `expire_wake_lock`. -/
def expireWakeLock : State :=
  let s := { s with locks := s.locks.set l { lock with active := false, autoExpire := false } }
  let s := s.listDel l
  { s with inactiveLocks := l :: s.inactiveLocks }

/-- The loop of `has_wake_lock_locked`. -/
def scanLocks : List LockId → State → Int → State × Int
  | [], s, maxTimeout => (s, maxTimeout)
  | l :: ls, s, maxTimeout =>
    match s.locks.get l with
    | none => scanLocks ls s maxTimeout
    | some lock =>
      if lock.autoExpire then
        let timeout := s.timeLeft lock.expires
        if timeout ≤ 0 then scanLocks ls (s.expireWakeLock l lock) maxTimeout
        else scanLocks ls s (if timeout > maxTimeout then timeout else maxTimeout)
      else (s, -1)

/-- `has_wake_lock_locked`. -/
def hasWakeLockLocked (type : LockType) : State × Int :=
  scanLocks (s.activeWakeLocks type) s 0

/-- What `wake_lock` and `wake_unlock` do about the timer. -/
def setExpireTimer (hasLock : Int) : State :=
  if hasLock > 0 then { s with expireTimer := some (ulong (s.jiffies + hasLock)) }
  else
    let s := { s with expireTimer := none }
    if hasLock = 0 then { s with queued := true } else s

/-- `wake_lock_init`. -/
def wakeLockInit (type : LockType) : State :=
  { s with
    locks := s.locks.alloc { type := type }
    inactiveLocks := s.locks.next :: s.inactiveLocks }

/-- `wake_lock_destroy`. -/
def wakeLockDestroy : State :=
  { s with locks := s.locks.free l }.listDel l

/-- The lock is put on the list of its type. -/
def activate (timeout : Option Int) : State :=
  let s := s.listDel l
  match timeout with
  | some timeout =>
    { s with
      locks := s.locks.set l
        { lock with active := true, autoExpire := true, expires := ulong (s.jiffies + timeout) }
      activeWakeLocks := fun type =>
        if type = lock.type then s.activeWakeLocks type ++ [l] else s.activeWakeLocks type }
  | none =>
    { s with
      locks := s.locks.set l
        { lock with active := true, autoExpire := false, expires := longMax.toNat }
      activeWakeLocks := fun type =>
        if type = lock.type then l :: s.activeWakeLocks type else s.activeWakeLocks type }

/-- `wake_lock_internal`; without a `timeout` it is `wake_lock`. -/
def wakeLockInternal (timeout : Option Int) : State :=
  let s := s.activate l lock timeout
  if lock.type = .suspend then
    let s := { s with queued := false }
    let (s, expireIn) := if timeout.isSome then s.hasWakeLockLocked .suspend else (s, -1)
    s.setExpireTimer expireIn
  else s

/-- `wake_unlock`. The lock leaves its list just as an expired one does. -/
def wakeUnlock : State :=
  let s := s.expireWakeLock l lock
  if lock.type = .suspend then
    let (s, hasLock) := s.hasWakeLockLocked .suspend
    s.setExpireTimer hasLock
  else s

/-- `expire_wake_locks`, for a timer that has been taken off. -/
def expireWakeLocks : State :=
  let (s, hasLock) := s.hasWakeLockLocked .suspend
  if hasLock = 0 then { s with queued := true } else s

/-- `wakelocks_init`: the locks `main`, `sync_system` and `unknown_wakeups`, of which
the first is taken. -/
def wakelocksInit (jiffies : Nat) : Option State :=
  let s : State :=
    { locks := .empty, inactiveLocks := [], activeWakeLocks := fun _ => [], jiffies := jiffies,
      expireTimer := none, queued := false }
  let s := s.wakeLockInit .suspend
  let s := s.wakeLockInit .suspend
  (s.locks.get 0).map fun main => (s.wakeLockInternal 0 main none).wakeLockInit .suspend

end State

/-! ## Runs -/

inductive Op where
  | wakeLockInit (type : LockType)
  | wakeLockDestroy (l : LockId)
  | wakeLock (l : LockId)
  | wakeLockTimeout (l : LockId) (timeout : Int)
  | wakeUnlock (l : LockId)
  | hasWakeLock (type : LockType)
  /-- the timer fires -/
  | fire
  /-- time goes on -/
  | advance (d : Nat)
  deriving DecidableEq

/-- One operation. Locks that are not initialized are a `BUG`; the timer fires only
when it is due. -/
def State.step (s : State) : Op → Option State
  | .wakeLockInit type => some (s.wakeLockInit type)
  | .wakeLockDestroy l => (s.locks.get l).map fun _ => s.wakeLockDestroy l
  | .wakeLock l => (s.locks.get l).map fun lock => s.wakeLockInternal l lock none
  | .wakeLockTimeout l timeout =>
    (s.locks.get l).map fun lock => s.wakeLockInternal l lock (some timeout)
  | .wakeUnlock l => (s.locks.get l).map fun lock => s.wakeUnlock l lock
  | .hasWakeLock type => some (s.hasWakeLockLocked type).1
  | .fire =>
    match s.expireTimer with
    | some t =>
      if s.timeLeft t ≤ 0 then some ({ s with expireTimer := none }.expireWakeLocks) else none
    | none => none
  | .advance d => some { s with jiffies := ulong (s.jiffies + d) }

end AndroidKernel.Wakelock
