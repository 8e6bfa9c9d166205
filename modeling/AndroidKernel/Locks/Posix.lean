import Mathlib.Algebra.Order.Ring.Int

/-!
# POSIX locks (`fs/locks.c`)

Each inode has a list of locks, and `__posix_lock_file` goes along it once for a request. All of it
holds the big kernel lock. The lists have POSIX locks only, as nothing else puts a lock on them
here.

A lock is known by its address. While the list is walked along, a pointer to a lock that has been
passed is its position in the list, which does not change: locks are deleted and inserted only at
`*before`. Offsets are integers; those of a request are not negative and at most `OFFSET_MAX`, and
one is added or taken away only where this does not leave `loff_t`.
-/

namespace AndroidKernel.Locks

def offsetMax : Int := 2 ^ 63 - 1

/-- `F_RDLCK`, `F_WRLCK` and `F_UNLCK`. -/
inductive LockType
  | rdlck
  | wrlck
  | unlck
  deriving DecidableEq

/-- A type and a range of bytes, which includes both ends. -/
structure Span where
  type : LockType
  start : Int
  end_ : Int
  deriving DecidableEq

/-- `struct file_lock`. -/
structure FileLock (ω : Type) extends Span where
  addr : Nat
  owner : ω
  deriving DecidableEq

/-- The request of a caller, with the flags `FL_ACCESS`, `FL_SLEEP` and `FL_EXISTS`. -/
structure Request (ω : Type) extends Span where
  owner : ω
  access : Bool := false
  sleep : Bool := false
  exists_ : Bool := false
  start_nonneg : 0 ≤ start
  start_le : start ≤ end_
  end_le : end_ ≤ offsetMax

/-- A request on the `blocked_list`: its owner, and the address and the owner of the lock that it
waits for. -/
structure Waiter (ω : Type) where
  owner : ω
  blocker : Nat
  blockerOwner : ω
  deriving DecidableEq

structure State (ω : Type) where
  /-- `i_flock` of each inode. -/
  flock : Nat → List (FileLock ω)
  /-- `blocked_list`, the last one first. -/
  blocked : List (Waiter ω)
  /-- The addresses below this one have been used. -/
  next : Nat

/-- What `__posix_lock_file` returns. -/
inductive Result
  | zero
  | eagain
  | edeadlk
  | deferred
  | enolck
  | enoent
  deriving DecidableEq

variable {ω : Type} [DecidableEq ω]

/-! ## The walk -/

structure Walk (ω : Type) where
  /-- The locks before `*before`. -/
  done : List (FileLock ω)
  /-- `*before` and the locks after it. -/
  rest : List (FileLock ω)
  /-- What `request` points to. -/
  request : FileLock ω
  /-- Where that is in the list, if it is not the structure of the caller. -/
  place : Option Nat
  added : Bool
  /-- Where `left` is. -/
  left : Option Nat
  /-- `right` has been set, to `*before`. -/
  right : Bool
  /-- The addresses of the locks whose waiters have been woken up. -/
  woken : List Nat

namespace Walk

variable (w : Walk ω) (fl : FileLock ω)

/-- `before = &fl->fl_next`. -/
def pass : Walk ω := { w with done := w.done ++ [fl] }

/-- `request = fl; added = 1;`, and on to the next lock. -/
def become : Walk ω :=
  { w with request := fl, place := some w.done.length, added := true, done := w.done ++ [fl] }

/-- `locks_wake_up_blocks`, also as a part of `locks_delete_lock`. -/
def wake : Walk ω := { w with woken := fl.addr :: w.woken }

/-- The list when a lock in it is written to. -/
def put (l : List (FileLock ω)) : Option Nat → List (FileLock ω)
  | none => l
  | some k => l.set k fl

/-- `request` gets another range. -/
def extend (start end_ : Int) : Walk ω :=
  { w with
    request := { w.request with start := start, end_ := end_ }
    done := put { w.request with start := start, end_ := end_ } w.done w.place }

/-- A lock of another type overlaps the request. -/
def overlap : Walk ω :=
  { w with
    added := w.added || w.request.type = .unlck
    left := if fl.start < w.request.start then some w.done.length else w.left }

/-- The loop over the locks of the owner. Of two locks of the same type that are merged, both get
the lower start and the higher end. -/
def loop (w : Walk ω) : List (FileLock ω) → Walk ω
  | [] => { w with rest := [] }
  | fl :: rest =>
    if fl.owner ≠ w.request.owner then { w with rest := fl :: rest }
    else if fl.type = w.request.type then
      if fl.end_ < w.request.start - 1 then (w.pass fl).loop rest
      else if fl.start - 1 > w.request.end_ then { w with rest := fl :: rest }
      else if w.added then
        ((w.extend (min fl.start w.request.start) (max fl.end_ w.request.end_)).wake fl).loop rest
      else
        (w.become { fl with
          start := min fl.start w.request.start
          end_ := max fl.end_ w.request.end_ }).loop rest
    else if fl.end_ < w.request.start then (w.pass fl).loop rest
    else if fl.start > w.request.end_ then { w with rest := fl :: rest }
    else if fl.end_ > w.request.end_ then { w.overlap fl with right := true, rest := fl :: rest }
    else if fl.start < w.request.start then ((w.overlap fl).pass fl).loop rest
    else if (w.overlap fl).added then ((w.overlap fl).wake fl).loop rest
    else (((w.overlap fl).wake fl).become { fl with toSpan := w.request.toSpan }).loop rest

/-- `left` is cut off where the request starts. -/
def cutLeft (start : Int) (l : List (FileLock ω)) : Option Nat → List (FileLock ω)
  | none => l
  | some k => l.modify k fun fl => { fl with end_ := start - 1 }

/-- `right`, if it is set, starts where the request ends. -/
def cutRight : List (FileLock ω) :=
  if w.right then w.rest.modifyHead fun fl => { fl with start := w.request.end_ + 1 } else w.rest

/-- The locks once the new ones have been inserted at `*before`, and `left` and `right` have been
cut. If these are the same, `left` becomes the copy `new_fl2`. -/
def cut (newFl newFl2 : Nat) : List (FileLock ω) :=
  let new := if w.added then [] else [{ w.request with addr := newFl }]
  let copy :=
    if w.right ∧ w.left = some w.done.length then
      w.rest.head?.toList.map fun fl => { fl with addr := newFl2 }
    else []
  cutLeft w.request.start (w.done ++ (copy ++ (new ++ w.cutRight))) w.left

/-- `left` and `right`, as far as they are set. -/
def ends : List (FileLock ω) :=
  (w.left.bind fun k => (w.done ++ w.rest)[k]?).toList ++
    if w.right then w.rest.head?.toList else []

/-- What comes after the loop. `ok` and `ok2` say whether there are `new_fl` and `new_fl2`. -/
def finish (exists_ ok ok2 : Bool) (next : Nat) : Result × List (FileLock ω) × List Nat :=
  if w.right ∧ w.left = some w.done.length ∧ ok2 = false then (.enolck, w.done ++ w.rest, w.woken)
  else if w.added = false ∧ w.request.type = .unlck then
    (if exists_ then .enoent else .zero, w.done ++ w.rest, w.woken)
  else if w.added = false ∧ ok = false then (.enolck, w.done ++ w.rest, w.woken)
  else (.zero, w.cut next (next + 1), w.ends.map FileLock.addr ++ w.woken)

end Walk

/-! ## Requests -/

/-- `posix_locks_conflict`, with `locks_overlap` and `locks_conflict`. -/
def Request.conflicts (req : Request ω) (fl : FileLock ω) : Bool :=
  req.owner ≠ fl.owner ∧ (req.end_ ≥ fl.start ∧ fl.end_ ≥ req.start) ∧
    (fl.type = .wrlck ∨ req.type = .wrlck)

namespace State

variable (m : State ω) (inode : Nat) (req : Request ω)

/-- `what_owner_is_waiting_for`: the owner of the lock that the last waiting request of an owner
waits for. -/
def whatOwnerIsWaitingFor (o : ω) : Option ω :=
  (m.blocked.find? fun w => w.owner = o).map Waiter.blockerOwner

/-- The loop of `posix_locks_deadlock`, with the number of times that `i` still passes. -/
def deadlockLoop (m : State ω) (caller : ω) : Nat → ω → Bool
  | 0, _ => false
  | n + 1, block =>
    match m.whatOwnerIsWaitingFor block with
    | none => false
    | some block => if caller = block then true else m.deadlockLoop caller n block

def maxDeadlkIterations : Nat := 10

/-- `posix_locks_deadlock`. -/
def posixLocksDeadlock (caller block : ω) : Bool :=
  m.deadlockLoop caller (maxDeadlkIterations + 1) block

/-- The lock that a request is in conflict with. -/
def conflict : Option (FileLock ω) :=
  if req.type = .unlck then none else (m.flock inode).find? req.conflicts

/-- `locks_insert_block`. -/
def locksInsertBlock (blocker : FileLock ω) (waiter : Request ω) : State ω :=
  { m with blocked := ⟨waiter.owner, blocker.addr, blocker.owner⟩ :: m.blocked }

/-- Two locks are allocated in advance, unless none can be needed. -/
def needed : Bool :=
  !req.access && (req.type ≠ .unlck || req.start ≠ 0 || req.end_ ≠ offsetMax)

/-- The walk along the locks of an inode, after those of other owners at the front have been
skipped. -/
def walk : Walk ω :=
  Walk.loop
    { done := (m.flock inode).takeWhile fun fl => fl.owner ≠ req.owner
      rest := []
      request := { req with addr := m.next }
      place := none
      added := false
      left := none
      right := false
      woken := [] }
    ((m.flock inode).dropWhile fun fl => fl.owner ≠ req.owner)

/-- `__posix_lock_file`. The last two arguments say which allocations succeed. -/
def posixLockFile (alloc alloc2 : Bool) : Result × State ω :=
  match m.conflict inode req with
  | some fl =>
    if !req.sleep then (.eagain, m)
    else if m.posixLocksDeadlock req.owner fl.owner then (.edeadlk, m)
    else (.deferred, m.locksInsertBlock fl req)
  | none =>
    if req.access then (.zero, m)
    else
      let (result, l, woken) := (m.walk inode req).finish req.exists_ (needed req && alloc)
        (needed req && alloc2) m.next
      (result,
        { flock := Function.update m.flock inode l
          blocked := m.blocked.filter fun w => w.blocker ∉ woken
          next := m.next + 2 })

/-- The requests of all owners, and `locks_delete_block` when a waiting task gives up. -/
inductive Op (ω : Type)
  | request (inode : Nat) (req : Request ω) (alloc alloc2 : Bool)
  | deleteBlock (waiter : Nat)

def step : Op ω → Option (State ω)
  | .request inode req alloc alloc2 => some (m.posixLockFile inode req alloc alloc2).2
  | .deleteBlock waiter => some { m with blocked := m.blocked.eraseIdx waiter }

def init : State ω := ⟨fun _ => [], [], 0⟩

end State

end AndroidKernel.Locks
