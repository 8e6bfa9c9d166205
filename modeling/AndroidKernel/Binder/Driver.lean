import AndroidKernel.Binder.Release
import AndroidKernel.Lib.Runs

/-!
# The driver (`binder.c`, lines 2577–2760, 2845–2931 and 3070–3115)

The file operations of the driver and the work it defers, as the steps of one
machine. Every step runs under `binder_lock`. One `BINDER_WRITE_READ` is several
steps: one for each command it writes, and two for its read, which waits in
between without the lock.
-/

namespace AndroidKernel.Binder

open Option

/-- What a thread asks for in one `ioctl`. A `write` that is not the last thing
in its `BINDER_WRITE_READ` has `more` set. -/
inductive Request where
  | write (cmd : Command) (more : Bool)
  | read (size consumed : Nat) (nonBlock : Bool)
  | setMaxThreads (maxThreads : Int)
  | setContextMgr (euid : Nat)
  | threadExit
  | other

/-- The steps of the driver. -/
inductive Op where
  | openFile (pid euid : Nat) (kzalloc : Bool)
  | mmap (p : ProcId) (r : MmapRequest)
  | vmaClose (p : ProcId)
  | flush (p : ProcId)
  | release (p : ProcId)
  | deferred (env : PageEnv)
  | ioctl (p : ProcId) (pid : Nat) (env : Env) (request : Request)
  | resume (th : ThreadId) (env : Env) (signal taken : Bool)
  | poll (p : ProcId) (pid : Nat) (env : Env)

namespace State

/-! ## `ioctl` -/

variable (s : State) (p : ProcId) (th : ThreadId)

/-- The end of `binder_ioctl`, which a thread that waits has not reached yet. -/
def endIoctl : Except Fault State := do
  let thread ← s.thread th
  if thread.sleeping.isSome then return s
  else return s.setThread th { thread with looper := { thread.looper with needReturn := false } }

/-- `binder_thread_write` goes on as long as there is no error to report. -/
def writeCommand (env : Env) (cmd : Command) : Except Fault State := do
  let thread ← s.thread th
  if thread.returnError = brOk then s.binderThreadWrite p th env cmd else return s

/-- The new context manager. -/
def newContextMgr (kzalloc : Bool) : Except Fault State := do
  match ← s.binderNewNode p 0 0 kzalloc with
  | (s, none) => return s
  | (s, some n) =>
    let node ← s.node n
    let s := s.setNode n { node with
      localWeakRefs := intInc node.localWeakRefs
      localStrongRefs := intInc node.localStrongRefs
      hasStrongRef := true
      hasWeakRef := true }
    return { s with contextMgrNode := some n }

/-- `BINDER_SET_CONTEXT_MGR`. -/
def setContextMgr (euid : Nat) (kzalloc : Bool) : Except Fault State :=
  if s.contextMgrNode.isSome then .ok s
  else
    match s.contextMgrUid with
    | some uid => if uid ≠ euid then .ok s else s.newContextMgr p kzalloc
    | none => { s with contextMgrUid := some euid }.newContextMgr p kzalloc

/-- `BINDER_SET_MAX_THREADS`. -/
def setMaxThreads (maxThreads : Int) : Except Fault State := do
  let proc ← s.proc p
  return s.setProc p { proc with maxThreads := maxThreads }

/-- The requests of `binder_ioctl`. -/
def ioctlRequest (env : Env) : Request → Except Fault State
  | .write cmd more => do
    let s ← s.writeCommand p th env cmd
    if more then return s else s.endIoctl th
  | .read size consumed nonBlock => do
    let s ← s.readStart { proc := p, thread := th, size, nonBlock, env } consumed
    s.endIoctl th
  | .setMaxThreads maxThreads => do
    let s ← s.setMaxThreads p maxThreads
    s.endIoctl th
  | .setContextMgr euid => do
    let s ← s.setContextMgr p euid (env.kzalloc (.node 0))
    s.endIoctl th
  | .threadExit => s.binderFreeThread p th
  | .other => s.endIoctl th

/-- `binder_ioctl`. -/
def binderIoctl (pid : Nat) (env : Env) (request : Request) : Except Fault State := do
  match ← s.binderGetThread p pid (env.kzalloc .thread) with
  | (s, none) => return s
  | (s, some th) => s.ioctlRequest p th env request

/-- `binder_ioctl` after the wait in `binder_thread_read`. -/
def resumeIoctl (env : Env) (signal taken : Bool) : Except Fault State := do
  let thread ← s.thread th
  let s ← s.readResume thread.proc th env signal taken
  s.endIoctl th

/-- `binder_poll`, which only looks at the thread after it has got it. -/
def binderPoll (pid : Nat) (env : Env) : Except Fault State := do
  match ← s.binderGetThread p pid (env.kzalloc .thread) with
  | (_, none) => .error .nullDeref
  | (s, some _) => return s

/-! ## The other file operations -/

/-- `binder_open`. -/
def binderOpen (pid euid : Nat) (kzalloc : Bool) : State :=
  if kzalloc then { s with procs := s.procs.alloc { pid := pid, euid := euid } } else s

/-- `binder_mmap` for a process. -/
def mmapArea (r : MmapRequest) : Except Fault State := do
  let proc ← s.proc p
  match ← binderMmap { r with mapped := (s.areas p).isSome } with
  | .error _ => return s
  | .ok a =>
    let s := s.setArea p a
    return s.setProc p { proc with
      files := true
      userBufferOffset := UInt32.ofNat r.vmStart - UInt32.ofNat a.buffer }

/-- `binder_vma_close`. -/
def binderVmaClose : Except Fault State := do
  let a ← s.area p
  (s.setArea p { a with vma := false }).binderDeferWork p fun w => { w with putFiles := true }

/-- `binder_flush`. -/
def binderFlush : Except Fault State :=
  s.binderDeferWork p fun w => { w with flush := true }

/-- `binder_release`. -/
def binderRelease : Except Fault State := do
  let s ← s.binderDeferWork p fun w => { w with release := true }
  let proc ← s.proc p
  return s.setProc p { proc with closed := true }

/-! ## Runs -/

/-- The process has the file open. -/
def isOpen : Prop := ∃ proc, s.procs.get p = some proc ∧ !proc.closed
  deriving Decidable

/-- No thread of the process with this `pid` waits in `binder_thread_read`. -/
def isAwake (pid : Nat) : Prop :=
  ∀ proc th thread, s.procs.get p = some proc → th ∈ proc.threads →
    s.threads.get th = some thread → thread.pid = pid → thread.sleeping = none

/-- What can happen next. The rest of the kernel lets nobody use a file that is
closed, and does not close one that is mapped or in use. -/
def enabled : Op → Prop
  | .openFile _ _ _ => True
  | .mmap p r => s.isOpen p ∧ 0 < r.pageCount
  | .vmaClose p => s.isOpen p ∧ (s.areas p).isSome
  | .flush p => s.isOpen p
  | .release p => s.isOpen p ∧ !s.hasVma p ∧ ∀ pid, s.isAwake p pid
  | .deferred _ => True
  | .ioctl p pid _ _ => s.isOpen p ∧ s.isAwake p pid
  | .resume th _ _ _ => ∃ thread, s.threads.get th = some thread ∧ thread.sleeping.isSome
  | .poll p pid _ => s.isOpen p ∧ s.isAwake p pid

/-- One step. -/
def step : Op → Except Fault State
  | .openFile pid euid kzalloc => .ok (s.binderOpen pid euid kzalloc)
  | .mmap p r => s.mmapArea p r
  | .vmaClose p => s.binderVmaClose p
  | .flush p => s.binderFlush p
  | .release p => s.binderRelease p
  | .deferred env => s.binderDeferredFunc env
  | .ioctl p pid env request => s.binderIoctl p pid env request
  | .resume th env signal taken => s.resumeIoctl th env signal taken
  | .poll p pid env => s.binderPoll p pid env

/-- The states of the driver in its runs. A run ends with the first fault. -/
def Reachable : Prop :=
  Reached (fun s op => (s.step op).toOption) enabled init s

/-! ### Runs can be checked -/

/-- None of the threads of a process that are `wanted` waits in `binder_thread_read`. -/
def noneWaits (wanted : BinderThread → Bool) : Bool :=
  (s.procs.get p).all fun proc => proc.threads.all fun th =>
    (s.threads.get th).all fun thread => !wanted thread || thread.sleeping.isNone

theorem noneWaits_iff {s : State} {p : ProcId} {wanted : BinderThread → Bool} :
    s.noneWaits p wanted ↔ ∀ proc th thread, s.procs.get p = some proc → th ∈ proc.threads →
      s.threads.get th = some thread → wanted thread → thread.sleeping = none := by
  cases hp : s.procs.get p with
  | none => simp [noneWaits, hp]
  | some proc =>
    simp only [noneWaits, hp, all_some, List.all_eq_true, some.injEq]
    constructor
    · rintro h _ th thread rfl hth ht hw
      have hall := h th hth
      rw [ht, all_some, hw] at hall
      exact isNone_iff_eq_none.mp hall
    · intro h th hth
      cases ht : s.threads.get th with
      | none => rfl
      | some thread =>
        rw [all_some]
        cases hw : wanted thread with
        | false => rfl
        | true =>
          rw [h proc th thread rfl hth ht hw]
          rfl

instance (s : State) (p : ProcId) (pid : Nat) : Decidable (s.isAwake p pid) :=
  decidable_of_iff (s.noneWaits p fun thread => thread.pid == pid) (by
    rw [noneWaits_iff]
    simp only [beq_iff_eq]
    rfl)

instance (s : State) (p : ProcId) : Decidable (∀ pid, s.isAwake p pid) :=
  decidable_of_iff (s.noneWaits p fun _ => true) (by
    rw [noneWaits_iff]
    constructor
    · intro h pid proc th thread hp hth ht _
      exact h proc th thread hp hth ht rfl
    · intro h proc th thread hp hth ht _
      exact h thread.pid proc th thread hp hth ht rfl)

instance (s : State) (op : Op) : Decidable (s.enabled op) :=
  match op with
  | .openFile _ _ _ => isTrue trivial
  | .mmap _ _ | .vmaClose _ => inferInstanceAs (Decidable (_ ∧ _))
  | .flush p => inferInstanceAs (Decidable (s.isOpen p))
  | .release _ => inferInstanceAs (Decidable (_ ∧ _ ∧ _))
  | .deferred _ => isTrue trivial
  | .ioctl _ _ _ _ => inferInstanceAs (Decidable (_ ∧ _))
  | .resume th _ _ _ =>
    decidable_of_iff ((s.threads.get th).any fun thread => thread.sleeping.isSome) (by
      cases h : s.threads.get th <;> simp [enabled, h])
  | .poll _ _ _ => inferInstanceAs (Decidable (_ ∧ _))

end State

end AndroidKernel.Binder
