import AndroidKernel.Binder.Transaction

/-!
# Commands (`binder.c`, lines 1770–2156)

`binder_thread_write` takes commands out of the user's buffer as long as the
thread has no error to report. The model's commands are those that do anything:
the ones that are not supported and those that cannot be read make the function
return without a change.
-/

namespace AndroidKernel.Binder

/-- The four commands that change the counts of a reference. -/
inductive RefCommand where
  | increfs
  | acquire
  | release
  | decrefs
  deriving DecidableEq

/-- The commands of `enum BinderDriverCommandProtocol`. -/
inductive Command where
  | ref (cmd : RefCommand) (target : UInt32)
  | increfsDone (ptr cookie : UInt32)
  | acquireDone (ptr cookie : UInt32)
  | freeBuffer (dataPtr : UInt32)
  | transaction (tr : TransactionData)
  | reply (tr : TransactionData)
  | registerLooper
  | enterLooper
  | exitLooper
  | requestDeathNotification (target cookie : UInt32)
  | clearDeathNotification (target cookie : UInt32)
  | deadBinderDone (cookie : UInt32)

namespace State

/-! ## Reference counts -/

variable (s : State) (p : ProcId) (th : ThreadId)

/-- The reference that one of the four commands is about. Handle 0 can be
acquired before there is a reference for it; the result is not checked there. -/
def refCommandTarget (cmd : RefCommand) (target : UInt32) (kzalloc : Bool) :
    Except Fault (State × Option RefId) :=
  match s.contextMgrNode, decide (target = 0 ∧ (cmd = .increfs ∨ cmd = .acquire)) with
  | some n, true => do
    match ← s.binderGetRefForNode p n kzalloc with
    | (_, none) => .error .nullDeref
    | (s, some r) => return (s, some r)
  | _, _ => do
    let r ← s.binderGetRef p target
    return (s, r)

/-- `BC_INCREFS`, `BC_ACQUIRE`, `BC_RELEASE` and `BC_DECREFS`. -/
def bcRef (cmd : RefCommand) (target : UInt32) (kzalloc : Bool) : Except Fault State := do
  match ← s.refCommandTarget p cmd target kzalloc with
  | (s, none) => return s
  | (s, some r) =>
    match cmd with
    | .increfs =>
      let (s, _) ← s.binderIncRef r false none
      return s
    | .acquire =>
      let (s, _) ← s.binderIncRef r true none
      return s
    | .release => s.binderDecRef r true
    | .decrefs => s.binderDecRef r false

/-- `BC_ACQUIRE_DONE`. -/
def bcAcquireDone (ptr cookie : UInt32) : Except Fault State := do
  match ← s.binderGetNode p ptr with
  | none => return s
  | some n =>
    let node ← s.node n
    if cookie ≠ node.cookie then return s
    else if !node.pendingStrongRef then return s
    else (s.setNode n { node with pendingStrongRef := false }).binderDecNode n true false

/-- `BC_INCREFS_DONE`. -/
def bcIncrefsDone (ptr cookie : UInt32) : Except Fault State := do
  match ← s.binderGetNode p ptr with
  | none => return s
  | some n =>
    let node ← s.node n
    if cookie ≠ node.cookie then return s
    else if !node.pendingWeakRef then return s
    else (s.setNode n { node with pendingWeakRef := false }).binderDecNode n false false

/-! ## Buffers -/

/-- `binder_buffer_lookup` with the address in user space. -/
def bufferLookup (dataPtr : UInt32) : Except Fault (Option BufferPtr) := do
  let proc ← s.proc p
  match s.areas p with
  | none => return none
  | some a =>
    let kernPtr := dataPtr - proc.userBufferOffset - UInt32.ofNat headerSize
    match ← a.binderBufferLookup kernPtr.toNat with
    | some addr => return some { proc := p, addr := addr }
    | none => return none

/-- `BC_FREE_BUFFER` cuts a buffer off its transaction. -/
def detachTransaction (b : BufferPtr) (x : BinderBuffer) : Except Fault State :=
  match x.transaction with
  | some t => do
    let tx ← s.transaction t
    let s := s.setTransaction t { tx with buffer := none }
    s.modifyBuffer b fun x => { x with transaction := none }
  | none => .ok s

/-- `BC_FREE_BUFFER` of a one-way call lets the next one of its node go on, to
the thread that freed the buffer. -/
def nextOneWay (x : BinderBuffer) : Except Fault State :=
  match x.asyncTransaction, x.targetNode with
  | true, some n => do
    let node ← s.node n
    bugOn .bcFreeBuffer (!node.hasAsyncTransaction)
    match s.todo (.async n) with
    | [] => return s.setNode n { node with hasAsyncTransaction := false }
    | w :: _ => (s.listDel w).listAddTail w (.thread th)
  | _, _ => .ok s

/-- `BC_FREE_BUFFER`. -/
def bcFreeBuffer (dataPtr : UInt32) (env : PageEnv) : Except Fault State := do
  match ← s.bufferLookup p dataPtr with
  | none => return s
  | some b =>
    let x ← s.buffer b
    if !x.allowUserFree then return s
    else
      let s ← s.detachTransaction b x
      let s ← s.nextOneWay th x
      let s ← s.binderTransactionBufferRelease b none
      s.freeBuf b env

/-! ## Loopers -/

/-- `BC_REGISTER_LOOPER`. -/
def bcRegisterLooper : Except Fault State := do
  let thread ← s.thread th
  let proc ← s.proc p
  if thread.looper.entered || proc.requestedThreads == 0 then
    return s.setThread th { thread with
      looper := { thread.looper with invalid := true, registered := true } }
  else
    let s := s.setProc p { proc with
      requestedThreads := intDec proc.requestedThreads
      requestedThreadsStarted := intInc proc.requestedThreadsStarted }
    return s.setThread th { thread with looper := { thread.looper with registered := true } }

/-- `BC_ENTER_LOOPER`. -/
def bcEnterLooper : Except Fault State := do
  let thread ← s.thread th
  return s.setThread th { thread with
    looper := { thread.looper with
      invalid := thread.looper.invalid || thread.looper.registered
      entered := true } }

/-- `BC_EXIT_LOOPER`. -/
def bcExitLooper : Except Fault State := do
  let thread ← s.thread th
  return s.setThread th { thread with looper := { thread.looper with exited := true } }

/-! ## Death notifications -/

/-- Work on a death goes to the thread if it is a looper, or to its process. -/
def queueDeath (d : DeathId) : Except Fault State := do
  let thread ← s.thread th
  s.listAddTail (.death d)
    (if thread.looper.registered || thread.looper.entered then .thread th else .proc p)

/-- `BC_REQUEST_DEATH_NOTIFICATION`. -/
def bcRequestDeath (target cookie : UInt32) (kzalloc : Bool) : Except Fault State := do
  match ← s.binderGetRef p target with
  | none => return s
  | some r =>
    let ref ← s.ref r
    if ref.death.isSome then return s
    else if !kzalloc then
      let thread ← s.thread th
      return s.setThread th { thread with returnError := brError }
    else
      let d := s.deaths.next
      let node ← s.node ref.node
      match node.proc with
      | none =>
        let s := { s with
          deaths := s.deaths.alloc { cookie := cookie, type := some .deadBinder } }
        (s.setRef r { ref with death := some d }).queueDeath p th d
      | some _ =>
        let s := { s with deaths := s.deaths.alloc { cookie := cookie } }
        return s.setRef r { ref with death := some d }

/-- `BC_CLEAR_DEATH_NOTIFICATION`. -/
def bcClearDeath (s : State) (p : ProcId) (th : ThreadId) (target cookie : UInt32) :
    Except Fault State := do
  match ← s.binderGetRef p target with
  | none => return s
  | some r =>
    let ref ← s.ref r
    match ref.death with
    | none => return s
    | some d =>
      let death ← s.death d
      if death.cookie ≠ cookie then return s
      else
        let s := s.setRef r { ref with death := none }
        if s.unlinked (.death d) then
          (s.setDeath d { death with type := some .clearDeathNotification }).queueDeath p th d
        else
          bugOn .bcClearDeath (death.type != some .deadBinder)
          return s.setDeath d { death with type := some .deadBinderAndClear }

/-- The death with a given cookie on `delivered_death`. -/
def findDelivered (s : State) (cookie : UInt32) : List Work → Option DeathId
  | [] => none
  | .death d :: ws =>
    if (s.deaths.get d).any fun death => death.cookie == cookie then some d
    else s.findDelivered cookie ws
  | _ :: ws => s.findDelivered cookie ws

/-- `BC_DEAD_BINDER_DONE`. -/
def bcDeadBinderDone (cookie : UInt32) : Except Fault State := do
  match s.findDelivered cookie (s.todo (.deliveredDeath p)) with
  | none => return s
  | some d =>
    let death ← s.death d
    let s := (s.listDel (.death d)).record (.death d .deadBinderDone)
    if death.type = some .deadBinderAndClear then
      (s.setDeath d { death with type := some .clearDeathNotification }).queueDeath p th d
    else return s

/-! ## One command -/

/-- One round of the loop of `binder_thread_write`. -/
def binderThreadWrite (env : Env) : Command → Except Fault State
  | .ref cmd target => s.bcRef p cmd target (env.kzalloc (.ref 0))
  | .increfsDone ptr cookie => s.bcIncrefsDone p ptr cookie
  | .acquireDone ptr cookie => s.bcAcquireDone p ptr cookie
  | .freeBuffer dataPtr => s.bcFreeBuffer p th dataPtr env.page
  | .transaction tr =>
    s.binderTransaction { proc := p, thread := th, tr := tr, reply := false, env := env }
  | .reply tr =>
    s.binderTransaction { proc := p, thread := th, tr := tr, reply := true, env := env }
  | .registerLooper => s.bcRegisterLooper p th
  | .enterLooper => s.bcEnterLooper th
  | .exitLooper => s.bcExitLooper th
  | .requestDeathNotification target cookie =>
    s.bcRequestDeath p th target cookie (env.kzalloc .death)
  | .clearDeathNotification target cookie => s.bcClearDeath p th target cookie
  | .deadBinderDone cookie => s.bcDeadBinderDone p th cookie

end State

end AndroidKernel.Binder
