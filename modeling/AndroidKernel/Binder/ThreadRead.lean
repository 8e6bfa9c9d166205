import AndroidKernel.Binder.ThreadWrite

/-!
# Reading (`binder.c`, lines 2158–2474)

`binder_thread_read` gives up the lock while it waits for work, so that it is
two functions here: `readStart` up to the wait and `readResume` from there on.
In between, the thread's local variables are in `sleeping`. `env.putUser k` says
whether the `k`-th item can be written to the user's buffer; when it cannot, the
function returns `-EFAULT` and the state is left as it is at that point.
-/

namespace AndroidKernel.Binder

/-- The arguments of a read that stay the same throughout: the process and the
thread, and the user's buffer. -/
structure ReadCall where
  proc : ProcId
  thread : ThreadId
  size : Nat
  nonBlock : Bool
  env : Env

namespace State

variable (s : State) (c : ReadCall) (waitForProcWork : Bool)

variable (p : ProcId) (th : ThreadId) (thread : BinderThread)

/-- Something is written to the user's buffer. -/
def returnTo (r : Return) : State := s.record (.returned th r)

/-- The end of `binder_thread_read`, from the label `done` on. -/
def readDone : Except Fault State := do
  let proc ← s.proc c.proc
  let thread ← s.thread c.thread
  if proc.requestedThreads + proc.readyThreads == 0 &&
      proc.requestedThreadsStarted < proc.maxThreads &&
      (thread.looper.registered || thread.looper.entered) then
    let s := s.setProc c.proc { proc with requestedThreads := intInc proc.requestedThreads }
    return s.returnTo c.thread (.code brSpawnLooper)
  else return s

/-- `binder_thread_read` reports the error of a thread, and the older one before
it if there are two. -/
def readErrors (ptr k : Nat) : Except Fault State :=
  if thread.returnError2 ≠ brOk then
    if !c.env.putUser k then .ok s
    else
      let s := s.returnTo c.thread (.code thread.returnError2)
      if ptr + 4 = c.size then s.readDone c
      else
        let s := s.setThread c.thread { thread with returnError2 := brOk }
        if !c.env.putUser (k + 1) then .ok s
        else
          let s := s.returnTo c.thread (.code thread.returnError)
          let s := s.setThread c.thread { thread with returnError2 := brOk, returnError := brOk }
          s.readDone c
  else if !c.env.putUser k then .ok s
  else
    let s := s.returnTo c.thread (.code thread.returnError)
    (s.setThread c.thread { thread with returnError := brOk }).readDone c

/-- `binder_thread_read` from the label `retry` to the wait. -/
def readRetry (ptr k : Nat) : Except Fault State := do
  let thread ← s.thread c.thread
  let waitForProcWork := thread.transactionStack.isNone && (s.todo (.thread c.thread)).isEmpty
  if thread.returnError ≠ brOk ∧ ptr < c.size then s.readErrors c thread ptr k
  else
    let s := s.setThread c.thread { thread with
      looper := { thread.looper with waiting := true }
      sleeping := some {
        waitForProcWork := waitForProcWork, size := c.size, ptr := ptr, nonBlock := c.nonBlock } }
    if waitForProcWork then
      let proc ← s.proc c.proc
      return s.setProc c.proc { proc with readyThreads := intInc proc.readyThreads }
    else return s

/-- The first half of `binder_thread_read`. -/
def readStart (consumed : Nat) : Except Fault State :=
  if consumed = 0 then
    if !c.env.putUser 0 then .ok s
    else (s.returnTo c.thread (.code brNoop)).readRetry c 4 1
  else s.readRetry c consumed 1

/-! ## The items of work -/

/-- What `binder_thread_read` tells the owner of a node, and the node after that. -/
def nodeCommand (node : BinderNode) : Option (UInt32 × BinderNode) :=
  let strong := node.internalStrongRefs != 0 || node.localStrongRefs != 0
  let weak := !node.refs.isEmpty || node.localWeakRefs != 0 || strong
  if weak && !node.hasWeakRef then
    some (brIncrefs, { node with
      hasWeakRef := true
      pendingWeakRef := true
      localWeakRefs := intInc node.localWeakRefs })
  else if strong && !node.hasStrongRef then
    some (brAcquire, { node with
      hasStrongRef := true
      pendingStrongRef := true
      localStrongRefs := intInc node.localStrongRefs })
  else if !strong && node.hasStrongRef then
    some (brRelease, { node with hasStrongRef := false })
  else if !weak && node.hasWeakRef then
    some (brDecrefs, { node with hasWeakRef := false })
  else none

/-- Nobody refers to the node any more. -/
def nodeUnused (node : BinderNode) : Bool :=
  node.refs.isEmpty && node.localWeakRefs == 0 && node.internalStrongRefs == 0 &&
    node.localStrongRefs == 0

/-- `BINDER_WORK_NODE` that has nothing to tell leaves the list, and the node
goes if nobody refers to it. -/
def readNodeDone (n : NodeId) (node : BinderNode) : Except Fault State := do
  let s := s.listDel (.node n)
  if nodeUnused node then
    let proc ← s.proc p
    let s := s.setProc p { proc with nodes := proc.nodes.erase n }
    return s.freeNode n node
  else return s

/-- How a round of the loop of `binder_thread_read` ends: it goes on with a new
`ptr`, at the label `done`, or it returned `-EFAULT`. -/
inductive ReadNext where
  | more (ptr : Nat)
  | done
  | fault
  deriving DecidableEq

/-- `BINDER_WORK_NODE`. -/
def readNode (n : NodeId) (ptr k : Nat) : Except Fault (State × ReadNext) := do
  let node ← s.node n
  match nodeCommand node with
  | some (cmd, node') =>
    let s := s.setNode n node'
    if !c.env.putUser k then return (s, .fault)
    else return (s.returnTo c.thread (.node cmd node.ptr node.cookie), .more (ptr + 12))
  | none =>
    let s ← s.readNodeDone c.proc n node
    return (s, .more ptr)

/-- The work on a death that was told to user space waits on `delivered_death`. -/
def moveToDelivered (d : DeathId) : Except Fault State :=
  (s.listDel (.death d)).listAdd (.death d) (.deliveredDeath p)

/-- `BINDER_WORK_DEAD_BINDER` and the two related kinds of work. -/
def readDeath (d : DeathId) (ptr k : Nat) : Except Fault (State × ReadNext) := do
  let death ← s.death d
  match death.type with
  | none => .error (.endless .threadRead)
  | some .clearDeathNotification =>
    if !c.env.putUser k then return (s, .fault)
    else
      let s := s.returnTo c.thread (.death brClearDeathNotificationDone death.cookie)
      let s := (s.record (.death d .cleared)).listDel (.death d)
      return ({ s with deaths := s.deaths.free d }, .more (ptr + 8))
  | some _ =>
    if !c.env.putUser k then return (s, .fault)
    else
      let s := s.returnTo c.thread (.death brDeadBinder death.cookie)
      let s ← (s.record (.death d .deadBinder)).moveToDelivered c.proc d
      return (s, .done)

/-- The target of a transaction as its owner knows it. -/
def returnTarget (x : BinderBuffer) : Except Fault (UInt32 × UInt32 × UInt32) :=
  match x.targetNode with
  | some n => do
    let node ← s.node n
    return (brTransaction, node.ptr, node.cookie)
  | none => .ok (brReply, 0, 0)

/-- `tr.sender_pid`. -/
def senderPid (tx : BinderTransaction) : Except Fault Nat :=
  match tx.fromThread with
  | some th => do
    let thread ← s.thread th
    let proc ← s.proc thread.proc
    return proc.pid
  | none => .ok 0

/-- What `binder_thread_read` returns for a transaction. -/
def returnData (tx : BinderTransaction) (b : BufferPtr) (x : BinderBuffer) :
    Except Fault Return := do
  let (cmd, target, cookie) ← s.returnTarget x
  let pid ← s.senderPid tx
  let proc ← s.proc p
  let buffer := UInt32.ofNat (b.addr + headerSize) + proc.userBufferOffset
  return .transaction cmd {
    target := target
    cookie := cookie
    code := tx.code
    flags := tx.flags
    senderPid := pid
    senderEuid := tx.senderEuid
    dataSize := x.dataSize
    offsetsSize := x.offsetsSize
    buffer := buffer
    offsets := buffer + UInt32.ofNat (alignPtr x.dataSize) }

/-- A transaction leaves its list and its buffer can be freed from now on. A
synchronous call goes on the stack of the thread that handles it; any other
transaction is over. -/
def deliver (t : TransactionId) (tx : BinderTransaction) (b : BufferPtr) (x : BinderBuffer) :
    Except Fault State := do
  let s := s.listDel (.transaction t)
  match x.targetNode, tfOneWay tx.flags with
  | some _, false =>
    let s ← s.modifyBuffer b fun x => { x with allowUserFree := true }
    let thread ← s.thread th
    let s := s.setTransaction t { tx with
      toParent := thread.transactionStack, toThread := some th }
    return s.setThread th { thread with transactionStack := some t }
  | some n, true =>
    let s := s.record (.delivered n t)
    let s ← s.modifyBuffer b fun x => { x with allowUserFree := true, transaction := none }
    return s.freeTransaction t
  | none, _ =>
    let s ← s.modifyBuffer b fun x => { x with allowUserFree := true, transaction := none }
    return s.freeTransaction t

/-- `BINDER_WORK_TRANSACTION`. -/
def readTransaction (t : TransactionId) (k : Nat) : Except Fault (State × ReadNext) := do
  let tx ← s.transaction t
  match tx.buffer with
  | none => .error (.bug .threadRead)
  | some b =>
    let x ← s.buffer b
    let r ← s.returnData c.proc tx b x
    if !c.env.putUser k then return (s, .fault)
    else
      let s ← (s.returnTo c.thread r).deliver c.thread t tx b x
      return (s, .done)

/-- One item of work. -/
def readWork (ptr k : Nat) : Work → Except Fault (State × ReadNext)
  | .transaction t => s.readTransaction c t k
  | .transactionComplete t =>
    if !c.env.putUser k then .ok (s, .fault)
    else
      let s := s.returnTo c.thread (.code brTransactionComplete)
      .ok (s.listDel (.transactionComplete t), .more (ptr + 4))
  | .node n => s.readNode c n ptr k
  | .death d => s.readDeath c d ptr k

/-- The next item of work for a thread. -/
def nextWork : Option Work :=
  match s.todo (.thread c.thread) with
  | w :: _ => some w
  | [] => if waitForProcWork then (s.todo (.proc c.proc)).head? else none

/-- `end - ptr < sizeof(tr) + 4`, a comparison of `size_t`s. -/
def noRoom (size ptr : Nat) : Bool := (size + 2 ^ 32 - ptr % 2 ^ 32) % 2 ^ 32 < 44

/-- The loop of `binder_thread_read`. -/
def readLoop (c : ReadCall) (waitForProcWork : Bool) : Nat → State → Nat → Nat → Except Fault State
  | 0, _, _, _ => .error (.endless .threadRead)
  | fuel + 1, s, ptr, k => do
    match s.nextWork c waitForProcWork with
    | none =>
      let thread ← s.thread c.thread
      if ptr = 4 ∧ !thread.looper.needReturn then s.readRetry c ptr k
      else s.readDone c
    | some w =>
      if noRoom c.size ptr then s.readDone c
      else
        match ← s.readWork c ptr k w with
        | (s, .more ptr) => readLoop c waitForProcWork fuel s ptr (k + 1)
        | (s, .done) => s.readDone c
        | (s, .fault) => return s

/-- `binder_has_proc_work` or `binder_has_thread_work`, whichever the thread
waits for. -/
def hasWork (waitForProcWork : Bool) : Bool :=
  if waitForProcWork then !(s.todo (.proc p)).isEmpty || thread.looper.needReturn
  else !(s.todo (.thread th)).isEmpty || thread.returnError != brOk || thread.looper.needReturn

/-- The thread is awake again. -/
def wakeThread (waitForProcWork : Bool) : Except Fault State :=
  let s := s.setThread th { thread with
    looper := { thread.looper with waiting := false }, sleeping := none }
  if waitForProcWork then do
    let proc ← s.proc p
    return s.setProc p { proc with readyThreads := intDec proc.readyThreads }
  else .ok s

/-- At most this many rounds of the loop are possible: an item of work that is
not a node's takes one round, a node's takes one for each thing it has to tell
and one more. -/
def readFuel : Nat :=
  5 * ((s.todo (.thread c.thread)).length + (s.todo (.proc c.proc)).length) + 1

/-- The second half of `binder_thread_read`. The wait ends when there is work;
without work it ends at once if the file is in non-blocking mode, and with a
signal otherwise. The lock is taken after that: by then there can be work in spite
of the `signal`, and another thread can have `taken` the work that was seen. -/
def readResume (env : Env) (signal taken : Bool) : Except Fault State := do
  let thread ← s.thread th
  match thread.sleeping with
  | none => return s
  | some w =>
    let c : ReadCall := { proc := p, thread := th, size := w.size, nonBlock := w.nonBlock, env }
    if signal then s.wakeThread p th thread w.waitForProcWork
    else if taken || s.hasWork p th thread w.waitForProcWork then
      let s ← s.wakeThread p th thread w.waitForProcWork
      readLoop c w.waitForProcWork (s.readFuel c) s w.ptr 0
    else if w.nonBlock then s.wakeThread p th thread w.waitForProcWork
    else return s

end State

end AndroidKernel.Binder
