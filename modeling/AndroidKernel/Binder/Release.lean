import AndroidKernel.Binder.ThreadRead

/-!
# Threads and processes come and go (`binder.c`, lines 2476–2575 and 2858–3115)

`binder_free_thread` takes a thread apart, `binder_deferred_release` a whole
process. The loops of the latter run until a tree is empty; each round takes the
first element out and nothing else is taken out meanwhile, so that they are
loops over the elements at the start here.
-/

namespace AndroidKernel.Binder

namespace State

/-! ## Threads -/

variable (s : State) (p : ProcId) (th : ThreadId)

/-- `binder_release_work` at one item that has left its list. Only synchronous
calls are answered; one-way calls and replies are dropped. -/
def releaseItem : Work → Except Fault State
  | .transaction t => do
    let tx ← s.transaction t
    match tx.buffer with
    | none => .error .nullDeref
    | some b =>
      let x ← s.buffer b
      if x.targetNode.isSome && !tfOneWay tx.flags then s.binderSendFailedReply t brDeadReply
      else return s
  | _ => .ok s

/-- `binder_release_work` over the items of a list. -/
def releaseItems (s : State) : List Work → Except Fault State
  | [] => .ok s
  | w :: ws => do
    let s ← (s.listDel w).releaseItem w
    s.releaseItems ws

/-- `binder_release_work`. Nothing is added to the list meanwhile. -/
def binderReleaseWork (q : Queue) : Except Fault State := s.releaseItems (s.todo q)

/-- The thread of a process with a given `pid`. -/
def findThread (proc : BinderProc) (pid : Nat) : Option ThreadId :=
  proc.threads.find? fun th => (s.threads.get th).any fun thread => thread.pid == pid

/-- `binder_get_thread`. -/
def binderGetThread (pid : Nat) (kzalloc : Bool) : Except Fault (State × Option ThreadId) := do
  let proc ← s.proc p
  match s.findThread proc pid with
  | some th => return (s, some th)
  | none =>
    if !kzalloc then return (s, none)
    else
      let th := s.threads.next
      let threads := insertBefore
        (fun q => (s.threads.get q).any fun thread => decide (pid < thread.pid)) th proc.threads
      let s := { s with threads := s.threads.alloc {
        proc := p, pid := pid, looper := { needReturn := true } } }
      return (s.setProc p { proc with threads := threads }, some th)

/-- `binder_free_thread` cuts a transaction that the thread handles off the
thread and its buffer. -/
def leaveIncoming (t : TransactionId) (tx : BinderTransaction) : Except Fault State := do
  let s ← s.detachBuffer tx.buffer
  return s.setTransaction t { tx with toProc := none, toThread := none, buffer := none }

/-- The loop of `binder_free_thread` over the transaction stack. -/
def unwindStack (th : ThreadId) : Nat → State → Option TransactionId → Except Fault State
  | _, s, none => .ok s
  | 0, _, some _ => .error (.endless .freeThread)
  | fuel + 1, s, some t => do
    let tx ← s.transaction t
    if tx.toThread = some th then
      let s ← s.leaveIncoming t tx
      unwindStack th fuel s tx.toParent
    else if tx.fromThread = some th then
      unwindStack th fuel (s.setTransaction t { tx with fromThread := none }) tx.fromParent
    else .error (.bug .freeThread)

/-- The transaction that `binder_free_thread` has to answer: the one on top of
the stack, if the thread was handling it. -/
def sendReply (thread : BinderThread) : Except Fault (Option TransactionId) :=
  match thread.transactionStack with
  | some t => do
    let tx ← s.transaction t
    return if tx.toThread = some th then some t else none
  | none => .ok none

/-- `binder_free_thread` answers it. -/
def answerDead (t : Option TransactionId) : Except Fault State :=
  match t with
  | some t => s.binderSendFailedReply t brDeadReply
  | none => .ok s

/-- `binder_free_thread`. A transaction comes up at most twice on one stack, when
the thread is both its sender and its receiver. -/
def binderFreeThread : Except Fault State := do
  let proc ← s.proc p
  let s := s.setProc p { proc with threads := proc.threads.erase th }
  let thread ← s.thread th
  let reply ← s.sendReply th thread
  let s ← unwindStack th (2 * s.transactions.next + 1) s thread.transactionStack
  let s ← s.answerDead reply
  let s ← s.binderReleaseWork (.thread th)
  return { s with threads := s.threads.free th }

/-! ## Processes -/

/-- `binder_deferred_release` frees the threads. -/
def releaseThreads (s : State) (p : ProcId) : List ThreadId → Except Fault State
  | [] => .ok s
  | th :: ths => do
    let s ← s.binderFreeThread p th
    s.releaseThreads p ths

/-- `binder_deferred_release` tells the holder of a reference that asked for it. -/
def notifyDeath (r : RefId) : Except Fault State := do
  let ref ← s.ref r
  match ref.death with
  | none => return s
  | some d =>
    let death ← s.death d
    bugOn .deferredReleaseDeath (!s.unlinked (.death d))
    (s.setDeath d { death with type := some .deadBinder }).listAddTail (.death d) (.proc ref.proc)

/-- `binder_deferred_release` tells the holders of all references to a node. -/
def notifyDeaths (s : State) : List RefId → Except Fault State
  | [] => .ok s
  | r :: rs => do
    let s ← s.notifyDeath r
    s.notifyDeaths rs

/-- `binder_deferred_release` at one node. -/
def releaseNode (n : NodeId) : Except Fault State := do
  let proc ← s.proc p
  let node ← s.node n
  let s := s.setProc p { proc with nodes := proc.nodes.erase n }
  let s := s.listDel (.node n)
  if node.refs.isEmpty then return s.freeNode n node
  else
    let s := s.setNode n { node with proc := none, localStrongRefs := 0, localWeakRefs := 0 }
    { s with deadNodes := n :: s.deadNodes }.notifyDeaths node.refs

/-- `binder_deferred_release` goes through the nodes. -/
def releaseNodes (s : State) (p : ProcId) : List NodeId → Except Fault State
  | [] => .ok s
  | n :: ns => do
    let s ← s.releaseNode p n
    s.releaseNodes p ns

/-- `binder_deferred_release` deletes the references. -/
def releaseRefs (s : State) : List RefId → Except Fault State
  | [] => .ok s
  | r :: rs => do
    let s ← s.binderDeleteRef r
    s.releaseRefs rs

/-- `binder_deferred_release` at one buffer. -/
def releaseBuffer (b : BufferPtr) (env : PageEnv) : Except Fault State := do
  let x ← s.buffer b
  let s ← s.detachTransaction b x
  s.freeBuf b env

/-- `binder_deferred_release` frees the buffers. -/
def releaseBuffers (s : State) (p : ProcId) (env : PageEnv) : List Nat → Except Fault State
  | [] => .ok s
  | b :: bs => do
    let s ← s.releaseBuffer { proc := p, addr := b } env
    s.releaseBuffers p env bs

/-- The addresses of the buffers that are in use. -/
def allocatedBuffers (s : State) (p : ProcId) : List Nat :=
  match s.areas p with
  | some a => a.allocatedBuffers.toList
  | none => []

/-- `binder_deferred_release` when the context manager goes. -/
def dropContextMgr : Except Fault State :=
  match s.contextMgrNode with
  | some n => do
    let node ← s.node n
    return if node.proc = some p then { s with contextMgrNode := none } else s
  | none => .ok s

/-- `proc->vma` is set. -/
def hasVma : Bool := (s.areas p).any (·.vma)

/-- `binder_deferred_release`. -/
def binderDeferredRelease (env : PageEnv) : Except Fault State := do
  let proc ← s.proc p
  bugOn .deferredRelease (s.hasVma p)
  bugOn .deferredRelease proc.files
  let s ← s.dropContextMgr p
  let s ← s.releaseThreads p proc.threads
  let s ← s.releaseNodes p proc.nodes
  let s ← s.releaseRefs proc.refsByDesc
  let s ← s.binderReleaseWork (.proc p)
  let s ← s.releaseBuffers p env (s.allocatedBuffers p)
  return { s with
    procs := s.procs.free p
    areas := fun q => if q = p then none else s.areas q }

/-- `binder_deferred_flush` at one thread. -/
def flushThread : Except Fault State := do
  let thread ← s.thread th
  return s.setThread th { thread with looper := { thread.looper with needReturn := true } }

/-- `binder_deferred_flush`. -/
def binderDeferredFlush (s : State) : List ThreadId → Except Fault State
  | [] => .ok s
  | th :: ths => do
    let s ← s.flushThread th
    s.binderDeferredFlush ths

/-- `binder_defer_work`. -/
def binderDeferWork (defer : DeferredWork → DeferredWork) : Except Fault State := do
  let proc ← s.proc p
  let s := s.setProc p { proc with deferredWork := defer proc.deferredWork }
  return { s with
    deferredList := if p ∈ s.deferredList then s.deferredList else p :: s.deferredList }

/-- `binder_deferred_func` flushes a process if it was asked to. -/
def flushIf (flush : Bool) (ths : List ThreadId) : Except Fault State :=
  if flush then s.binderDeferredFlush ths else .ok s

/-- One round of `binder_deferred_func`. -/
def binderDeferredFunc (env : PageEnv) : Except Fault State :=
  match s.deferredList with
  | [] => .ok s
  | p :: ps => do
    let proc ← s.proc p
    let defer := proc.deferredWork
    let s := { s with deferredList := ps }
    let s := s.setProc p { proc with
      deferredWork := {}, files := proc.files && !defer.putFiles }
    let s ← s.flushIf defer.flush proc.threads
    if defer.release then s.binderDeferredRelease p env else return s

end State

end AndroidKernel.Binder
