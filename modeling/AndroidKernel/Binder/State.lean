import AndroidKernel.Lib.Heap
import AndroidKernel.Lib.IntrusiveLists
import AndroidKernel.Binder.Buffer

/-!
# The state of the driver (`binder.c`, lines 121–340)

The structures of the source, one heap for each of them, and the lists that
their `list_head`s form. `struct binder_proc` is in three places: its scalar
fields and trees in `procs`, the fields of its buffers in `areas`, and its
`todo` and `delivered_death` lists, like all lists of `struct binder_work`, in
`works`. The trees are kept as the lists of their nodes in order.

What the driver only prints or counts (debug ids, the log of transactions, the
statistics but for those of transactions), scheduling priorities and wait
queues are left out. `history` is not part of the driver: it records what
happened, for the statements about whole runs.
-/

namespace AndroidKernel.Binder

/-! ## Constants of `binder.h` -/

def brError : UInt32 := 0x80047200
def brOk : UInt32 := 0x7201
def brTransaction : UInt32 := 0x80287202
def brReply : UInt32 := 0x80287203
def brDeadReply : UInt32 := 0x7205
def brTransactionComplete : UInt32 := 0x7206
def brIncrefs : UInt32 := 0x80087207
def brAcquire : UInt32 := 0x80087208
def brRelease : UInt32 := 0x80087209
def brDecrefs : UInt32 := 0x8008720a
def brNoop : UInt32 := 0x720c
def brSpawnLooper : UInt32 := 0x720d
def brDeadBinder : UInt32 := 0x8004720f
def brClearDeathNotificationDone : UInt32 := 0x80047210
def brFailedReply : UInt32 := 0x7211

/-- `flags & TF_ONE_WAY`. -/
def tfOneWay (flags : UInt32) : Bool := flags &&& 0x01 != 0

/-- `flags & TF_ACCEPT_FDS`. -/
def tfAcceptFds (flags : UInt32) : Bool := flags &&& 0x10 != 0

/-- `x++` on an `int`. -/
def intInc (x : Int) : Int := (x + 1).bmod (2 ^ 32)

/-- `x--` on an `int`. -/
def intDec (x : Int) : Int := (x - 1).bmod (2 ^ 32)

/-! ## The structures -/

/-- The lists of `struct binder_work`. -/
inductive Queue where
  /-- `proc->todo` -/
  | proc (p : ProcId)
  /-- `thread->todo` -/
  | thread (th : ThreadId)
  /-- `node->async_todo` -/
  | async (n : NodeId)
  /-- `proc->delivered_death` -/
  | deliveredDeath (p : ProcId)
  deriving DecidableEq

/-- The structures that contain a `struct binder_work`. A
`BINDER_WORK_TRANSACTION_COMPLETE` is named after the transaction that it was
allocated with. -/
inductive Work where
  | transaction (t : TransactionId)
  | transactionComplete (t : TransactionId)
  | node (n : NodeId)
  | death (d : DeathId)
  deriving DecidableEq

/-- `struct binder_node`. -/
structure BinderNode where
  proc : Option ProcId
  ptr : UInt32
  cookie : UInt32
  refs : List RefId := []
  internalStrongRefs : Int := 0
  localWeakRefs : Int := 0
  localStrongRefs : Int := 0
  hasStrongRef : Bool := false
  pendingStrongRef : Bool := false
  hasWeakRef : Bool := false
  pendingWeakRef : Bool := false
  hasAsyncTransaction : Bool := false
  acceptFds : Bool := false
  deriving DecidableEq

/-- The types of work that a `struct binder_ref_death` can stand for. -/
inductive DeathWork where
  | deadBinder
  | deadBinderAndClear
  | clearDeathNotification
  deriving DecidableEq

/-- `struct binder_ref_death`; its work has no type before it is queued. -/
structure BinderRefDeath where
  cookie : UInt32
  type : Option DeathWork := none
  deriving DecidableEq

/-- `struct binder_ref`. -/
structure BinderRef where
  proc : ProcId
  node : NodeId
  desc : UInt32
  strong : Int := 0
  weak : Int := 0
  death : Option DeathId := none
  deriving DecidableEq

/-- The `looper` flags of a thread. -/
structure Looper where
  registered : Bool := false
  entered : Bool := false
  exited : Bool := false
  invalid : Bool := false
  waiting : Bool := false
  needReturn : Bool := false
  deriving DecidableEq

/-- The local variables of a thread that sleeps in `binder_thread_read`: `ptr`
is the offset of `ptr` in the user's buffer. -/
structure ReadWait where
  waitForProcWork : Bool
  size : Nat
  ptr : Nat
  nonBlock : Bool
  deriving DecidableEq

/-- `struct binder_thread`. -/
structure BinderThread where
  proc : ProcId
  pid : Nat
  looper : Looper := {}
  transactionStack : Option TransactionId := none
  returnError : UInt32 := brOk
  returnError2 : UInt32 := brOk
  sleeping : Option ReadWait := none
  deriving DecidableEq

/-- A pointer to a buffer: the process in whose area it is, and its address. -/
structure BufferPtr where
  proc : ProcId
  addr : Nat
  deriving DecidableEq

/-- `struct binder_transaction`. -/
structure BinderTransaction where
  fromThread : Option ThreadId := none
  fromParent : Option TransactionId := none
  toProc : Option ProcId := none
  toThread : Option ThreadId := none
  toParent : Option TransactionId := none
  needReply : Bool := false
  buffer : Option BufferPtr := none
  code : UInt32 := 0
  flags : UInt32 := 0
  senderEuid : Nat := 0
  deriving DecidableEq

/-- `proc->deferred_work`. -/
structure DeferredWork where
  putFiles : Bool := false
  flush : Bool := false
  release : Bool := false
  deriving DecidableEq

/-- `struct binder_proc`. `closed` is set once the file is released, after which
nobody can name the process any more. -/
structure BinderProc where
  pid : Nat
  euid : Nat
  threads : List ThreadId := []
  nodes : List NodeId := []
  refsByDesc : List RefId := []
  refsByNode : List RefId := []
  files : Bool := false
  deferredWork : DeferredWork := {}
  userBufferOffset : UInt32 := 0
  maxThreads : Int := 0
  requestedThreads : Int := 0
  requestedThreadsStarted : Int := 0
  readyThreads : Int := 0
  closed : Bool := false
  deriving DecidableEq

/-- `struct binder_transaction_data`, as `binder_thread_read` returns it. -/
structure ReturnData where
  target : UInt32
  cookie : UInt32
  code : UInt32
  flags : UInt32
  senderPid : Nat
  senderEuid : Nat
  dataSize : UInt32
  offsetsSize : UInt32
  buffer : UInt32
  offsets : UInt32
  deriving DecidableEq

/-- What `binder_thread_read` puts into the user's buffer. -/
inductive Return where
  | code (cmd : UInt32)
  | node (cmd ptr cookie : UInt32)
  | death (cmd cookie : UInt32)
  | transaction (cmd : UInt32) (tr : ReturnData)
  deriving DecidableEq

/-- What happens to a death notification once it is registered. -/
inductive DeathEvent where
  /-- `BR_DEAD_BINDER` was returned -/
  | deadBinder
  /-- it was acknowledged with `BC_DEAD_BINDER_DONE` -/
  | deadBinderDone
  /-- `BR_CLEAR_DEATH_NOTIFICATION_DONE` was returned -/
  | cleared
  deriving DecidableEq

/-- The events that the statements about runs mention. -/
inductive Event where
  /-- a one-way transaction to a node was accepted -/
  | accepted (n : NodeId) (t : TransactionId)
  /-- a one-way transaction to a node was handed to user space -/
  | delivered (n : NodeId) (t : TransactionId)
  /-- `kfree(node)`, with the node as it was -/
  | nodeFreed (node : BinderNode)
  /-- `binder_thread_read` returned something to a thread -/
  | returned (th : ThreadId) (r : Return)
  /-- something happened to the registration `d` -/
  | death (d : DeathId) (e : DeathEvent)
  deriving DecidableEq

/-- The whole driver. -/
structure State where
  procs : Heap BinderProc
  threads : Heap BinderThread
  nodes : Heap BinderNode
  refs : Heap BinderRef
  transactions : Heap BinderTransaction
  deaths : Heap BinderRefDeath
  works : IntrusiveLists Queue Work
  areas : ProcId → Option BufferArea
  contextMgrNode : Option NodeId
  contextMgrUid : Option Nat
  deadNodes : List NodeId
  deferredList : List ProcId
  transactionsCreated : Nat
  transactionsDeleted : Nat
  history : List Event

/-- The driver after it was loaded. -/
def State.init : State where
  procs := .empty
  threads := .empty
  nodes := .empty
  refs := .empty
  transactions := .empty
  deaths := .empty
  works := .empty
  areas _ := none
  contextMgrNode := none
  contextMgrUid := none
  deadNodes := []
  deferredList := []
  transactionsCreated := 0
  transactionsDeleted := 0
  history := []

/-! ## Access to the objects -/

/-- A pointer to an object is followed. -/
def deref {α : Type} (h : Heap α) (i : Nat) : Except Fault α :=
  match h.get i with
  | some x => .ok x
  | none => .error .useAfterFree

namespace State

variable (s : State) (w : Work) (q : Queue)

def proc (p : ProcId) : Except Fault BinderProc := deref s.procs p
def thread (th : ThreadId) : Except Fault BinderThread := deref s.threads th
def node (n : NodeId) : Except Fault BinderNode := deref s.nodes n
def ref (r : RefId) : Except Fault BinderRef := deref s.refs r
def transaction (t : TransactionId) : Except Fault BinderTransaction :=
  deref s.transactions t
def death (d : DeathId) : Except Fault BinderRefDeath := deref s.deaths d

def setProc (p : ProcId) (x : BinderProc) : State :=
  { s with procs := s.procs.set p x }
def setThread (th : ThreadId) (x : BinderThread) : State :=
  { s with threads := s.threads.set th x }
def setNode (n : NodeId) (x : BinderNode) : State :=
  { s with nodes := s.nodes.set n x }
def setRef (r : RefId) (x : BinderRef) : State :=
  { s with refs := s.refs.set r x }
def setTransaction (t : TransactionId) (x : BinderTransaction) : State :=
  { s with transactions := s.transactions.set t x }
def setDeath (d : DeathId) (x : BinderRefDeath) : State :=
  { s with deaths := s.deaths.set d x }
def setArea (p : ProcId) (a : BufferArea) : State :=
  { s with areas := fun q => if q = p then some a else s.areas q }

/-- An event is recorded. -/
def record (e : Event) : State := { s with history := s.history ++ [e] }

/-- `kfree(node)`. -/
def freeNode (n : NodeId) (node : BinderNode) : State :=
  { s with nodes := s.nodes.free n }.record (.nodeFreed node)

/-- `kzalloc` of a transaction. -/
def newTransaction : State :=
  { s with
    transactions := s.transactions.alloc {}
    transactionsCreated := s.transactionsCreated + 1 }

/-- `kfree(t)`. -/
def freeTransaction (t : TransactionId) : State :=
  { s with
    transactions := s.transactions.free t
    transactionsDeleted := s.transactionsDeleted + 1 }

/-- The list `q` in order. -/
def todo : List Work := s.works.items q

/-- `list_empty(&w->entry)`: `w` is on no list. -/
def unlinked : Bool := (s.works.entry w).isNone

/-- `list_del_init(&w->entry)`. -/
def listDel : State := { s with works := s.works.del w }

/-- `list_add_tail(&w->entry, q)`. -/
def listAddTail : Except Fault State :=
  if h : s.works.entry w = none then .ok { s with works := s.works.addTail w q h }
  else .error .corruptList

/-- `list_add(&w->entry, q)`. -/
def listAdd : Except Fault State :=
  if h : s.works.entry w = none then .ok { s with works := s.works.addHead w q h }
  else .error .corruptList

/-- The area of a process that has one. -/
def area (p : ProcId) : Except Fault BufferArea :=
  match s.areas p with
  | some a => .ok a
  | none => .error .useAfterFree

/-- The header of a buffer. -/
def buffer (b : BufferPtr) : Except Fault BinderBuffer := do
  let a ← s.area b.proc
  match a.find b.addr with
  | some x => .ok x
  | none => .error .useAfterFree

/-- An assignment to fields of a buffer's header, or to its data. -/
def modifyBuffer (b : BufferPtr) (f : BinderBuffer → BinderBuffer) : Except Fault State := do
  let a ← s.area b.proc
  match a.find b.addr with
  | some _ => .ok (s.setArea b.proc (a.modify b.addr f))
  | none => .error .useAfterFree

end State

/-! ## What the surroundings decide -/

/-- The `kzalloc` calls of the driver; those made for an object of a transaction
carry the object's position. -/
inductive AllocSite where
  | proc
  | thread
  | node (k : Nat)
  | ref (k : Nat)
  | death
  | transaction
  | transactionComplete
  deriving DecidableEq

/-- Everything the driver gets from the rest of the kernel and from user space
during one call: which allocations succeed, which copies from and to user space
do, what `fget` and `task_get_unused_fd_flags` return, and what is in a local
variable that was never written. -/
structure Env where
  kzalloc : AllocSite → Bool
  page : PageEnv
  copyData : Bool
  copyOffsets : Bool
  fget : Nat → Bool
  unusedFd : Nat → Option UInt32
  putUser : Nat → Bool
  uninitialized : UInt32

end AndroidKernel.Binder
