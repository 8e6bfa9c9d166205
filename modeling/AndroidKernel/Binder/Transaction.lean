import AndroidKernel.Binder.Reference

/-!
# Transactions (`binder.c`, lines 1214–1768)

`binder_transaction` sends a call or a reply: it finds the target, allocates
the transaction and a buffer in the target's area, translates the objects in the
payload one by one, and queues the transaction. A failure after the allocation
of the buffer undoes the objects that were translated so far. The function is
cut into these stages here.
-/

namespace AndroidKernel.Binder

/-! ## Objects in the payload -/

/-- The types of `struct flat_binder_object`. -/
inductive FlatType where
  | binder
  | weakBinder
  | handle
  | weakHandle
  | fd
  deriving DecidableEq

/-- The values of the types. -/
def FlatType.code : FlatType → UInt32
  | .binder => 0x73622a85
  | .weakBinder => 0x77622a85
  | .handle => 0x73682a85
  | .weakHandle => 0x77682a85
  | .fd => 0x66642a85

/-- The type a value stands for, if any. -/
def FlatType.ofCode (w : UInt32) : Option FlatType :=
  if w = FlatType.binder.code then some .binder
  else if w = FlatType.weakBinder.code then some .weakBinder
  else if w = FlatType.handle.code then some .handle
  else if w = FlatType.weakHandle.code then some .weakHandle
  else if w = FlatType.fd.code then some .fd
  else none

/-- `struct flat_binder_object`; `binder` is the union of `binder` and `handle`. -/
structure FlatBinderObject where
  type : UInt32
  flags : UInt32
  binder : UInt32
  cookie : UInt32
  deriving DecidableEq

namespace BinderBuffer

variable (x : BinderBuffer) (off : UInt32) (fp : FlatBinderObject)

/-- Word `i` of the data. -/
def word (i : Nat) : UInt32 := x.data.getD i 0

/-- The object at offset `off` of the data. -/
def objectAt : FlatBinderObject where
  type := x.word (off.toNat / 4)
  flags := x.word (off.toNat / 4 + 1)
  binder := x.word (off.toNat / 4 + 2)
  cookie := x.word (off.toNat / 4 + 3)

/-- An assignment to the fields of the object at offset `off`. -/
def setObject : BinderBuffer :=
  { x with
    data := (((x.data.set (off.toNat / 4) fp.type).set (off.toNat / 4 + 1) fp.flags).set
      (off.toNat / 4 + 2) fp.binder).set (off.toNat / 4 + 3) fp.cookie }

/-- Entry `k` of the offsets, which start behind the data. -/
def offsetAt (k : Nat) : UInt32 := x.word (alignPtr x.dataSize / 4 + k)

/-- The check that an object at offset `off` lies in the data. -/
def badOffset : Bool :=
  off > x.dataSize - 16 || x.dataSize < 16 || off.toNat % 4 != 0

end BinderBuffer

namespace State

/-! ## The transaction stack -/

variable (s : State) (target : Option ThreadId) (t : TransactionId)

/-- `binder_pop_transaction` takes `t` off the stack of the thread it came from. -/
def popStack : Except Fault State :=
  match target with
  | some th => do
    let thread ← s.thread th
    bugOn .popTransaction (thread.transactionStack != some t)
    let tx ← s.transaction t
    bugOn .popTransaction (tx.fromThread != some th)
    let s := s.setThread th { thread with transactionStack := tx.fromParent }
    return s.setTransaction t { tx with fromThread := none }
  | none => return s

/-- `t->buffer->transaction = NULL`, if there is a buffer. -/
def detachBuffer (b : Option BufferPtr) : Except Fault State :=
  match b with
  | some b => s.modifyBuffer b fun x => { x with transaction := none }
  | none => return s

/-- `binder_pop_transaction`. -/
def binderPopTransaction : Except Fault State := do
  let s ← s.popStack target t
  let tx ← s.transaction t
  let s ← s.detachBuffer tx.buffer
  return s.freeTransaction t

/-- `binder_send_failed_reply` makes room for another error code. -/
def shiftReturnError (thread : BinderThread) : BinderThread :=
  if thread.returnError ≠ brOk ∧ thread.returnError2 = brOk then
    { thread with returnError2 := thread.returnError, returnError := brOk }
  else thread

/-- `binder_send_failed_reply` found the thread that waits for the reply. -/
def failReplyTo (target : ThreadId) (t : TransactionId) (errorCode : UInt32) :
    Except Fault State := do
  let thread ← s.thread target
  let thread := shiftReturnError thread
  let s := s.setThread target thread
  if thread.returnError = brOk then
    let s ← s.binderPopTransaction (some target) t
    let thread ← s.thread target
    return s.setThread target { thread with returnError := errorCode }
  else return s

/-- The loop of `binder_send_failed_reply`. -/
def sendFailedReplyLoop (errorCode : UInt32) : Nat → State → TransactionId → Except Fault State
  | 0, _, _ => .error (.endless .sendFailedReply)
  | fuel + 1, s, t => do
    let tx ← s.transaction t
    match tx.fromThread with
    | some target => s.failReplyTo target t errorCode
    | none =>
      let s ← s.binderPopTransaction none t
      match tx.fromParent with
      | none => return s
      | some next => sendFailedReplyLoop errorCode fuel s next

/-- `binder_send_failed_reply`. Each round of the loop goes to another
transaction, so that one round for each transaction there can be is enough. -/
def binderSendFailedReply (errorCode : UInt32) : Except Fault State := do
  let tx ← s.transaction t
  bugOn .sendFailedReply (tfOneWay tx.flags)
  sendFailedReplyLoop errorCode (s.transactions.next + 1) s t

/-! ## Releasing the objects of a buffer -/

/-- `binder_transaction_buffer_release` at one object of the buffer `x` in the
area of `p`. Closing a file descriptor changes nothing here. -/
def releaseObject (p : ProcId) (x : BinderBuffer) (off : UInt32) : Except Fault State :=
  if x.badOffset off then .ok s
  else
    let fp := x.objectAt off
    match FlatType.ofCode fp.type with
    | some .binder => do
      match ← s.binderGetNode p fp.binder with
      | some n => s.binderDecNode n true false
      | none => return s
    | some .weakBinder => do
      match ← s.binderGetNode p fp.binder with
      | some n => s.binderDecNode n false false
      | none => return s
    | some .handle => do
      match ← s.binderGetRef p fp.binder with
      | some r => s.binderDecRef r true
      | none => return s
    | some .weakHandle => do
      match ← s.binderGetRef p fp.binder with
      | some r => s.binderDecRef r false
      | none => return s
    | some .fd | none => .ok s

/-- The loop of `binder_transaction_buffer_release`. -/
def releaseObjects (s : State) (p : ProcId) (x : BinderBuffer) : List UInt32 → Except Fault State
  | [] => .ok s
  | off :: offs => do
    let s ← s.releaseObject p x off
    s.releaseObjects p x offs

/-- `binder_transaction_buffer_release` at the target node. -/
def releaseTargetNode (x : BinderBuffer) : Except Fault State :=
  match x.targetNode with
  | some n => s.binderDecNode n true false
  | none => .ok s

/-- `binder_transaction_buffer_release`; `failedAt` is the number of offsets
before `failed_at`. -/
def binderTransactionBufferRelease (b : BufferPtr) (failedAt : Option Nat) :
    Except Fault State := do
  let x ← s.buffer b
  let s ← s.releaseTargetNode x
  let count := failedAt.getD ((x.offsetsSize.toNat + 3) / 4)
  s.releaseObjects b.proc x ((List.range count).map x.offsetAt)

/-- `binder_free_buf` on a buffer of the area of `b.proc`. -/
def freeBuf (b : BufferPtr) (env : PageEnv) : Except Fault State := do
  let a ← s.area b.proc
  let a ← a.binderFreeBuf env b.addr
  return s.setArea b.proc a

end State

/-! ## The target of a transaction -/

/-- `struct binder_transaction_data`, as it comes with `BC_TRANSACTION` and
`BC_REPLY`, and the words of the user's memory that it points to. -/
structure TransactionData where
  handle : UInt32
  code : UInt32
  flags : UInt32
  dataSize : UInt32
  offsetsSize : UInt32
  data : Nat → UInt32
  offsets : Nat → UInt32

/-- What is copied into the buffer. -/
def TransactionData.words (tr : TransactionData) : List UInt32 :=
  (List.range (alignPtr tr.dataSize / 4)).map tr.data ++
    (List.range (alignPtr tr.offsetsSize / 4)).map tr.offsets

/-- The arguments of `binder_transaction`, and its surroundings. -/
structure TransactionCall where
  proc : ProcId
  thread : ThreadId
  tr : TransactionData
  reply : Bool
  env : Env

/-- `!reply && (tr->flags & TF_ONE_WAY)`. -/
def TransactionCall.oneWay (c : TransactionCall) : Bool := !c.reply && tfOneWay c.tr.flags

/-- Where a transaction goes: `target_proc`, `target_thread`, `target_node` and
`in_reply_to`. -/
structure TransactionTarget where
  proc : ProcId
  thread : Option ThreadId
  node : Option NodeId
  inReplyTo : Option TransactionId
  deriving DecidableEq

/-- `target_list`. -/
def TransactionTarget.list (target : TransactionTarget) : Queue :=
  match target.thread with
  | some th => .thread th
  | none => .proc target.proc

/-- `return_error` and `in_reply_to` at one of the error labels. -/
structure TransactionError where
  returnError : UInt32
  inReplyTo : Option TransactionId := none
  deriving DecidableEq

namespace State

variable (s : State) (c : TransactionCall) (target : TransactionTarget)

/-- The target of a reply. The transaction it answers leaves the stack of the
thread that replies. -/
def replyTarget (th : ThreadId) :
    Except Fault (State × Except TransactionError TransactionTarget) := do
  let thread ← s.thread th
  match thread.transactionStack with
  | none => return (s, .error { returnError := brFailedReply })
  | some t =>
    let tx ← s.transaction t
    if tx.toThread ≠ some th then return (s, .error { returnError := brFailedReply })
    else
      let s := s.setThread th { thread with transactionStack := tx.toParent }
      match tx.fromThread with
      | none => return (s, .error { returnError := brDeadReply, inReplyTo := some t })
      | some target =>
        let targetThread ← s.thread target
        if targetThread.transactionStack ≠ some t then
          return (s, .error { returnError := brFailedReply })
        else
          return (s, .ok {
            proc := targetThread.proc, thread := some target, node := none, inReplyTo := some t })

/-- `target_node` of a call. -/
def callTargetNode (p : ProcId) (handle : UInt32) : Except Fault (Except TransactionError NodeId) :=
  if handle ≠ 0 then do
    match ← s.binderGetRef p handle with
    | none => return .error { returnError := brFailedReply }
    | some r =>
      let ref ← s.ref r
      return .ok ref.node
  else
    match s.contextMgrNode with
    | none => .ok (.error { returnError := brDeadReply })
    | some n => .ok (.ok n)

/-- The loop of `binder_transaction` that looks for a thread of the target
process among those that wait for the call that is being handled. -/
def searchTargetThread (s : State) (target : ProcId) :
    Nat → Option TransactionId → Option ThreadId → Except Fault (Option ThreadId)
  | _, none, found => .ok found
  | 0, some _, _ => .error (.endless .transaction)
  | fuel + 1, some t, found => do
    let tx ← s.transaction t
    match tx.fromThread with
    | some th =>
      let thread ← s.thread th
      s.searchTargetThread target fuel tx.fromParent
        (if thread.proc = target then some th else found)
    | none => s.searchTargetThread target fuel tx.fromParent found

/-- `target_thread` of a call, which must not be made while the thread waits for
a reply. -/
def callTargetThread (th : ThreadId) (oneWay : Bool) (target : ProcId) :
    Except Fault (Except TransactionError (Option ThreadId)) := do
  let thread ← s.thread th
  match oneWay, thread.transactionStack with
  | false, some t =>
    let tx ← s.transaction t
    if tx.toThread ≠ some th then return .error { returnError := brFailedReply }
    else
      let found ← s.searchTargetThread target (s.transactions.next + 1) (some t) none
      return .ok found
  | _, _ => return .ok none

/-- The target of a call. -/
def callTarget : Except Fault (Except TransactionError TransactionTarget) := do
  match ← s.callTargetNode c.proc c.tr.handle with
  | .error e => return .error e
  | .ok n =>
    let node ← s.node n
    match node.proc with
    | none => return .error { returnError := brDeadReply }
    | some p =>
      match ← s.callTargetThread c.thread (tfOneWay c.tr.flags) p with
      | .error e => return .error e
      | .ok th => return .ok { proc := p, thread := th, node := some n, inReplyTo := none }

/-- The first stage of `binder_transaction`. -/
def transactionTarget : Except Fault (State × Except TransactionError TransactionTarget) :=
  if c.reply then s.replyTarget c.thread
  else do
    let target ← s.callTarget c
    return (s, target)

/-! ## Allocation -/

/-- `binder_alloc_buf` in the area of the target. -/
def allocBuf (p : ProcId) (env : PageEnv) (dataSize offsetsSize : UInt32) (isAsync : Bool) :
    Except Fault (State × Option Nat) :=
  match s.areas p with
  | none => .ok (s, none)
  | some a => do
    let (a, addr) ← a.binderAllocBuf env dataSize offsetsSize isAsync
    return (s.setArea p a, addr)

/-- The reference that a buffer holds on its target node. -/
def holdTargetNode (n : Option NodeId) : Except Fault State :=
  match n with
  | some n => do
    let (s, _) ← s.binderIncNode n true false none
    return s
  | none => .ok s

/-- The second stage of `binder_transaction`: the transaction and its buffer.
`none` when something could not be allocated, after the rest was freed again. -/
def transactionAlloc : Except Fault (State × Option (TransactionId × BufferPtr)) :=
  if !c.env.kzalloc .transaction then .ok (s, none)
  else
    let t := s.transactions.next
    let s := s.newTransaction
    if !c.env.kzalloc .transactionComplete then .ok (s.freeTransaction t, none)
    else do
      let proc ← s.proc c.proc
      let (s, addr) ← s.allocBuf target.proc c.env.page c.tr.dataSize c.tr.offsetsSize c.oneWay
      match addr with
      | none => return (s.freeTransaction t, none)
      | some addr =>
        let b : BufferPtr := { proc := target.proc, addr := addr }
        let s := s.setTransaction t {
          fromThread := if !c.reply && !tfOneWay c.tr.flags then some c.thread else none
          toProc := some target.proc
          toThread := target.thread
          buffer := some b
          code := c.tr.code
          flags := c.tr.flags
          senderEuid := proc.euid }
        let s ← s.modifyBuffer b fun x => { x with
          allowUserFree := false
          transaction := some t
          targetNode := target.node }
        let s ← s.holdTargetNode target.node
        return (s, some (t, b))

/-! ## Translation -/

variable (b : BufferPtr) (k : Nat) (off : UInt32) (fp : FlatBinderObject)

/-- The node of the sender for an object it offers, made if there is none. -/
def senderNode : Except Fault (State × Option NodeId) := do
  match ← s.binderGetNode c.proc fp.binder with
  | some n => return (s, some n)
  | none =>
    match ← s.binderNewNode c.proc fp.binder fp.cookie (c.env.kzalloc (.node k)) with
    | (s, none) => return (s, none)
    | (s, some n) =>
      let node ← s.node n
      return (s.setNode n { node with acceptFds := fp.flags &&& 0x100 != 0 }, some n)

/-- Translation of an object that the sender offers. The error of a cookie
mismatch is whatever `return_error` happens to hold. -/
def translateBinder (strong : Bool) : Except Fault (State × Option UInt32) := do
  match ← s.senderNode c k fp with
  | (s, none) => return (s, some brFailedReply)
  | (s, some n) =>
    let node ← s.node n
    if fp.cookie ≠ node.cookie then return (s, some c.env.uninitialized)
    else
      match ← s.binderGetRefForNode target.proc n (c.env.kzalloc (.ref k)) with
      | (s, none) => return (s, some brFailedReply)
      | (s, some r) =>
        let ref ← s.ref r
        let type := if strong then FlatType.handle else FlatType.weakHandle
        let s ← s.modifyBuffer b fun x =>
          x.setObject off { fp with type := type.code, binder := ref.desc }
        let (s, _) ← s.binderIncRef r strong (some (.thread c.thread))
        return (s, none)

/-- Translation of an object that the sender has a reference to. -/
def translateHandle (strong : Bool) : Except Fault (State × Option UInt32) := do
  match ← s.binderGetRef c.proc fp.binder with
  | none => return (s, some brFailedReply)
  | some r =>
    let ref ← s.ref r
    let node ← s.node ref.node
    if node.proc = some target.proc then
      let type := if strong then FlatType.binder else FlatType.weakBinder
      let s ← s.modifyBuffer b fun x =>
        x.setObject off { fp with type := type.code, binder := node.ptr, cookie := node.cookie }
      let (s, _) ← s.binderIncNode ref.node strong false none
      return (s, none)
    else
      match ← s.binderGetRefForNode target.proc ref.node (c.env.kzalloc (.ref k)) with
      | (s, none) => return (s, some brFailedReply)
      | (s, some r) =>
        let ref ← s.ref r
        let s ← s.modifyBuffer b fun x => x.setObject off { fp with binder := ref.desc }
        let (s, _) ← s.binderIncRef r strong none
        return (s, none)

/-- Whether the target of a transaction takes file descriptors. -/
def acceptsFds : Except Fault Bool :=
  match target.inReplyTo, target.node with
  | some t, _ => do
    let tx ← s.transaction t
    return tfAcceptFds tx.flags
  | none, some n => do
    let node ← s.node n
    return node.acceptFds
  | none, none => .error .nullDeref

/-- Translation of a file descriptor. -/
def translateFd : Except Fault (State × Option UInt32) := do
  if !(← s.acceptsFds target) then return (s, some brFailedReply)
  else if !c.env.fget k then return (s, some brFailedReply)
  else
    match c.env.unusedFd k with
    | none => return (s, some brFailedReply)
    | some fd =>
      let s ← s.modifyBuffer b fun x => x.setObject off { fp with binder := fd }
      return (s, none)

/-- The body of the loop of `binder_transaction` over the offsets; the result is
the `return_error` with which the loop is left. -/
def translateObject : Except Fault (State × Option UInt32) := do
  let x ← s.buffer b
  let off := x.offsetAt k
  if x.badOffset off then return (s, some brFailedReply)
  else
    let fp := x.objectAt off
    match FlatType.ofCode fp.type with
    | some .binder => s.translateBinder c target b k off fp true
    | some .weakBinder => s.translateBinder c target b k off fp false
    | some .handle => s.translateHandle c target b k off fp true
    | some .weakHandle => s.translateHandle c target b k off fp false
    | some .fd => s.translateFd c target b k off fp
    | none => return (s, some brFailedReply)

/-- The loop of `binder_transaction` over `n` offsets from the one with number
`k` on. A failure comes with the number of the offset it happened at. -/
def translateObjects (s : State) (c : TransactionCall) (target : TransactionTarget)
    (b : BufferPtr) (k : Nat) : Nat → Except Fault (State × Option (UInt32 × Nat))
  | 0 => .ok (s, none)
  | n + 1 => do
    match ← s.translateObject c target b k with
    | (s, some e) => return (s, some (e, k))
    | (s, none) => s.translateObjects c target b (k + 1) n

/-- The third stage of `binder_transaction`: the payload is copied and
translated. -/
def transactionCopy : Except Fault (State × Option (UInt32 × Nat)) := do
  if !c.env.copyData then return (s, some (brFailedReply, 0))
  else if !c.env.copyOffsets then return (s, some (brFailedReply, 0))
  else
    let s ← s.modifyBuffer b fun x => { x with data := c.tr.words }
    if c.tr.offsetsSize.toNat % 4 ≠ 0 then return (s, some (brFailedReply, 0))
    else s.translateObjects c target b 0 (c.tr.offsetsSize.toNat / 4)

/-! ## Success and failure -/

/-- A synchronous call goes on the stack of its sender. -/
def pushTransaction (th : ThreadId) (t : TransactionId) : Except Fault State := do
  let thread ← s.thread th
  let tx ← s.transaction t
  let s := s.setTransaction t { tx with needReply := true, fromParent := thread.transactionStack }
  return s.setThread th { thread with transactionStack := some t }

/-- A one-way call waits at its node while another one is on its way. -/
def acceptOneWay (n : NodeId) (t : TransactionId) (list : Queue) :
    Except Fault (State × Queue) := do
  let node ← s.node n
  let s := s.record (.accepted n t)
  if node.hasAsyncTransaction then return (s, .async n)
  else return (s.setNode n { node with hasAsyncTransaction := true }, list)

/-- The part of the last stage that depends on the kind of transaction; the
result is the list that the transaction goes to. -/
def commitKind (t : TransactionId) (x : BinderBuffer) : Except Fault (State × Queue) :=
  if c.reply then do
    bugOn .transaction x.asyncTransaction
    match target.inReplyTo with
    | some u =>
      let s ← s.binderPopTransaction target.thread u
      return (s, target.list)
    | none => .error .nullDeref
  else if !tfOneWay c.tr.flags then do
    bugOn .transaction x.asyncTransaction
    let s ← s.pushTransaction c.thread t
    return (s, target.list)
  else
    match target.node with
    | some n => do
      bugOn .transaction (!x.asyncTransaction)
      s.acceptOneWay n t target.list
    | none => .error (.bug .transaction)

/-- The last stage of a transaction that succeeds. -/
def transactionCommit (t : TransactionId) (b : BufferPtr) : Except Fault State := do
  let x ← s.buffer b
  let (s, list) ← s.commitKind c target t x
  let s ← s.listAddTail (.transaction t) list
  s.listAddTail (.transactionComplete t) (.thread c.thread)

/-- What is undone when the payload could not be translated. -/
def transactionUndo (t : TransactionId) (b : BufferPtr) (failedAt : Nat) : Except Fault State := do
  let s ← s.binderTransactionBufferRelease b (some failedAt)
  let s ← s.modifyBuffer b fun x => { x with transaction := none }
  let s ← s.freeBuf b c.env.page
  return s.freeTransaction t

/-- The common end of all failures. -/
def transactionFail (th : ThreadId) (e : TransactionError) : Except Fault State := do
  let thread ← s.thread th
  bugOn .transaction (thread.returnError != brOk)
  match e.inReplyTo with
  | some t =>
    let s := s.setThread th { thread with returnError := brTransactionComplete }
    s.binderSendFailedReply t e.returnError
  | none => return s.setThread th { thread with returnError := e.returnError }

/-- `binder_transaction`. -/
def binderTransaction : Except Fault State := do
  match ← s.transactionTarget c with
  | (s, .error e) => s.transactionFail c.thread e
  | (s, .ok target) =>
    match ← s.transactionAlloc c target with
    | (s, none) =>
      s.transactionFail c.thread { returnError := brFailedReply, inReplyTo := target.inReplyTo }
    | (s, some (t, b)) =>
      match ← s.transactionCopy c target b with
      | (s, none) => s.transactionCommit c target t b
      | (s, some (e, k)) =>
        let s ← s.transactionUndo c t b k
        s.transactionFail c.thread { returnError := e, inReplyTo := target.inReplyTo }

end State

end AndroidKernel.Binder
