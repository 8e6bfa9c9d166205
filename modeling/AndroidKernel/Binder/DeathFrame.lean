import AndroidKernel.Binder.DeathProtocol

/-!
# Death notifications: the rest of the driver

Transactions, buffers, loopers, threads that come and go: all of this leaves the
registrations alone, but that a thread that exits drops the work that is queued for
it. One lemma for each function.
-/

namespace AndroidKernel.Binder

open List

namespace State

variable {s : State} {r : RefId} {p : ProcId} {x : BinderBuffer} {b : BufferPtr} {kzalloc : Bool}
  {errorCode dataPtr : UInt32} {fuel ptr k pid : Nat} {env : PageEnv} {th : ThreadId}
  {thread : BinderThread} {tx : BinderTransaction} {ths : List ThreadId}

/-! ## Functions that delete references -/

theorem deleteRefIfUnused_kept : s.Keeps (s.deleteRefIfUnused r) := by
  refine ref_ensures.bind fun ref _ => ?_
  split
  · exact binderDeleteRef_kept
  · exact Kept.refl s

theorem binderDecRef_kept {strong : Bool} : s.Keeps (s.binderDecRef r strong) := by
  refine ref_ensures.bind fun ref href => ?_
  have hset (strong weak : Int) : Kept s (s.setRef r { ref with strong := strong, weak := weak }) :=
    Kept.setRef (Kept.refl s) href rfl rfl
  split
  · split
    · exact Kept.refl s
    · exact (hset _ _).keeps (Kept.bind decNodeLast_kept fun s' _ => deleteRefIfUnused_kept)
  · split
    · exact Kept.refl s
    · exact (hset _ _).keeps deleteRefIfUnused_kept

theorem releaseObject_kept {off : UInt32} : s.Keeps (s.releaseObject p x off) := by
  unfold releaseObject
  split
  · exact Kept.refl s
  dsimp only
  split
  case h_1 | h_2 =>
    refine binderGetNode_ensures.bind fun found _ => ?_
    split
    · exact binderDecNode_kept
    · exact Kept.refl s
  case h_3 | h_4 =>
    refine binderGetRef_ensures.bind fun found _ => ?_
    split
    · exact binderDecRef_kept
    · exact Kept.refl s
  case h_5 | h_6 => exact Kept.refl s

theorem releaseObjects_kept {offs : List UInt32} : s.Keeps (s.releaseObjects p x offs) := by
  induction offs generalizing s with
  | nil => exact Kept.refl s
  | cons off offs ih =>
    exact Kept.bind releaseObject_kept fun s' _ => ih

theorem binderTransactionBufferRelease_kept {failedAt : Option Nat} :
    s.Keeps (s.binderTransactionBufferRelease b failedAt) := by
  refine buffer_ensures.bind fun x _ => ?_
  exact Kept.bind releaseTargetNode_kept fun s' _ => releaseObjects_kept

theorem bcRef_kept {cmd : RefCommand} {target : UInt32} :
    s.Keeps (s.bcRef p cmd target kzalloc) := by
  refine refCommandTarget_kept.bind ?_
  rintro ⟨s₁, found⟩ h₁
  cases found with
  | none => exact h₁
  | some r =>
    cases cmd with
    | increfs | acquire => exact binderIncRef_kept.bind fun x h => h₁.trans h
    | release | decrefs => exact h₁.keeps binderDecRef_kept

theorem releaseRefs_kept {rs : List RefId} : s.Keeps (s.releaseRefs rs) := by
  induction rs generalizing s with
  | nil => exact Kept.refl s
  | cons r rs ih =>
    exact Kept.bind binderDeleteRef_kept fun s' _ => ih

/-! ## Transactions -/

theorem popStack_kept {target : Option ThreadId} : s.Keeps (s.popStack target t) := by
  unfold popStack
  split
  · refine thread_ensures.bind fun thread _ => ?_
    refine (bugOn_ensures (by decide)).bind fun _ _ => ?_
    refine transaction_ensures.bind fun tx _ => ?_
    refine (bugOn_ensures (by decide)).bind fun _ _ => ?_
    exact Kept.trans Kept.setThread Kept.setTransaction
  · exact Kept.refl s

section

variable (hinv : s.AreasInv)

include hinv

theorem detachBuffer_kept {b : Option BufferPtr} : s.Keeps (s.detachBuffer b) := by
  unfold detachBuffer
  split
  · exact Kept.modifyBuffer hinv fun _ => ⟨rfl, rfl, fun _ => ⟨rfl, rfl, rfl⟩⟩
  · exact Kept.refl s

theorem binderPopTransaction_kept {target : Option ThreadId} :
    s.Keeps (s.binderPopTransaction target t) := by
  refine Kept.bind popStack_kept fun s₁ h₁ => ?_
  refine transaction_ensures.bind fun tx _ => ?_
  exact Kept.bind (detachBuffer_kept (h₁.areas hinv)) fun s₂ _ => Kept.freeTransaction

theorem failReplyTo_kept {target : ThreadId} : s.Keeps (s.failReplyTo target t errorCode) := by
  refine thread_ensures.bind fun thread _ => ?_
  have hshift : Kept s (s.setThread target (shiftReturnError thread)) := Kept.setThread
  dsimp only
  split
  · refine hshift.keeps (Kept.bind (binderPopTransaction_kept (hshift.areas hinv)) fun s₁ _ => ?_)
    exact thread_ensures.bind fun thread' _ => Kept.setThread
  · exact hshift

theorem sendFailedReplyLoop_kept : s.Keeps (sendFailedReplyLoop errorCode fuel s t) := by
  induction fuel generalizing s t with
  | zero => exact (by decide : Fault.NotDeath (.endless .sendFailedReply))
  | succ fuel ih =>
    refine transaction_ensures.bind fun tx _ => ?_
    split
    · exact failReplyTo_kept hinv
    · refine Kept.bind (binderPopTransaction_kept hinv) fun s₁ h₁ => ?_
      split
      · exact Kept.refl s₁
      · exact ih (h₁.areas hinv)

theorem binderSendFailedReply_kept : s.Keeps (s.binderSendFailedReply t errorCode) := by
  refine transaction_ensures.bind fun tx _ => ?_
  refine (bugOn_ensures (by decide)).bind fun _ _ => ?_
  exact sendFailedReplyLoop_kept hinv

theorem freeBuf_kept : s.Keeps (s.freeBuf b env) := by
  refine area_ensures.bind fun a ha => ?_
  refine (binderFreeBuf_ensures (hinv _ a ha)).bind fun a' hinv' => ?_
  exact Kept.onlyAreas rfl (hinv.setArea hinv')

end

theorem replyTarget_kept : s.KeepsFst (s.replyTarget th) := by
  refine thread_ensures.bind fun thread _ => ?_
  split
  · exact Kept.refl s
  refine transaction_ensures.bind fun tx _ => ?_
  split
  · exact Kept.refl s
  · split
    · exact Kept.setThread
    · refine thread_ensures.bind fun target _ => ?_
      split <;> exact Kept.setThread

theorem searchTargetThread_ensures {target : ProcId} {t : Option TransactionId}
    {found : Option ThreadId} :
    Ensures (s.searchTargetThread target fuel t found) Fault.NotDeath fun _ => True := by
  induction fuel generalizing t found with
  | zero =>
    cases t with
    | none => trivial
    | some t => exact (by decide : Fault.NotDeath (.endless .transaction))
  | succ fuel ih =>
    cases t with
    | none => trivial
    | some t =>
      refine transaction_ensures.bind fun tx _ => ?_
      split
      · exact thread_ensures.bind fun thread _ => ih
      · exact ih

theorem callTarget_ensures : Ensures (s.callTarget c) Fault.NotDeath fun _ => True := by
  have hnode : Ensures (s.callTargetNode c.proc c.tr.handle) Fault.NotDeath fun _ => True := by
    unfold callTargetNode
    split
    · refine binderGetRef_ensures.bind fun found _ => ?_
      split
      · trivial
      · exact ref_ensures.bind fun ref _ => Ensures.pure_iff.mpr trivial
    · split <;> trivial
  have hthread : ∀ p, Ensures (s.callTargetThread c.thread (tfOneWay c.tr.flags) p)
      Fault.NotDeath fun _ => True := by
    intro p
    refine thread_ensures.bind fun thread _ => ?_
    split
    · refine transaction_ensures.bind fun tx _ => ?_
      split
      · trivial
      · exact searchTargetThread_ensures.bind fun _ _ => Ensures.pure_iff.mpr trivial
    · trivial
  refine Ensures.bind hnode fun target _ => ?_
  split
  · trivial
  · refine node_ensures.bind fun node _ => ?_
    split
    · trivial
    · refine (hthread _).bind fun found _ => ?_
      split <;> trivial

theorem transactionTarget_kept : s.KeepsFst (s.transactionTarget c) := by
  unfold transactionTarget
  split
  · exact replyTarget_kept
  · exact callTarget_ensures.bind fun target _ => Kept.refl s

theorem transactionAlloc_kept (hinv : s.AreasInv) : s.KeepsFst (s.transactionAlloc c target) := by
  unfold transactionAlloc
  split
  · exact Kept.refl s
  split
  · exact Kept.trans Kept.newTransaction Kept.freeTransaction
  refine proc_ensures.bind fun proc _ => ?_
  have hnew : Kept s s.newTransaction := Kept.newTransaction
  refine (allocBuf_ensures (hnew.areas hinv)).bind ?_
  rintro ⟨s₁, addr⟩ ⟨hinv', honly⟩
  have h₁ := hnew.trans (Kept.onlyAreas honly hinv')
  cases addr with
  | none => exact h₁.trans Kept.freeTransaction
  | some addr =>
    have hset {t tx} : Kept s (s₁.setTransaction t tx) := h₁.trans Kept.setTransaction
    refine Ensures.bind (Kept.modifyBuffer (hset.areas hinv)
      fun _ => ⟨rfl, rfl, fun _ => ⟨rfl, rfl, rfl⟩⟩) fun s₂ h₂ => ?_
    refine holdTargetNode_kept.bind fun s₃ h₃ => ?_
    exact (hset.trans h₂).trans h₃

theorem pushTransaction_kept : s.Keeps (s.pushTransaction th t) := by
  refine thread_ensures.bind fun thread _ => ?_
  refine transaction_ensures.bind fun tx _ => ?_
  exact Kept.trans Kept.setTransaction Kept.setThread

theorem acceptOneWay_kept {n : NodeId} {list : Queue} : s.KeepsFst (s.acceptOneWay n t list) := by
  refine node_ensures.bind fun node hnode => ?_
  have hrecord : Kept s (s.record (.accepted n t)) := Kept.record fun _ => rfl
  split
  · exact hrecord
  · exact hrecord.trans (Kept.setNode hnode rfl (Sublist.refl _))

section

variable (hinv : s.AreasInv) (c : TransactionCall) (target : TransactionTarget) (t : TransactionId)

include hinv

theorem commitKind_kept : s.KeepsFst (s.commitKind c target t x) := by
  unfold commitKind
  split
  · refine (bugOn_ensures (by decide)).bind fun _ _ => ?_
    split
    · exact (binderPopTransaction_kept hinv).bind fun s₁ h₁ => h₁
    · exact (by decide : Fault.NotDeath .nullDeref)
  · split
    · refine (bugOn_ensures (by decide)).bind fun _ _ => ?_
      exact pushTransaction_kept.bind fun s₁ h₁ => h₁
    · split
      · refine (bugOn_ensures (by decide)).bind fun _ _ => ?_
        exact acceptOneWay_kept
      · exact (by decide : Fault.NotDeath (.bug .transaction))

theorem transactionCommit_kept : s.Keeps (s.transactionCommit c target t b) := by
  refine buffer_ensures.bind fun x _ => ?_
  refine (commitKind_kept hinv c target t).bind ?_
  rintro ⟨s₁, list⟩ h₁
  exact h₁.keeps (Kept.bind (Kept.listAddTail nofun) fun s₂ _ => Kept.listAddTail nofun)

end

theorem bufferLookup_ensures : Ensures (s.bufferLookup p dataPtr) Fault.NotDeath fun _ => True := by
  refine proc_ensures.bind fun proc _ => ?_
  split
  · trivial
  · refine lookupIn_ensures.bind fun found _ => ?_
    split <;> trivial

theorem nextOneWay_kept : s.Keeps (s.nextOneWay th x) := by
  unfold nextOneWay
  split
  next n _ _ =>
    refine node_ensures.bind fun node hnode => ?_
    refine (bugOn_ensures (by decide)).bind fun _ _ => ?_
    split
    · exact Kept.setNode hnode rfl (Sublist.refl _)
    next w ws htodo =>
      refine Kept.requeue ⟨.async n, (s.works.mem_items _ w).mp ?_, rfl⟩
      rw [show s.works.items (.async n) = w :: ws from htodo]
      exact mem_cons_self
  · exact Kept.refl s

section

variable (hinv : s.AreasInv)

include hinv

theorem transactionUndo_kept {failedAt : Nat} : s.Keeps (s.transactionUndo c t b failedAt) := by
  refine Kept.bind binderTransactionBufferRelease_kept fun s₁ h₁ => ?_
  have hinv := h₁.areas hinv
  refine Kept.bind (Kept.modifyBuffer hinv fun _ => ⟨rfl, rfl, fun _ => ⟨rfl, rfl, rfl⟩⟩)
    fun s₂ h₂ => ?_
  exact Kept.bind (freeBuf_kept (h₂.areas hinv)) fun s₃ _ => Kept.freeTransaction

theorem transactionFail_kept {e : TransactionError} : s.Keeps (s.transactionFail th e) := by
  refine thread_ensures.bind fun thread _ => ?_
  refine (bugOn_ensures (by decide)).bind fun _ _ => ?_
  split
  · have hset : Kept s (s.setThread th { thread with returnError := brTransactionComplete }) :=
      Kept.setThread
    exact hset.keeps (binderSendFailedReply_kept (hset.areas hinv))
  · exact Kept.setThread

theorem binderTransaction_kept : s.Keeps (s.binderTransaction c) := by
  refine transactionTarget_kept.bind ?_
  rintro ⟨s₁, target⟩ h₁
  cases target with
  | error e => exact h₁.keeps (transactionFail_kept (h₁.areas hinv))
  | ok target =>
    refine (transactionAlloc_kept (h₁.areas hinv)).bind ?_
    rintro ⟨s₂, found⟩ h₂
    have h₂ := h₁.trans h₂
    cases found with
    | none => exact h₂.keeps (transactionFail_kept (h₂.areas hinv))
    | some tb =>
      refine Ensures.bind
        (transactionCopy_kept (h₂.areas hinv)) ?_
      rintro ⟨s₃, e⟩ h₃
      have h₃ := h₂.trans h₃
      cases e with
      | none =>
        exact h₃.keeps (transactionCommit_kept (h₃.areas hinv) _ _ _)
      | some ek =>
        have hinv := h₃.areas hinv
        refine h₃.keeps (Kept.bind (transactionUndo_kept hinv) fun s₄ h₄ => ?_)
        exact transactionFail_kept (h₄.areas hinv)

/-! ## Commands -/

theorem detachTransaction_kept : s.Keeps (s.detachTransaction b x) := by
  unfold detachTransaction
  split
  next t _ =>
    refine transaction_ensures.bind fun tx _ => ?_
    have hset : Kept s (s.setTransaction t { tx with buffer := none }) := Kept.setTransaction
    refine hset.keeps (Kept.modifyBuffer (hset.areas hinv) ?_)
    exact fun _ => ⟨rfl, rfl, fun _ => ⟨rfl, rfl, rfl⟩⟩
  · exact Kept.refl s

theorem bcFreeBuffer_kept : s.Keeps (s.bcFreeBuffer p th dataPtr env) := by
  refine bufferLookup_ensures.bind fun found _ => ?_
  split
  · exact Kept.refl s
  · refine buffer_ensures.bind fun x _ => ?_
    split
    · exact Kept.refl s
    · refine Kept.bind (detachTransaction_kept hinv) fun s₁ h₁ => ?_
      refine Kept.bind nextOneWay_kept fun s₂ h₂ => ?_
      refine Kept.bind binderTransactionBufferRelease_kept fun s₃ h₃ => ?_
      exact freeBuf_kept (h₃.areas (h₂.areas (h₁.areas hinv)))

end

theorem bcRegisterLooper_kept : s.Keeps (s.bcRegisterLooper p th) := by
  refine thread_ensures.bind fun thread _ => ?_
  refine proc_ensures.bind fun proc hproc => ?_
  split
  · exact Kept.setThread
  · refine Kept.trans (Kept.setProc hproc ?_) Kept.setThread
    exact Sublist.refl _

/-! ## Reads -/

variable {c : ReadCall}

theorem readDone_kept : s.Keeps (s.readDone c) := by
  refine proc_ensures.bind fun proc hproc => ?_
  refine thread_ensures.bind fun thread _ => ?_
  split
  · refine Kept.trans (Kept.setProc hproc ?_) Kept.returnTo
    exact Sublist.refl _
  · exact Kept.refl s

theorem readErrors_kept : s.Keeps (s.readErrors c thread ptr k) := by
  unfold readErrors
  have hreturned (x : Return) : Kept s (s.returnTo c.thread x) := Kept.returnTo
  split
  · split
    · exact Kept.refl s
    split
    · exact (hreturned _).keeps readDone_kept
    · have hset (x : Return) (th : BinderThread) :
          Kept s ((s.returnTo c.thread x).setThread c.thread th) :=
        (hreturned x).trans Kept.setThread
      split
      · exact hset _ _
      · exact (((hset _ _).trans Kept.returnTo).trans Kept.setThread).keeps readDone_kept
  · split
    · exact Kept.refl s
    · exact ((hreturned _).trans Kept.setThread).keeps readDone_kept

theorem readRetry_kept : s.Keeps (s.readRetry c ptr k) := by
  refine thread_ensures.bind fun thread _ => ?_
  dsimp only
  split
  · exact readErrors_kept
  · split
    · refine proc_ensures.bind fun proc hproc => ?_
      exact Kept.trans Kept.setThread (Kept.setProc hproc (Sublist.refl _))
    · exact Kept.setThread

theorem readStart_kept {consumed : Nat} : s.Keeps (s.readStart c consumed) := by
  unfold readStart
  split
  · split
    · exact Kept.refl s
    · exact Kept.returnTo.keeps readRetry_kept
  · exact readRetry_kept

theorem returnData_ensures : Ensures (s.returnData p tx b x) Fault.NotDeath fun _ => True := by
  have htarget : Ensures (s.returnTarget x) Fault.NotDeath fun _ => True := by
    unfold returnTarget
    split
    · exact node_ensures.bind fun _ _ => trivial
    · trivial
  have hpid : Ensures (s.senderPid tx) Fault.NotDeath fun _ => True := by
    unfold senderPid
    split
    · refine thread_ensures.bind fun _ _ => ?_
      exact proc_ensures.bind fun _ _ => trivial
    · trivial
  refine Ensures.bind htarget fun _ _ => ?_
  refine Ensures.bind hpid fun _ _ => ?_
  exact proc_ensures.bind fun _ _ => trivial

theorem wakeThread_kept
    {waitForProcWork : Bool} : s.Keeps (s.wakeThread p th thread waitForProcWork) := by
  unfold wakeThread
  split
  · refine proc_ensures.bind fun proc hproc => ?_
    exact Kept.trans Kept.setThread (Kept.setProc hproc (Sublist.refl _))
  · exact Kept.setThread

theorem binderGetThread_kept : s.KeepsFst (s.binderGetThread p pid kzalloc) := by
  refine proc_ensures.bind fun proc hproc => ?_
  split
  · exact Kept.refl s
  · split
    · exact Kept.refl s
    · have hnew {x : BinderThread} : Kept s { s with threads := s.threads.alloc x } :=
        Calm.kept { Calm.refl s with }
      exact hnew.trans (Kept.setProc hproc (Sublist.refl _))

section

variable (hinv : s.AreasInv)

include hinv

theorem deliver_kept : s.Keeps (s.deliver th t tx b x) := by
  have hdel : Kept s (s.listDel (.transaction t)) := Kept.listDel nofun
  unfold deliver
  split
  · refine Ensures.bind (Kept.modifyBuffer (hdel.areas hinv)
      fun _ => ⟨rfl, rfl, fun _ => ⟨rfl, rfl, rfl⟩⟩) fun s₁ h₁ => ?_
    refine thread_ensures.bind fun thread _ => ?_
    exact ((hdel.trans h₁).trans Kept.setTransaction).trans Kept.setThread
  next n _ _ =>
    have hrecord := hdel.trans (Kept.record (e := .delivered n t) fun _ => rfl)
    refine Ensures.bind (Kept.modifyBuffer (hrecord.areas hinv)
      fun _ => ⟨rfl, rfl, fun _ => ⟨rfl, rfl, rfl⟩⟩) fun s₁ h₁ => ?_
    exact (hrecord.trans h₁).trans Kept.freeTransaction
  · refine Ensures.bind (Kept.modifyBuffer (hdel.areas hinv)
      fun _ => ⟨rfl, rfl, fun _ => ⟨rfl, rfl, rfl⟩⟩) fun s₁ h₁ => ?_
    exact (hdel.trans h₁).trans Kept.freeTransaction

theorem readTransaction_kept : s.KeepsFst (s.readTransaction c t k) := by
  refine transaction_ensures.bind fun tx _ => ?_
  split
  · exact (by decide : Fault.NotDeath (.bug .threadRead))
  · refine buffer_ensures.bind fun x _ => ?_
    refine returnData_ensures.bind fun r _ => ?_
    split
    · exact Kept.refl s
    · have hreturned : Kept s (s.returnTo c.thread r) := Kept.returnTo
      refine (deliver_kept (hreturned.areas hinv)).bind fun s₁ h₁ => ?_
      exact hreturned.trans h₁

/-! ## Threads -/

theorem releaseItem_kept {w : Work} : s.Keeps (s.releaseItem w) := by
  unfold releaseItem
  split
  · refine transaction_ensures.bind fun tx _ => ?_
    split
    · exact (by decide : Fault.NotDeath .nullDeref)
    · refine buffer_ensures.bind fun x _ => ?_
      split
      · exact binderSendFailedReply_kept hinv
      · exact Kept.refl s
  · exact Kept.refl s

theorem releaseItems_kept {ws : List Work} (hws : ∀ d, .death d ∈ ws → ¬ s.Delivered d) :
    s.Keeps (s.releaseItems ws) := by
  induction ws generalizing s with
  | nil => exact Kept.refl s
  | cons w ws ih =>
    have hdel : Kept s (s.listDel w) :=
      Kept.listDel fun d hd => hws d (hd ▸ mem_cons_self)
    refine (releaseItem_kept (hdel.areas hinv)).bind fun s₁ h₁ => ?_
    have h₁ := hdel.trans h₁
    refine h₁.keeps (ih (h₁.areas hinv) ?_)
    intro d hd hdelivered
    exact hws d (mem_cons_of_mem _ hd) (h₁.delivered d hdelivered)

theorem binderReleaseWork_kept {q : Queue} (hq : q.isDelivered = false) :
    s.Keeps (s.binderReleaseWork q) := by
  refine releaseItems_kept hinv ?_
  rintro d hd ⟨p, hp⟩
  cases ((s.works.mem_items _ _).mp hd).symm.trans hp
  cases hq

theorem unwindStack_kept {t : Option TransactionId} : s.Keeps (unwindStack th fuel s t) := by
  induction fuel generalizing s t with
  | zero =>
    cases t with
    | none => exact Kept.refl s
    | some t => exact (by decide : Fault.NotDeath (.endless .freeThread))
  | succ fuel ih =>
    cases t with
    | none => exact Kept.refl s
    | some t =>
      refine transaction_ensures.bind fun tx _ => ?_
      split
      · refine Kept.bind (Kept.bind (detachBuffer_kept hinv)
          fun s₁ _ => Kept.setTransaction) fun s₂ h₂ => ih (h₂.areas hinv)
      · split
        · have hset : Kept s (s.setTransaction t { tx with fromThread := none }) :=
            Kept.setTransaction
          exact hset.keeps (ih (hset.areas hinv))
        · exact (by decide : Fault.NotDeath (.bug .freeThread))

theorem binderFreeThread_kept : s.Keeps (s.binderFreeThread p th) := by
  have hreply {s : State} {thread : BinderThread} :
      Ensures (s.sendReply th thread) Fault.NotDeath fun _ => True := by
    unfold sendReply
    split
    · exact transaction_ensures.bind fun _ _ => trivial
    · trivial
  have hanswer {s : State} (hinv : s.AreasInv) (t : Option TransactionId) :
      s.Keeps (s.answerDead t) := by
    unfold answerDead
    split
    · exact binderSendFailedReply_kept hinv
    · exact Kept.refl s
  refine proc_ensures.bind fun proc hproc => ?_
  have h₁ : Kept s (s.setProc p { proc with threads := proc.threads.erase th }) :=
    Kept.setProc hproc (Sublist.refl _)
  refine thread_ensures.bind fun thread _ => ?_
  refine Ensures.bind hreply fun reply _ => ?_
  have hinv := h₁.areas hinv
  refine h₁.keeps (Kept.bind (unwindStack_kept hinv) fun s₂ h₂ => ?_)
  have hinv := h₂.areas hinv
  refine Kept.bind (hanswer hinv reply) fun s₃ h₃ => ?_
  refine Kept.bind (binderReleaseWork_kept (h₃.areas hinv) rfl) fun s₄ _ => ?_
  exact Calm.kept { Calm.refl s₄ with }

/-! ## Processes -/

theorem releaseThreads_kept : s.Keeps (s.releaseThreads p ths) := by
  induction ths generalizing s with
  | nil => exact Kept.refl s
  | cons th ths ih =>
    exact Kept.bind (binderFreeThread_kept hinv) fun s₁ h₁ => ih (h₁.areas hinv)

theorem releaseBuffers_kept {bs : List Nat} : s.Keeps (s.releaseBuffers p env bs) := by
  induction bs generalizing s with
  | nil => exact Kept.refl s
  | cons b bs ih =>
    have hone : s.Keeps (s.releaseBuffer ⟨p, b⟩ env) := by
      refine buffer_ensures.bind fun x _ => ?_
      exact Kept.bind (detachTransaction_kept hinv) fun s₁ h₁ =>
        freeBuf_kept (h₁.areas hinv)
    exact Kept.bind hone fun s₁ h₁ => ih (h₁.areas hinv)

end

theorem dropContextMgr_kept : s.Keeps (s.dropContextMgr p) := by
  unfold dropContextMgr
  split
  · refine node_ensures.bind fun node _ => ?_
    split
    · exact Calm.kept { Calm.refl s with }
    · exact Kept.refl s
  · exact Kept.refl s

/-- The process itself goes. -/
theorem freeProc_kept : Kept s { s with
      procs := s.procs.free p
      areas := fun q => if q = p then none else s.areas q } := by
  refine Calm.kept { Calm.refl s with linked := fun hl => hl.restrictProcs ?_, areas := ?_ }
  · intro q proc hq
    exact .inl ⟨proc, (Heap.get_free_eq_some.mp hq).2, Sublist.refl _⟩
  · intro hinv q a hq
    dsimp only at hq
    split at hq
    · cases hq
    · exact hinv q a hq

theorem binderDeferredFlush_kept : s.Keeps (s.binderDeferredFlush ths) := by
  induction ths generalizing s with
  | nil => exact Kept.refl s
  | cons th ths ih =>
    have hone : Ensures (s.flushThread th) Fault.NotDeath (Kept s) :=
      thread_ensures.bind fun _ _ => Kept.setThread
    exact Kept.bind hone fun s₁ _ => ih

theorem binderDeferWork_kept {defer : DeferredWork → DeferredWork} :
    s.Keeps (s.binderDeferWork p defer) := by
  refine proc_ensures.bind fun proc hproc => ?_
  have hset : Kept s (s.setProc p { proc with deferredWork := defer proc.deferredWork }) :=
    Kept.setProc hproc (Sublist.refl _)
  exact hset.trans (Calm.kept { Calm.refl _ with })

/-! ## File operations -/

theorem endIoctl_kept : s.Keeps (s.endIoctl th) := by
  refine thread_ensures.bind fun thread _ => ?_
  split
  · exact Kept.refl s
  · exact Kept.setThread

theorem binderPoll_kept {env : Env} : s.Keeps (s.binderPoll p pid env) := by
  refine binderGetThread_kept.bind ?_
  rintro ⟨s₁, th⟩ h₁
  cases th with
  | none => exact (by decide : Fault.NotDeath .nullDeref)
  | some th => exact h₁

theorem setArea_kept {p : ProcId} {a : BufferArea} (ha : a.Inv) : Kept s (s.setArea p a) :=
  Calm.kept { Calm.refl s with areas := fun hinv => hinv.setArea ha }

theorem mmapArea_kept {r : MmapRequest} (hpages : 0 < r.pageCount) : s.Keeps (s.mmapArea p r) := by
  refine proc_ensures.bind fun proc hproc => ?_
  rcases binderMmap_spec (r := { r with mapped := (s.areas p).isSome }) hpages with
    ⟨e, he⟩ | ⟨a, ha, -, hinv, -⟩
  · rw [he]
    exact Kept.refl s
  · rw [ha]
    refine Kept.trans (setArea_kept hinv) (Kept.setProc hproc ?_)
    exact Sublist.refl _

theorem binderVmaClose_kept (hinv : s.AreasInv) : s.Keeps (s.binderVmaClose p) := by
  refine area_ensures.bind fun a ha => ?_
  have hstep : a.step .vmaClose = .ok { a with vma := false } := rfl
  have hset : Kept s (s.setArea p { a with vma := false }) :=
    setArea_kept (Inv.step (hinv p a ha) hstep)
  exact hset.keeps binderDeferWork_kept

theorem binderOpen_kept {euid : Nat} : Kept s (s.binderOpen pid euid kzalloc) := by
  unfold binderOpen
  split
  · refine Calm.kept { Calm.refl s with linked := fun hl => hl.restrictProcs ?_ }
    exact Heap.forall_get_alloc (.inr rfl) fun _ proc hp => .inl ⟨proc, hp, Sublist.refl _⟩
  · exact Kept.refl s

theorem binderRelease_kept : s.Keeps (s.binderRelease p) := by
  refine Kept.bind binderDeferWork_kept fun s₁ _ => ?_
  refine proc_ensures.bind fun proc hproc => ?_
  exact Kept.setProc hproc (Sublist.refl _)

end State

end AndroidKernel.Binder
