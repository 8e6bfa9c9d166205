import AndroidKernel.Binder.Deaths

/-!
# Functions that count references

The functions on nodes and references, and the translation of objects, leave the
registrations alone: they are put together from a few assignments that do.
-/

namespace AndroidKernel.Binder

open List

theorem insertBefore_perm {α : Type} {after : α → Bool} {x : α} {l : List α} :
    (insertBefore after x l).Perm (x :: l) := by
  induction l with
  | nil => exact Perm.refl _
  | cons y l ih =>
    unfold insertBefore
    split
    · exact Perm.refl _
    · exact (ih.cons y).trans (Perm.swap x y l)

namespace State

variable {s : State} {p : ProcId} {ptr desc cookie off : UInt32} {target : TransactionTarget}
  {kzalloc strong internal : Bool} {n : NodeId} {node : BinderNode} {r : RefId} {ref : BinderRef}
  {c : TransactionCall} {k : Nat} {fp : FlatBinderObject} {b : BufferPtr}

theorem binderGetNode_ensures {E : Fault → Prop} [Fault.Pointers E] :
    Ensures (s.binderGetNode p ptr) E fun _ => True := by
  exact proc_ensures.bind fun _ _ => Ensures.pure_iff.mpr trivial

theorem binderGetRef_ensures {E : Fault → Prop} [Fault.Pointers E] :
    Ensures (s.binderGetRef p desc) E fun _ => True := by
  exact proc_ensures.bind fun _ _ => Ensures.pure_iff.mpr trivial

theorem firstUnusedDesc_ensures {l : List RefId} :
    Ensures (s.firstUnusedDesc desc l) Fault.NotDeath fun _ => True := by
  induction l generalizing desc with
  | nil => trivial
  | cons r rs ih =>
    refine ref_ensures.bind fun ref _ => ?_
    split
    · trivial
    · exact ih

theorem acceptsFds_ensures : Ensures (s.acceptsFds target) Fault.NotDeath fun _ => True := by
  unfold acceptsFds
  split
  · exact transaction_ensures.bind fun _ _ => Ensures.pure_iff.mpr trivial
  · exact node_ensures.bind fun _ _ => Ensures.pure_iff.mpr trivial
  · exact (by decide : Fault.NotDeath .nullDeref)

/-! ## Nodes and references -/

theorem binderNewNode_kept : s.KeepsFst (s.binderNewNode p ptr cookie kzalloc) := by
  refine proc_ensures.bind fun proc hproc => ?_
  refine binderGetNode_ensures.bind fun found _ => ?_
  split
  · exact Kept.refl s
  · split
    · exact Kept.refl s
    · exact Kept.addNode hproc (insertBefore_perm)

/-- The list that a node is queued on is chosen after its count has changed. -/
theorem queueNode_kept {s₁ : State} {node : BinderNode} {target : Option Queue} (h₁ : Kept s s₁) :
    Ensures (if !node.hasWeakRef && s₁.unlinked (.node n) then
        match target with
        | none => pure (s₁, false)
        | some q => do
          let s₂ ← s₁.listAddTail (.node n) q
          return (s₂, true)
      else pure (s₁, true)) Fault.NotDeath fun r => Kept s r.1 := by
  split
  · cases target with
    | none => exact h₁
    | some q => exact Ensures.bind (Kept.listAddTail (by simp)) fun s₂ h => h₁.trans h
  · exact h₁

theorem binderIncNode_kept {target : Option Queue} :
    s.KeepsFst (s.binderIncNode n strong internal target) := by
  refine node_ensures.bind fun node hnode => ?_
  split
  · split
    · exact Kept.refl s
    have hset : Kept s (s.setNode n (if internal then
        { node with internalStrongRefs := intInc node.internalStrongRefs }
      else { node with localStrongRefs := intInc node.localStrongRefs })) := by
      cases internal
      · exact Kept.setCounts hnode rfl rfl
      · exact Kept.setCounts hnode rfl rfl
    cases target with
    | none => exact hset
    | some q =>
      dsimp only
      split
      · refine Ensures.bind (Kept.listAddTail (by simp)) fun s' h => ?_
        exact (hset.trans Kept.listDelNode).trans h
      · exact hset
  · cases internal
    · exact queueNode_kept (Kept.setCounts hnode rfl rfl)
    · exact queueNode_kept (Kept.refl s)

theorem unlinkNode_kept : s.Keeps (s.unlinkNode n node) := by
  unfold unlinkNode
  split
  · refine proc_ensures.bind fun proc hproc => ?_
    exact Kept.setProc hproc erase_sublist
  · exact Calm.kept { Calm.refl s with }

theorem binderDecNode_kept : s.Keeps (s.binderDecNode n strong internal) := by
  refine node_ensures.bind fun node hnode => ?_
  have hset : Kept s (s.setNode n (node.decremented strong internal)) := by
    refine Kept.setCounts hnode ?_ ?_ <;> cases strong <;> cases internal <;> rfl
  dsimp only
  split
  · exact hset
  split
  · split
    · exact hset.keeps (Kept.listAddTail nofun)
    · exact hset
  · split
    · refine unlinkNode_kept.bind fun s' h => ?_
      exact ((hset.trans Kept.listDelNode).trans h).trans Kept.freeNode
    · exact hset

theorem binderGetRefForNode_kept : s.KeepsFst (s.binderGetRefForNode p n kzalloc) := by
  refine proc_ensures.bind fun proc hproc => ?_
  split
  · exact Kept.refl s
  · split
    · exact Kept.refl s
    · refine firstUnusedDesc_ensures.bind fun desc _ => ?_
      refine (bugOn_ensures (by decide)).bind fun _ _ => ?_
      refine node_ensures.bind fun node hnode => ?_
      exact Kept.addRef hproc hnode

theorem eraseRef_kept : s.Keeps (s.eraseRef r ref) := by
  refine proc_ensures.bind fun proc hproc => ?_
  exact Kept.setProc hproc (Sublist.refl _)

theorem dropRefStrong_kept : s.Keeps (s.dropRefStrong ref) := by
  unfold dropRefStrong
  split
  · exact binderDecNode_kept
  · exact Kept.refl s

theorem hlistDelRef_kept : s.Keeps (s.hlistDelRef r ref) := by
  refine node_ensures.bind fun node hnode => ?_
  exact Kept.setNode hnode rfl erase_sublist

theorem incNodeFirst_kept {count : Int} {target : Option Queue} :
    s.KeepsFst (s.incNodeFirst ref count strong target) := by
  unfold incNodeFirst
  split
  · exact binderIncNode_kept
  · exact Kept.refl s

theorem binderIncRef_kept {target : Option Queue} :
    s.KeepsFst (s.binderIncRef r strong target) := by
  refine ref_ensures.bind fun ref href => ?_
  split
  all_goals
    refine incNodeFirst_kept.bind ?_
    rintro ⟨s', ok⟩ h
    cases ok with
    | true => exact h.setRef href rfl rfl
    | false => exact h

theorem decNodeLast_kept {strong : Int} : s.Keeps (s.decNodeLast ref strong) := by
  unfold decNodeLast
  split
  · exact binderDecNode_kept
  · exact Kept.refl s

/-! ## The objects of a buffer -/

theorem releaseTargetNode_kept {x : BinderBuffer} : s.Keeps (s.releaseTargetNode x) := by
  unfold releaseTargetNode
  split
  · exact binderDecNode_kept
  · exact Kept.refl s

theorem holdTargetNode_kept {n : Option NodeId} : s.Keeps (s.holdTargetNode n) := by
  unfold holdTargetNode
  split
  · exact binderIncNode_kept.bind fun r h => h
  · exact Kept.refl s

theorem senderNode_kept : s.KeepsFst (s.senderNode c k fp) := by
  refine binderGetNode_ensures.bind fun found _ => ?_
  split
  · exact Kept.refl s
  · refine binderNewNode_kept.bind ?_
    rintro ⟨s', found⟩ h
    cases found with
    | none => exact h
    | some n =>
      refine node_ensures.bind fun node hnode => ?_
      exact h.trans (Kept.setCounts hnode rfl rfl)

section

variable (hinv : s.AreasInv)

include hinv

/-- An object is written into the buffer. -/
theorem setObject_kept :
    Ensures (s.modifyBuffer b fun x => x.setObject off fp) Fault.NotDeath (Kept s) :=
  Kept.modifyBuffer hinv fun _ => ⟨rfl, rfl, fun _ => ⟨rfl, rfl, rfl⟩⟩

theorem translateBinder_kept : s.KeepsFst (s.translateBinder c target b k off fp strong) := by
  refine senderNode_kept.bind ?_
  rintro ⟨s₁, found⟩ h₁
  cases found with
  | none => exact h₁
  | some n =>
    refine node_ensures.bind fun node hnode => ?_
    split
    · exact h₁
    refine binderGetRefForNode_kept.bind ?_
    rintro ⟨s₂, found⟩ h₂
    cases found with
    | none => exact h₁.trans h₂
    | some r =>
      have h₁₂ := h₁.trans h₂
      refine ref_ensures.bind fun ref _ => ?_
      refine (setObject_kept (h₁₂.areas hinv)).bind fun s₃ h₃ => ?_
      refine binderIncRef_kept.bind fun x h₄ => ?_
      exact (h₁₂.trans h₃).trans h₄

theorem translateHandle_kept : s.KeepsFst (s.translateHandle c target b k off fp strong) := by
  refine binderGetRef_ensures.bind fun found _ => ?_
  split
  · exact Kept.refl s
  refine ref_ensures.bind fun ref _ => ?_
  refine node_ensures.bind fun node _ => ?_
  split
  · refine (setObject_kept hinv).bind fun s₁ h₁ => ?_
    refine binderIncNode_kept.bind fun x h₂ => ?_
    exact h₁.trans h₂
  · refine binderGetRefForNode_kept.bind ?_
    rintro ⟨s₁, found⟩ h₁
    cases found with
    | none => exact h₁
    | some r =>
      refine ref_ensures.bind fun ref _ => ?_
      refine (setObject_kept (h₁.areas hinv)).bind fun s₂ h₂ => ?_
      refine binderIncRef_kept.bind fun x h₃ => ?_
      exact (h₁.trans h₂).trans h₃

theorem translateObject_kept : s.KeepsFst (s.translateObject c target b k) := by
  refine buffer_ensures.bind fun x _ => ?_
  dsimp only
  split
  · exact Kept.refl s
  split
  · exact translateBinder_kept hinv
  · exact translateBinder_kept hinv
  · exact translateHandle_kept hinv
  · exact translateHandle_kept hinv
  · refine acceptsFds_ensures.bind fun accepts _ => ?_
    split
    · exact Kept.refl s
    · split
      · exact Kept.refl s
      · split
        · exact Kept.refl s
        · exact (setObject_kept hinv).bind fun s₁ h₁ => h₁
  · exact Kept.refl s

theorem translateObjects_kept {n : Nat} : s.KeepsFst (s.translateObjects c target b k n) := by
  induction n generalizing s k with
  | zero => exact Kept.refl s
  | succ n ih =>
    refine (translateObject_kept hinv).bind ?_
    rintro ⟨s', e⟩ h
    cases e with
    | some e => exact h
    | none => exact h.keepsFst (ih (h.areas hinv))

theorem transactionCopy_kept : s.KeepsFst (s.transactionCopy c target b) := by
  unfold transactionCopy
  split
  · exact Kept.refl s
  · split
    · exact Kept.refl s
    · refine Ensures.bind (Kept.modifyBuffer hinv fun _ => ⟨rfl, rfl, fun _ => ⟨rfl, rfl, rfl⟩⟩)
        fun s₁ h₁ => ?_
      split
      · exact h₁
      · exact h₁.keepsFst (translateObjects_kept (h₁.areas hinv))

end

/-! ## Commands, reads and the context manager -/

theorem refCommandTarget_kept {cmd : RefCommand} {target : UInt32} :
    s.KeepsFst (s.refCommandTarget p cmd target kzalloc) := by
  unfold refCommandTarget
  split
  · refine binderGetRefForNode_kept.bind ?_
    rintro ⟨s', found⟩ h
    cases found with
    | none => exact (by decide : Fault.NotDeath .nullDeref)
    | some r => exact h
  · exact binderGetRef_ensures.bind fun r _ => Kept.refl s

theorem bcDone_kept : s.Keeps (s.bcAcquireDone p ptr cookie) ∧
    s.Keeps (s.bcIncrefsDone p ptr cookie) := by
  constructor
  all_goals
    refine binderGetNode_ensures.bind fun found _ => ?_
    split
    · exact Kept.refl s
    · refine node_ensures.bind fun node hnode => ?_
      split
      · exact Kept.refl s
      · split
        · exact Kept.refl s
        · exact (Kept.setCounts hnode (by rfl) (by rfl)).keeps binderDecNode_kept

theorem readNodeDone_kept : s.Keeps (s.readNodeDone p n node) := by
  unfold readNodeDone
  split
  · refine proc_ensures.bind fun proc hproc => ?_
    have herase : Kept (s.listDel (.node n))
        ((s.listDel (.node n)).setProc p { proc with nodes := proc.nodes.erase n }) :=
      Kept.setProc hproc erase_sublist
    exact (Kept.listDelNode.trans herase).trans Kept.freeNode
  · exact Kept.listDelNode

theorem readNode_kept {c : ReadCall} {ptr : Nat} : s.KeepsFst (s.readNode c n ptr k) := by
  refine node_ensures.bind fun node hnode => ?_
  split
  next cmd node' hcmd =>
    have hset : Kept s (s.setNode n node') := by
      refine Kept.setCounts hnode ?_ ?_ <;>
        (simp only [nodeCommand] at hcmd; grind)
    split
    · exact hset
    · exact hset.trans Kept.returnTo
  · exact readNodeDone_kept.bind fun s' h => h

theorem newContextMgr_kept : s.Keeps (s.newContextMgr p kzalloc) := by
  refine binderNewNode_kept.bind ?_
  rintro ⟨s₁, found⟩ h₁
  cases found with
  | none => exact h₁
  | some n =>
    refine node_ensures.bind fun node hnode => ?_
    refine (h₁.trans (Kept.setCounts hnode ?_ ?_)).trans (Calm.kept { Calm.refl _ with })
    all_goals rfl

theorem setContextManager_kept {euid : Nat} : s.Keeps (s.setContextMgr p euid kzalloc) := by
  unfold setContextMgr
  split
  · exact Kept.refl s
  · split
    · split
      · exact Kept.refl s
      · exact newContextMgr_kept
    · have huid : Kept s { s with contextMgrUid := some euid } := Calm.kept { Calm.refl s with }
      exact huid.keeps newContextMgr_kept

end State

end AndroidKernel.Binder
