import AndroidKernel.Binder.State

/-!
# Nodes and references (`binder.c`, lines 909–1212)

A node stands for an object that a process offers, a reference for another
process's handle on it. The functions follow the source; where one returns an
`int` error code that its callers look at, the model returns whether it was 0.
-/

namespace AndroidKernel.Binder

/-- `x` goes before the first item of an ordered list that satisfies `after`. -/
def insertBefore {α : Type} (after : α → Bool) (x : α) : List α → List α
  | [] => [x]
  | y :: l => if after y then x :: y :: l else y :: insertBefore after x l

/-- What `binder_dec_node` subtracts. -/
def BinderNode.decremented (node : BinderNode) (strong internal : Bool) : BinderNode :=
  if strong then
    if internal then { node with internalStrongRefs := intDec node.internalStrongRefs }
    else { node with localStrongRefs := intDec node.localStrongRefs }
  else if !internal then { node with localWeakRefs := intDec node.localWeakRefs }
  else node

/-- `binder_dec_node` returns early while other references of the same kind are
left. -/
def BinderNode.stillReferenced (node : BinderNode) (strong : Bool) : Bool :=
  if strong then node.localStrongRefs != 0 || node.internalStrongRefs != 0
  else node.localWeakRefs != 0 || !node.refs.isEmpty

namespace State

variable (s : State) (r : RefId) (ref : BinderRef)

/-- `binder_get_node`. -/
def binderGetNode (p : ProcId) (ptr : UInt32) : Except Fault (Option NodeId) := do
  let proc ← s.proc p
  return proc.nodes.find? fun n => (s.nodes.get n).any fun node => node.ptr == ptr

/-- `binder_new_node`. -/
def binderNewNode (p : ProcId) (ptr cookie : UInt32) (kzalloc : Bool) :
    Except Fault (State × Option NodeId) := do
  let proc ← s.proc p
  if (← s.binderGetNode p ptr).isSome then return (s, none)
  else if !kzalloc then return (s, none)
  else
    let n := s.nodes.next
    let nodes := insertBefore
      (fun m => (s.nodes.get m).any fun node => decide (ptr < node.ptr)) n proc.nodes
    let s := { s with nodes := s.nodes.alloc { proc := some p, ptr := ptr, cookie := cookie } }
    return (s.setProc p { proc with nodes := nodes }, some n)

/-- `binder_inc_node`; `target` is `target_list`. -/
def binderIncNode (n : NodeId) (strong internal : Bool) (target : Option Queue) :
    Except Fault (State × Bool) := do
  let node ← s.node n
  if strong then
    if internal && target.isNone && node.internalStrongRefs == 0 &&
        !(s.contextMgrNode == some n && node.hasStrongRef) then
      return (s, false)
    else
      let s := s.setNode n (if internal then
          { node with internalStrongRefs := intInc node.internalStrongRefs }
        else { node with localStrongRefs := intInc node.localStrongRefs })
      match target with
      | some q =>
        if !node.hasStrongRef then
          let s ← (s.listDel (.node n)).listAddTail (.node n) q
          return (s, true)
        else return (s, true)
      | none => return (s, true)
  else
    let s := if !internal then
        s.setNode n { node with localWeakRefs := intInc node.localWeakRefs }
      else s
    if !node.hasWeakRef && s.unlinked (.node n) then
      match target with
      | none => return (s, false)
      | some q =>
        let s ← s.listAddTail (.node n) q
        return (s, true)
    else return (s, true)

/-- The node goes out of the tree of its process, or out of the list of dead
nodes. -/
def unlinkNode (n : NodeId) (node : BinderNode) : Except Fault State :=
  match node.proc with
  | some p => do
    let proc ← s.proc p
    return s.setProc p { proc with nodes := proc.nodes.erase n }
  | none => return { s with deadNodes := s.deadNodes.erase n }

/-- `binder_dec_node`. -/
def binderDecNode (n : NodeId) (strong internal : Bool) : Except Fault State := do
  let node ← s.node n
  let node := node.decremented strong internal
  let s := s.setNode n node
  if node.stillReferenced strong then return s
  else
    match node.proc, node.hasStrongRef || node.hasWeakRef with
    | some p, true =>
      if s.unlinked (.node n) then s.listAddTail (.node n) (.proc p) else return s
    | _, _ =>
      if node.refs.isEmpty && node.localStrongRefs == 0 && node.localWeakRefs == 0 then
        let s ← (s.listDel (.node n)).unlinkNode n node
        return s.freeNode n node
      else return s

/-- `binder_get_ref`. -/
def binderGetRef (p : ProcId) (desc : UInt32) : Except Fault (Option RefId) := do
  let proc ← s.proc p
  return proc.refsByDesc.find? fun r => (s.refs.get r).any fun ref => ref.desc == desc

/-- The loop of `binder_get_ref_for_node` over `refs_by_desc` that looks for the
first gap from `desc` on. -/
def firstUnusedDesc (s : State) (desc : UInt32) : List RefId → Except Fault UInt32
  | [] => .ok desc
  | r :: rs => do
    let ref ← s.ref r
    if ref.desc > desc then return desc
    else s.firstUnusedDesc (ref.desc + 1) rs

/-- `binder_get_ref_for_node`. -/
def binderGetRefForNode (p : ProcId) (n : NodeId) (kzalloc : Bool) :
    Except Fault (State × Option RefId) := do
  let proc ← s.proc p
  match proc.refsByNode.find? fun r => (s.refs.get r).any fun ref => ref.node == n with
  | some r => return (s, some r)
  | none =>
    if !kzalloc then return (s, none)
    else
      let desc ← s.firstUnusedDesc (if s.contextMgrNode = some n then 0 else 1) proc.refsByDesc
      bugOn .getRefForNode (proc.refsByDesc.any fun r =>
        (s.refs.get r).any fun ref => ref.desc == desc)
      let node ← s.node n
      let r := s.refs.next
      let refsByDesc := insertBefore
        (fun q => (s.refs.get q).any fun ref => decide (desc < ref.desc)) r proc.refsByDesc
      let s := { s with refs := s.refs.alloc { proc := p, node := n, desc := desc } }
      let s := s.setProc p { proc with
        refsByDesc := refsByDesc
        refsByNode := r :: proc.refsByNode }
      return (s.setNode n { node with refs := r :: node.refs }, some r)

/-- `binder_delete_ref` takes its death notification along. -/
def deleteRefDeath : Except Fault State :=
  match ref.death with
  | some d => do
    let _ ← s.death d
    let s := s.listDel (.death d)
    return { s with deaths := s.deaths.free d }
  | none => return s

/-- `binder_delete_ref` takes the reference out of the two trees. -/
def eraseRef : Except Fault State := do
  let proc ← s.proc ref.proc
  return s.setProc ref.proc { proc with
    refsByDesc := proc.refsByDesc.erase r
    refsByNode := proc.refsByNode.erase r }

/-- `binder_delete_ref` gives the reference's strong count back. -/
def dropRefStrong : Except Fault State :=
  if ref.strong ≠ 0 then s.binderDecNode ref.node true true else .ok s

/-- `hlist_del(&ref->node_entry)`. -/
def hlistDelRef : Except Fault State := do
  let node ← s.node ref.node
  return s.setNode ref.node { node with refs := node.refs.erase r }

/-- `binder_delete_ref`. -/
def binderDeleteRef : Except Fault State := do
  let ref ← s.ref r
  let s ← s.eraseRef r ref
  let s ← s.dropRefStrong ref
  let s ← s.hlistDelRef r ref
  let s ← s.binderDecNode ref.node false true
  let s ← s.deleteRefDeath ref
  return { s with refs := s.refs.free r }

/-- `binder_inc_ref` counts at the node when the reference's own count is 0. -/
def incNodeFirst (count : Int) (strong : Bool) (target : Option Queue) :
    Except Fault (State × Bool) :=
  if count = 0 then s.binderIncNode ref.node strong true target else .ok (s, true)

/-- `binder_inc_ref`. -/
def binderIncRef (strong : Bool) (target : Option Queue) : Except Fault (State × Bool) := do
  let ref ← s.ref r
  if strong then
    let (s, ok) ← s.incNodeFirst ref ref.strong true target
    if ok then return (s.setRef r { ref with strong := intInc ref.strong }, true)
    else return (s, false)
  else
    let (s, ok) ← s.incNodeFirst ref ref.weak false target
    if ok then return (s.setRef r { ref with weak := intInc ref.weak }, true)
    else return (s, false)

/-- `binder_dec_ref` deletes a reference without counts. -/
def deleteRefIfUnused : Except Fault State := do
  let ref ← s.ref r
  if ref.strong = 0 ∧ ref.weak = 0 then s.binderDeleteRef r else return s

/-- `binder_dec_ref` counts at the node when the reference's strong count
reaches 0. -/
def decNodeLast (strong : Int) : Except Fault State :=
  if strong = 0 then s.binderDecNode ref.node true true else .ok s

/-- `binder_dec_ref`. -/
def binderDecRef (strong : Bool) : Except Fault State := do
  let ref ← s.ref r
  if strong then
    if ref.strong = 0 then return s
    else
      let s := s.setRef r { ref with strong := intDec ref.strong }
      let s ← s.decNodeLast ref (intDec ref.strong)
      s.deleteRefIfUnused r
  else
    if ref.weak = 0 then return s
    else (s.setRef r { ref with weak := intDec ref.weak }).deleteRefIfUnused r

end State

end AndroidKernel.Binder
