import AndroidKernel.Lib.Rbtree
import AndroidKernel.Lib.Seg
import AndroidKernel.Lib.Words

/-!
# Memory areas (`mm/mmap.c`)

The areas (`struct vm_area_struct`) of one `mm_struct`: a list along `vm_next`, a red-black tree,
their number and the area that was found last. All calls hold `mmap_sem`.

An area is known by a number, and `none` as the result of a call stands for a `BUG` or a null
pointer that is followed. Left out: the lists of a file's and of an `anon_vma`'s areas, page
tables, accounting, memory policies (none without `CONFIG_NUMA`) and huge pages.
-/

namespace AndroidKernel.Mmap

open Function

/-- `TASK_SIZE`. -/
def taskSize : Nat := 0xBF000000

/-- `TASK_UNMAPPED_BASE`, which is also `mmap_base`. -/
def taskUnmappedBase : Nat := 0x40000000

def vmCanNonlinear : BitVec 32 := 0x08000000

/-- `VM_IO`, `VM_DONTEXPAND`, `VM_RESERVED` and `VM_PFNMAP`. -/
def vmSpecial : BitVec 32 := 0x000C4400

/-- What is mapped where. -/
structure Area where
  start : Nat
  end_ : Nat
  pgoff : Nat
  flags : BitVec 32
  file : Option Nat
  prot : Nat
  deriving DecidableEq

structure Vma extends Area where
  anonVma : Option Nat
  /-- Whether there is a `vm_ops->close`. -/
  close : Bool

structure Mm where
  vma : Nat → Vma
  vmNext : Nat → Option Nat
  mmap : Option Nat
  mmRb : Rbtree Nat
  mapCount : Nat
  mmapCache : Option Nat
  freeAreaCache : Nat
  cachedHoleSize : Nat

inductive Errno
  | einval
  | enomem
  deriving DecidableEq

namespace Mm

variable (m : Mm) (vma : Nat) (prev : Option Nat)

def setVma (i : Nat) (v : Vma) : Mm :=
  { m with vma := update m.vma i v }

/-- `prev ? prev->vm_next : mm->mmap`. -/
def following : Option Nat → Option Nat
  | none => m.mmap
  | some prev => m.vmNext prev

/-! ## Searches -/

/-- The loop of `find_vma`. -/
def findLoop (m : Mm) (addr : Nat) : Rbtree Nat → Option Nat → Option Nat
  | .nil, vma => vma
  | .node _ l x r, vma =>
    if addr < (m.vma x).end_ then
      if (m.vma x).start ≤ addr then some x else findLoop m addr l (some x)
    else findLoop m addr r vma

/-- `find_vma`, which remembers what it finds. -/
def findVma (addr : Nat) : Option Nat × Mm :=
  if ∃ c ∈ m.mmapCache, addr < (m.vma c).end_ ∧ (m.vma c).start ≤ addr then (m.mmapCache, m)
  else
    match m.findLoop addr m.mmRb none with
    | none => (none, m)
    | some vma => (some vma, { m with mmapCache := some vma })

/-- The loop of `find_vma_prev`. -/
def prevLoop (m : Mm) (addr : Nat) : Rbtree Nat → Option Nat → Option Nat
  | .nil, prev => prev
  | .node _ l x r, prev =>
    if addr < (m.vma x).end_ then prevLoop m addr l prev
    else if ∀ n ∈ m.vmNext x, addr < (m.vma n).end_ then some x
    else prevLoop m addr r (some x)

/-- `find_vma_prev`: the area and `*pprev`. -/
def findVmaPrev (addr : Nat) : Option Nat × Option Nat :=
  let prev := m.prevLoop addr m.mmRb none
  (m.following prev, prev)

/-- The loop of `find_vma_prepare`: the area, `*pprev` and the place. The latter two are of use only
if the loop does not end at an area that contains `addr`. -/
def prepareLoop (m : Mm) (addr : Nat) : Rbtree Nat → Rbtree.Path Nat → Option Nat → Option Nat →
    Option Nat × Option Nat × Rbtree.Path Nat
  | .nil, p, vma, prev => (vma, prev, p)
  | .node c l x r, p, vma, prev =>
    if addr < (m.vma x).end_ then
      if (m.vma x).start ≤ addr then (some x, prev, p)
      else prepareLoop m addr l (.left c p x r) (some x) prev
    else prepareLoop m addr r (.right c l x p) vma (some x)

/-! ## Insertion -/

/-- `rb_parent` of a place. -/
def rbParent : Rbtree.Path Nat → Option Nat
  | .root => none
  | .left _ _ x _ | .right _ _ x _ => some x

/-- `__vma_link_list`. -/
def vmaLinkList (p : Rbtree.Path Nat) : Mm :=
  match prev with
  | some prev =>
    let m := { m with vmNext := update m.vmNext vma (m.vmNext prev) }
    { m with vmNext := update m.vmNext prev (some vma) }
  | none => { m with mmap := some vma, vmNext := update m.vmNext vma (rbParent p) }

/-- `vma_link`. -/
def vmaLink (p : Rbtree.Path Nat) : Mm :=
  let m := m.vmaLinkList vma prev p
  { m with
    mmRb := Rbtree.rbInsertColor (.node .red .nil vma .nil) p
    mapCount := m.mapCount + 1 }

/-- What `insert_vm_struct` and `__insert_vm_struct` share: the second has a `BUG_ON` where the
first fails. -/
def insertVmStruct : Option Mm :=
  let place := m.prepareLoop (m.vma vma).start m.mmRb .root none none
  if ∃ n ∈ place.1, (m.vma n).start < (m.vma vma).end_ then none
  else some (m.vmaLink vma place.2.1 place.2.2)

/-- `insert_vm_struct` for an area with the fields `v`; `enough` is what
`security_vm_enough_memory_mm` answers. -/
def insert (v : Vma) (enough : Bool) : Option Errno × Mm :=
  let v := if v.file = none then { v with pgoff := v.start / 4096 } else v
  let m := m.setVma vma v
  match m.insertVmStruct vma with
  | none => (some .enomem, m)
  | some m' => if enough then (none, m') else (some .enomem, m)

/-! ## Adjustment -/

/-- `__vma_unlink`, and the count goes down. -/
def vmaUnlink (prev : Nat) : Mm :=
  { m with
    vmNext := update m.vmNext prev (m.vmNext vma)
    mmRb := m.mmRb.rbErase vma
    mmapCache := if m.mmapCache = some vma then some prev else m.mmapCache
    mapCount := m.mapCount - 1 }

/-- The `importer` gets an `anon_vma` if `vma` or `next` has one and it has none. -/
def importAnon (importer vma next : Nat) : Mm :=
  let v := m.vma importer
  m.setVma importer
    { v with anonVma := v.anonVma <|> ((m.vma vma).anonVma <|> (m.vma next).anonVma) }

/-- `vm_start`, `vm_end` and `vm_pgoff` are set. -/
def setRange (start end_ pgoff : Nat) : Mm :=
  m.setVma vma { m.vma vma with start, end_, pgoff }

/-- `vma_adjust` from the label `again` on: `next` is removed, and then perhaps the one after it. -/
def removeNext (vma start pgoff : Nat) : Nat → Mm → Nat → Nat → Option Mm
  | 0, _, _, _ => none
  | fuel + 1, m, next, end_ =>
    let stop := (m.vma next).end_
    let m := ((m.importAnon vma vma next).setRange vma start stop pgoff).vmaUnlink next vma
    if stop < end_ then (m.vmNext vma).bind fun next => removeNext vma start pgoff fuel m next stop
    else some m

/-- The boundary between `vma` and `next` moves by `adjust_next` pages. -/
def adjustNext (start end_ pgoff next : Nat) (adjust : Int) : Mm :=
  let m := m.setRange vma start end_ pgoff
  let n := m.vma next
  m.setRange next (ulong (n.start + adjust * 4096)) n.end_ (ulong (n.pgoff + adjust))

/-- `vma_adjust`. -/
def vmaAdjust (start end_ pgoff : Nat) (insert : Option Nat) : Option Mm :=
  match insert, m.vmNext vma with
  | some new, _ => (m.setRange vma start end_ pgoff).insertVmStruct new
  | none, none => some (m.setRange vma start end_ pgoff)
  | none, some next =>
    if (m.vma next).end_ ≤ end_ then removeNext vma start pgoff m.mapCount m next end_
    else if (m.vma next).start < end_ then
      some ((m.importAnon vma vma next).adjustNext vma start end_ pgoff next
        ((end_ - (m.vma next).start) / 4096 : Nat))
    else if end_ < (m.vma vma).end_ then
      some ((m.importAnon next vma next).adjustNext vma start end_ pgoff next
        (-(((m.vma vma).end_ - end_) / 4096 : Nat)))
    else some (m.setRange vma start end_ pgoff)

/-- `split_vma`, where `new` is what `kmem_cache_alloc` returns. -/
def splitVma (maxMapCount vma addr : Nat) (newBelow : Bool) (new : Option Nat) :
    Option (Option Errno × Mm) :=
  if maxMapCount ≤ m.mapCount then some (some .enomem, m)
  else
    match new with
    | none => some (some .enomem, m)
    | some new =>
      let v := m.vma vma
      let pages := (addr - v.start) / 4096
      let m :=
        if newBelow then
          (m.setVma new { v with end_ := addr }).vmaAdjust vma addr v.end_
            (ulong (v.pgoff + pages : Nat)) (some new)
        else
          (m.setVma new { v with start := addr, pgoff := ulong (v.pgoff + pages : Nat) }).vmaAdjust
            vma
            v.start addr v.pgoff (some new)
      m.map fun m => (none, m)

/-! ## Removal -/

/-- The loop of `detach_vmas_to_be_unmapped`: the last area that is removed, and the one after it.
-/
def detachLoop (end_ : Nat) : Nat → Mm → Nat → Option (Mm × Nat × Option Nat)
  | 0, _, _ => none
  | fuel + 1, m, vma =>
    let m := { m with mmRb := m.mmRb.rbErase vma, mapCount := m.mapCount - 1 }
    match m.vmNext vma with
    | none => some (m, vma, none)
    | some next =>
      if (m.vma next).start < end_ then detachLoop end_ fuel m next else some (m, vma, some next)

/-- `arch_unmap_area`. -/
def archUnmapArea (addr : Nat) : Mm :=
  if taskUnmappedBase ≤ addr ∧ addr < m.freeAreaCache then
    { m with freeAreaCache := addr, cachedHoleSize := 2 ^ 32 - 1 }
  else m

/-- `detach_vmas_to_be_unmapped`. -/
def detachVmasToBeUnmapped (end_ : Nat) : Option Mm := do
  let (m, tail, vma) ← detachLoop end_ m.mapCount m vma
  let m :=
    match prev with
    | none => { m with mmap := vma }
    | some prev => { m with vmNext := update m.vmNext prev vma }
  let m := { m with vmNext := update m.vmNext tail none }
  let m := m.archUnmapArea (prev.elim taskUnmappedBase fun prev => (m.vma prev).end_)
  return { m with mmapCache := none }

/-- The second split of `do_munmap`. -/
def splitLast (maxMapCount end_ : Nat) (new : Option Nat) : Option (Option Errno × Mm) :=
  match m.findVma end_ with
  | (none, m) => some (none, m)
  | (some last, m) =>
    if (m.vma last).start < end_ then m.splitVma maxMapCount last end_ true new else some (none, m)

/-- The end of `do_munmap`. -/
def unmapFrom (end_ : Nat) (prev : Option Nat) : Option (Option Errno × Mm) := do
  let vma ← m.following prev
  return (none, ← m.detachVmasToBeUnmapped vma prev end_)

/-- `do_munmap` from the second split on. -/
def unmapRest (maxMapCount end_ : Nat) (prev new : Option Nat) : Option (Option Errno × Mm) := do
  let (error, m) ← m.splitLast maxMapCount end_ new
  if error.isSome then return (error, m) else m.unmapFrom end_ prev

/-- `do_munmap`; the two splits are given `new` and `new'`. -/
def doMunmap (maxMapCount start len : Nat) (new new' : Option Nat) : Option (Option Errno × Mm) :=
  if start % 4096 ≠ 0 ∨ taskSize < start ∨ taskSize - start < len then some (some .einval, m)
  else if pageAlign len = 0 then some (some .einval, m)
  else
    match m.findVmaPrev start with
    | (none, _) => some (none, m)
    | (some vma, prev) =>
      let end_ := start + pageAlign len
      if end_ ≤ (m.vma vma).start then some (none, m)
      else if (m.vma vma).start < start then do
        let (error, m) ← m.splitVma maxMapCount vma start false new
        if error.isSome then return (error, m) else m.unmapRest maxMapCount end_ (some vma) new'
      else m.unmapRest maxMapCount end_ prev new'

end Mm

/-! ## Merging -/

/-- What `vma_merge` is asked for. -/
structure Request where
  addr : Nat
  end_ : Nat
  flags : BitVec 32
  anonVma : Option Nat
  file : Option Nat
  pgoff : Nat

variable (v : Vma) (req : Request)

/-- `pglen`. -/
def Request.pglen : Nat := (req.end_ - req.addr) / 4096

/-- `is_mergeable_vma`. -/
def isMergeableVma : Bool :=
  (v.flags ^^^ req.flags) &&& ~~~vmCanNonlinear = 0 ∧ v.file = req.file ∧ v.close = false

/-- `is_mergeable_anon_vma`. -/
def isMergeableAnonVma (a b : Option Nat) : Bool :=
  a = none ∨ b = none ∨ a = b

/-- Whether `prev` ends where the request starts and `can_vma_merge_after`. -/
def mergesAfter : Bool :=
  v.end_ = req.addr ∧ isMergeableVma v req ∧ isMergeableAnonVma req.anonVma v.anonVma ∧
    ulong (v.pgoff + (v.end_ - v.start) / 4096 : Nat) = req.pgoff

/-- Whether `next` starts where the request ends and `can_vma_merge_before`. -/
def mergesBefore : Bool :=
  req.end_ = v.start ∧ isMergeableVma v req ∧ isMergeableAnonVma req.anonVma v.anonVma ∧
    v.pgoff = ulong (req.pgoff + req.pglen)

namespace Mm

/-- The successor that `vma_merge` looks at: not an area that ends where the request does. -/
def mergeNext (m : Mm) (prev : Option Nat) (req : Request) : Option Nat :=
  (m.following prev).bind fun area =>
    if (m.vma area).end_ = req.end_ then m.vmNext area else some area

/-- `vma_merge`. -/
def vmaMerge (m : Mm) (prev : Option Nat) (req : Request) : Option (Option Nat × Mm) :=
  if req.flags &&& vmSpecial ≠ 0 then some (none, m)
  else
    match prev.filter fun p => mergesAfter (m.vma p) req, (m.mergeNext prev req).filter fun n =>
        mergesBefore (m.vma n) req with
    | some p, next =>
      let v := m.vma p
      let end_ :=
        match next.filter fun n => isMergeableAnonVma v.anonVma (m.vma n).anonVma with
        | some n => (m.vma n).end_
        | none => req.end_
      (m.vmaAdjust p v.start end_ v.pgoff none).map fun m => (some p, m)
    | none, some n =>
      match prev.filter fun p => req.addr < (m.vma p).end_ with
      | some p =>
        let v := m.vma p
        (m.vmaAdjust p v.start req.addr v.pgoff none).map fun m' => (m.following prev, m')
      | none =>
        (m.following prev).bind fun area =>
          (m.vmaAdjust area req.addr (m.vma n).end_ (ulong ((m.vma n).pgoff - req.pglen)) none).map
            fun m => (some area, m)
    | none, none => some (none, m)

end Mm

end AndroidKernel.Mmap
