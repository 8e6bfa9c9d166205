import AndroidKernel.Lib.Rbtree
import AndroidKernel.Lib.Words
import AndroidKernel.Binder.Basic

/-!
# The transaction buffers of a process (`binder.c`, lines 501–907 and 2762–2856)

Each process that opened the driver maps one area; the kernel carves the
buffers of incoming transactions out of it. A buffer is a header
(`struct binder_buffer`) followed by its data. The headers are linked in
address order, a buffer's size is the distance to the next header, free buffers
are kept in a tree by size, allocated ones in a tree by address, and the pages
behind headers and allocated data are mapped on demand.

The functions follow the source statement by statement. Addresses are natural
numbers below `2 ^ 32`; `size_t` arithmetic that can wrap is written with
`% 2 ^ 32`.
-/

namespace AndroidKernel.Binder

/-- `x & PAGE_MASK`: round down to a page boundary. -/
def pageMask (x : Nat) : Nat := x / 4096 * 4096

/-- `ALIGN(x, sizeof(void *))` on a `size_t`. -/
def alignPtr (x : UInt32) : Nat := (x.toNat + 3) % 2 ^ 32 / 4 * 4

/-- `sizeof(struct binder_buffer)`: two list pointers, a tree node of three
words, the flags, `transaction`, `target_node`, `data_size` and `offsets_size`. -/
def headerSize : Nat := 40

/-- `struct binder_buffer`. The two links are the position in `buffers` and the
membership in one of the two trees; `data` holds the words that were copied
behind the header. -/
structure BinderBuffer where
  addr : Nat
  free : Bool
  allowUserFree : Bool := false
  asyncTransaction : Bool := false
  transaction : Option TransactionId := none
  targetNode : Option NodeId := none
  dataSize : UInt32 := 0
  offsetsSize : UInt32 := 0
  data : List UInt32 := []
  deriving DecidableEq

/-- The part of `struct binder_proc` that the buffers live in. `pages i` is set
when `proc->pages[i]` is not `NULL`. -/
structure BufferArea where
  buffer : Nat
  bufferSize : Nat
  buffers : List BinderBuffer
  freeBuffers : Rbtree Nat
  allocatedBuffers : Rbtree Nat
  freeAsyncSpace : Nat
  pages : List Bool
  vma : Bool
  deriving DecidableEq

/-- Where the buffer before `rest` ends: at the next header, or at the end of
the area. -/
def endOf (fin : Nat) : List BinderBuffer → Nat
  | [] => fin
  | y :: _ => y.addr

/-- `binder_buffer_size` over the list of buffers. -/
def sizeIn (fin : Nat) (b : Nat) : List BinderBuffer → Nat
  | [] => 0
  | x :: l => if x.addr = b then endOf fin l - (b + headerSize) else sizeIn fin b l

/-- The buffer after the one at `b`. -/
def nextOf (b : Nat) : List BinderBuffer → Option BinderBuffer
  | [] => none
  | x :: l => if x.addr = b then l.head? else nextOf b l

/-- The buffer before the one at `b`. -/
def prevOf (b : Nat) : List BinderBuffer → Option BinderBuffer
  | [] | [_] => none
  | x :: y :: l => if y.addr = b then some x else prevOf b (y :: l)

/-- `list_add(&new->entry, &buffer->entry)` for the buffer at `b`. -/
def insertAfter (b : Nat) (new : BinderBuffer) : List BinderBuffer → List BinderBuffer
  | [] => []
  | x :: l => if x.addr = b then x :: new :: l else x :: insertAfter b new l

/-- `list_del(&buffer->entry)` for the buffer at `b`. -/
def deleteAt (b : Nat) : List BinderBuffer → List BinderBuffer
  | [] => []
  | x :: l => if x.addr = b then l else x :: deleteAt b l

/-- An assignment to fields of the buffer at `b`. -/
def modifyAt (b : Nat) (f : BinderBuffer → BinderBuffer) : List BinderBuffer → List BinderBuffer
  | [] => []
  | x :: l => if x.addr = b then f x :: l else x :: modifyAt b f l

namespace BufferArea

variable (a : BufferArea) (b : Nat)

/-- The end of the area. -/
def fin : Nat := a.buffer + a.bufferSize

/-- The header at address `b`. -/
def find (a : BufferArea) (b : Nat) : Option BinderBuffer :=
  a.buffers.find? fun x => x.addr = b

/-- An assignment to fields of the buffer at `b`. -/
def modify (f : BinderBuffer → BinderBuffer) : BufferArea :=
  { a with buffers := modifyAt b f a.buffers }

/-- `buffer->free`, for an address that is in one of the trees. -/
def isFree : Bool :=
  match a.find b with
  | some x => x.free
  | none => false

/-- `binder_buffer_size`. -/
def binderBufferSize : Nat := sizeIn a.fin b a.buffers

/-- `binder_insert_free_buffer`. -/
def binderInsertFreeBuffer : Except Fault BufferArea := do
  bugOn .insertFreeBuffer (!a.isFree b)
  let newBufferSize := a.binderBufferSize b
  let goLeft := fun y => decide (newBufferSize < a.binderBufferSize y)
  bugOn .insertFreeBuffer ((a.freeBuffers.visited goLeft).any fun y => !a.isFree y)
  return { a with freeBuffers := a.freeBuffers.insertAt goLeft b }

/-- `binder_insert_allocated_buffer`. -/
def binderInsertAllocatedBuffer : Except Fault BufferArea := do
  bugOn .insertAllocatedBuffer (a.isFree b)
  let goLeft := fun y => decide (b < y)
  bugOn .insertAllocatedBuffer
    ((a.allocatedBuffers.visited goLeft).any fun y => a.isFree y || y == b)
  return { a with allocatedBuffers := a.allocatedBuffers.insertAt goLeft b }

/-- The loop of `binder_buffer_lookup`. -/
def lookupIn (a : BufferArea) (b : Nat) : Rbtree Nat → Except Fault (Option Nat)
  | .nil => .ok none
  | .node _ l x r =>
    if a.isFree x then .error (.bug .bufferLookup)
    else if b < x then lookupIn a b l
    else if x < b then lookupIn a b r
    else .ok (some x)

/-- `binder_buffer_lookup`, on the kernel address of a header. -/
def binderBufferLookup (kernPtr : Nat) : Except Fault (Option Nat) :=
  lookupIn a kernPtr a.allocatedBuffers

end BufferArea

/-! ## Pages -/

/-- What happens to one page that `binder_update_page_range` wants to map. -/
inductive PageResult where
  | mapped
  | allocPageFailed
  | mapKernelFailed
  | insertPageFailed
  deriving DecidableEq

/-- The surroundings of one call: whether the task still has an `mm`, and what
each page allocation gives. -/
structure PageEnv where
  mm : Bool
  page : Nat → PageResult

/-- The `free_range` loop over the pages `i, …, i + n - 1`, last page first. -/
def freePages (i : Nat) : Nat → List Bool → Except Fault (List Bool)
  | 0, pages => .ok pages
  | n + 1, pages =>
    match pages[i + n]? with
    | none => .error .outOfBounds
    | some false => .error .nullDeref
    | some true => freePages i n (pages.set (i + n) false)

/-- The mapping loop: `done` pages from `i` on are mapped, `n` are still to do.
A failure jumps into the `free_range` loop, behind the part of its body that
would undo what this page did not get. -/
def mapPages (env : PageEnv) (i done : Nat) : Nat → List Bool → Except Fault (List Bool × Bool)
  | 0, pages => .ok (pages, true)
  | n + 1, pages =>
    match pages[i + done]? with
    | none => .error .outOfBounds
    | some true => .error (.bug .updatePageRange)
    | some false =>
      match env.page (i + done) with
      | .mapped => mapPages env i (done + 1) n (pages.set (i + done) true)
      | .allocPageFailed =>
        (freePages i done pages).map fun pages => (pages, false)
      | .mapKernelFailed | .insertPageFailed =>
        (freePages i (done + 1) (pages.set (i + done) true)).map fun pages => (pages, false)

namespace BufferArea

variable (a : BufferArea) (env : PageEnv) (b : Nat)

/-- `(page_addr - proc->buffer) / PAGE_SIZE`. -/
def pageIndex (addr : Nat) : Nat := (addr - a.buffer) / 4096

/-- `binder_update_page_range`; the result says whether it returned 0. `vma` is
set when the caller passes a `vma`. The freeing half returns `-ENOMEM`, which
its callers ignore. -/
def binderUpdatePageRange (allocate : Bool) (start stop : Nat) (vma : Bool := false) :
    Except Fault (BufferArea × Bool) :=
  if stop ≤ start then .ok (a, true)
  else
    let i := a.pageIndex start
    let n := (stop - start + 4095) / 4096
    if allocate then
      if vma || (env.mm && a.vma) then
        (mapPages env i 0 n a.pages).map fun r => ({ a with pages := r.1 }, r.2)
      else .ok (a, false)
    else (freePages i n a.pages).map fun pages => ({ a with pages := pages }, false)

variable (size bufferSize : Nat) (dataSize offsetsSize : UInt32)

/-- `size` of a request: `ALIGN(data_size) + ALIGN(offsets_size)`. -/
def requestSize : Nat :=
  (alignPtr dataSize + alignPtr offsetsSize) % 2 ^ 32

/-- The search of `binder_alloc_buf` for the smallest free buffer that is large
enough; the flag says that `n` stopped at a buffer of exactly that size. -/
def bestFit (a : BufferArea) (size : Nat) : Rbtree Nat → Option Nat →
    Except Fault (Option Nat × Bool)
  | .nil, best => .ok (best, false)
  | .node _ l x r, best =>
    if !a.isFree x then .error (.bug .allocBuf)
    else if size < a.binderBufferSize x then bestFit a size l (some x)
    else if a.binderBufferSize x < size then bestFit a size r best
    else .ok (some x, true)

/-- The value `buffer_size` has when `binder_alloc_buf` maps the pages: the
request, and a header after it when the buffer found is large enough to split. -/
def splitSize (exact : Bool) : Nat :=
  if exact then bufferSize
  else if size + headerSize + 4 ≥ bufferSize then size -- no room for other buffers
  else size + headerSize

/-- `binder_alloc_buf` makes the rest of the buffer at `b` a new free buffer when
`bufferSize` has room for a header after `size`. The new header's other fields
are written before they are read. -/
def allocRemainder : Except Fault BufferArea :=
  if bufferSize ≠ size then
    { a with
      buffers := insertAfter b { addr := b + headerSize + size, free := true } a.buffers
      }.binderInsertFreeBuffer (b + headerSize + size)
  else .ok a

/-- `binder_alloc_buf` records the request in the header and takes an async one
from the budget. -/
def setRequest (isAsync : Bool) : BufferArea :=
  { a with
    buffers := modifyAt b (fun x => { x with
      dataSize := dataSize, offsetsSize := offsetsSize, asyncTransaction := isAsync }) a.buffers
    freeAsyncSpace := if isAsync then
        (a.freeAsyncSpace + 2 ^ 32 - (size + headerSize)) % 2 ^ 32
      else a.freeAsyncSpace }

/-- The second half of `binder_alloc_buf`, once the pages are there: the buffer
at `b` moves from the free tree to the allocated one. -/
def allocSplit (isAsync : Bool) : Except Fault BufferArea := do
  let a := { a with freeBuffers := a.freeBuffers.rbErase b }
  let a := a.modify b fun x => { x with free := false }
  let a ← a.binderInsertAllocatedBuffer b
  let a ← a.allocRemainder b size bufferSize
  return a.setRequest b size dataSize offsetsSize isAsync

/-- `binder_alloc_buf`; `none` is the `NULL` it returns on every failure. -/
def binderAllocBuf (isAsync : Bool) : Except Fault (BufferArea × Option Nat) := do
  if !a.vma then return (a, none)
  let size := requestSize dataSize offsetsSize
  if size < dataSize.toNat ∨ size < offsetsSize.toNat then return (a, none)
  if isAsync ∧ a.freeAsyncSpace < (size + headerSize) % 2 ^ 32 then return (a, none)
  match ← a.bestFit size a.freeBuffers none with
  | (none, _) => return (a, none)
  | (some b, exact) =>
    let bufferSize := a.binderBufferSize b
    let hasPageAddr := pageMask (b + headerSize + bufferSize)
    let bufferSize := splitSize size bufferSize exact
    let endPageAddr := min (pageAlign (b + headerSize + bufferSize)) hasPageAddr
    match ← a.binderUpdatePageRange env true (pageAlign (b + headerSize)) endPageAddr with
    | (a, false) => return (a, none)
    | (a, true) =>
      let a ← a.allocSplit b size bufferSize dataSize offsetsSize isAsync
      return (a, some b)

/-- `buffer_start_page`. -/
def bufferStartPage : Nat := pageMask b

/-- `buffer_end_page`. -/
def bufferEndPage : Nat := pageMask (b + headerSize - 1)

/-- The flags `free_page_start` and `free_page_end` of
`binder_delete_free_buffer`. -/
def freePageFlags (prev : Nat) (next : Option BinderBuffer) : Bool × Bool :=
  let sharePrev := bufferEndPage prev == bufferStartPage b
  let sharePrevEnd := sharePrev && bufferEndPage prev == bufferEndPage b
  let shareNext := match next with
    | some n => bufferStartPage n.addr == bufferEndPage b
    | none => false
  let shareNextStart := match next with
    | some n => shareNext && bufferStartPage n.addr == bufferStartPage b
    | none => false
  (!(sharePrev || shareNextStart), !(sharePrevEnd || shareNext))

/-- `binder_delete_free_buffer`. -/
def binderDeleteFreeBuffer : Except Fault BufferArea := do
  match prevOf b a.buffers with
  | none => .error (.bug .deleteFreeBuffer)
  | some prev =>
    bugOn .deleteFreeBuffer (!prev.free)
    let (freePageStart, freePageEnd) := freePageFlags b prev.addr (nextOf b a.buffers)
    let a := { a with buffers := deleteAt b a.buffers }
    if freePageStart || freePageEnd then
      let (a, _) ← a.binderUpdatePageRange env false
        (if freePageStart then bufferStartPage b else bufferEndPage b)
        ((if freePageEnd then bufferEndPage b else bufferStartPage b) + 4096)
      return a
    else return a

/-- The first half of `binder_free_buf`: the checks, the async budget, the data
pages, and the buffer at `b` changes from allocated to free. -/
def freeBufRelease (x : BinderBuffer) : Except Fault BufferArea := do
  let bufferSize := a.binderBufferSize x.addr
  let size := requestSize x.dataSize x.offsetsSize
  bugOn .freeBuf x.free
  bugOn .freeBuf (size > bufferSize)
  bugOn .freeBuf x.transaction.isSome
  bugOn .freeBuf (x.addr < a.buffer)
  bugOn .freeBuf (x.addr > a.buffer + a.bufferSize)
  let a := if x.asyncTransaction then
      { a with freeAsyncSpace := (a.freeAsyncSpace + (size + headerSize)) % 2 ^ 32 }
    else a
  let (a, _) ← a.binderUpdatePageRange env false (pageAlign (x.addr + headerSize))
    (pageMask (x.addr + headerSize + bufferSize))
  let a := { a with allocatedBuffers := a.allocatedBuffers.rbErase x.addr }
  return a.modify x.addr fun x => { x with free := true }

/-- `binder_free_buf` merges the freed buffer with the free one after it. -/
def freeBufMergeNext : Except Fault BufferArea :=
  match nextOf b a.buffers with
  | some next =>
    if next.free then
      { a with freeBuffers := a.freeBuffers.rbErase next.addr }.binderDeleteFreeBuffer
        env next.addr
    else .ok a
  | none => .ok a

/-- `binder_free_buf` merges it into the free buffer before it, and puts what
results into the free tree. -/
def freeBufMergePrev : Except Fault BufferArea :=
  match prevOf b a.buffers with
  | some prev =>
    if prev.free then do
      let a ← a.binderDeleteFreeBuffer env b
      { a with freeBuffers := a.freeBuffers.rbErase prev.addr }.binderInsertFreeBuffer prev.addr
    else a.binderInsertFreeBuffer b
  | none => a.binderInsertFreeBuffer b

/-- `binder_free_buf`. -/
def binderFreeBuf : Except Fault BufferArea := do
  match a.find b with
  | none => .error .useAfterFree
  | some x =>
    let a ← a.freeBufRelease env x
    let a ← a.freeBufMergeNext env b
    a.freeBufMergePrev env b

/-- `binder_free_buf` as it is called: `BC_FREE_BUFFER`, `binder_transaction` and
`binder_deferred_release` cut the buffer off its transaction first. -/
def releaseBuf : Except Fault BufferArea :=
  (a.modify b fun x => { x with transaction := none }).binderFreeBuf env b

end BufferArea

/-! ## The mapping of the area -/

/-- What `binder_mmap` can return besides 0. -/
inductive MmapError where
  | badVmFlags
  | alreadyMapped
  | getVmArea
  | allocPageArray
  | allocSmallBuf
  deriving DecidableEq

/-- The inputs of `binder_mmap`: the `vma`, whether the process has an area
already, and what the allocations give. The area that `get_vm_area` returns is
page aligned and ends below the top of the address space. -/
structure MmapRequest where
  vmStart : Nat
  pageCount : Nat
  vmWrite : Bool
  mapped : Bool
  vmArea : Option { addr : Nat // addr % 4096 = 0 ∧ addr + 4194304 < 2 ^ 32 }
  pageArray : Bool
  env : PageEnv

/-- `SZ_4M` in pages. -/
def maxPages : Nat := 1024

/-- `binder_mmap`. The loop that recolours `vm_start` is for aliasing caches,
which ARMv7 does not have. -/
def binderMmap (r : MmapRequest) : Except Fault (Except MmapError BufferArea) := do
  let bufferSize := min r.pageCount maxPages * 4096
  if r.vmWrite then return .error .badVmFlags
  if r.mapped then return .error .alreadyMapped
  match r.vmArea with
  | none => return .error .getVmArea
  | some area =>
    if !r.pageArray then return .error .allocPageArray
    let a : BufferArea := {
      buffer := area.1
      bufferSize := bufferSize
      buffers := []
      freeBuffers := .nil
      allocatedBuffers := .nil
      freeAsyncSpace := 0
      pages := List.replicate (bufferSize / 4096) false
      vma := false }
    match ← a.binderUpdatePageRange r.env true a.buffer (a.buffer + 4096) true with
    | (_, false) => return .error .allocSmallBuf
    | (a, true) =>
      let a := { a with buffers := [{ addr := a.buffer, free := true }] }
      let a ← a.binderInsertFreeBuffer a.buffer
      return .ok { a with freeAsyncSpace := a.bufferSize / 2, vma := true }

/-! ## Runs -/

/-- What happens to the area once it is mapped: `binder_alloc_buf`,
`binder_free_buf`, what the rest of the driver writes into the header and the
data of a buffer, and `binder_vma_close`, after which `proc->vma` is `NULL`. -/
inductive BufferOp where
  | alloc (env : PageEnv) (dataSize offsetsSize : UInt32) (isAsync : Bool)
  | free (env : PageEnv) (b : Nat)
  | fill (b : Nat) (allowUserFree : Bool) (transaction : Option TransactionId)
      (targetNode : Option NodeId) (data : List UInt32)
  | vmaClose

/-- One operation. A call that hits a `BUG_ON` has no next state. -/
def BufferArea.step (a : BufferArea) : BufferOp → Except Fault BufferArea
  | .alloc env dataSize offsetsSize isAsync =>
    (a.binderAllocBuf env dataSize offsetsSize isAsync).map Prod.fst
  | .free env b => a.binderFreeBuf env b
  | .fill b allowUserFree transaction targetNode data =>
    .ok (a.modify b fun x => { x with
      allowUserFree := allowUserFree
      transaction := transaction
      targetNode := targetNode
      data := data })
  | .vmaClose => .ok { a with vma := false }

/-- What the driver is allowed to ask for: `BC_FREE_BUFFER` and
`binder_deferred_release` free a buffer of `allocated_buffers` whose transaction
they have cut off, and `binder_transaction` frees the one it has just been
given. -/
def BufferArea.Allowed (a : BufferArea) : BufferOp → Prop
  | .free _ b => ∃ x ∈ a.buffers, x.addr = b ∧ x.free = false ∧ x.transaction = none
  | _ => True

/-- The areas that any sequence of operations, failing calls included, can
produce from a fresh mapping of at least one page. -/
inductive BufferArea.Reachable : BufferArea → Prop
  | mmap {r : MmapRequest} {a : BufferArea} (hpages : 0 < r.pageCount)
      (h : binderMmap r = .ok (.ok a)) : Reachable a
  | step {a a' : BufferArea} (ha : Reachable a) (op : BufferOp)
      (h : a.step op = .ok a') : Reachable a'

end AndroidKernel.Binder
