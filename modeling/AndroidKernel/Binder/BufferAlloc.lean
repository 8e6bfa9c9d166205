import AndroidKernel.Binder.BufferInvariant

/-!
# `binder_alloc_buf` keeps the invariant

A call either leaves the area exactly as it was (every failure exit, a page
allocation that fails in the middle included) or turns the front of one free
buffer into an allocated one; `AllocResult` says what the list looks like then.
-/

namespace AndroidKernel.Binder

open BufferArea List

/-- The buffer that a request leaves behind in the place of the free buffer `x`. -/
def BinderBuffer.allocated (x : BinderBuffer) (dataSize offsetsSize : UInt32)
    (isAsync : Bool) : BinderBuffer :=
  { x with
    free := false
    dataSize := dataSize
    offsetsSize := offsetsSize
    asyncTransaction := isAsync }

/-- The list after a successful allocation from `x`: what is left of `x` is a
free buffer of its own, unless it is too small. -/
def allocRest (x : BinderBuffer) (size bufferSize : Nat) (l₂ : List BinderBuffer) :
    List BinderBuffer :=
  if bufferSize ≠ size then { addr := x.addr + headerSize + size, free := true } :: l₂ else l₂

/-- What a successful `binder_alloc_buf` does: the buffer at `b` was free in
`a` and is allocated in `a'`. -/
structure AllocResult (a : BufferArea) (dataSize offsetsSize : UInt32) (isAsync : Bool)
    (a' : BufferArea) (b : Nat) : Prop where
  frame : a'.buffer = a.buffer ∧ a'.bufferSize = a.bufferSize ∧ a'.vma = a.vma
  list : ∃ l₁ x l₂ bufferSize, a.buffers = l₁ ++ x :: l₂ ∧ x.free = true ∧ x.addr = b ∧
    a'.buffers = l₁ ++ x.allocated dataSize offsetsSize isAsync ::
      allocRest x (requestSize dataSize offsetsSize) bufferSize l₂

/-- The overflow check of `binder_alloc_buf` is exact: a request passes it only
when its size was computed without wrap-around. -/
theorem requestSize_exact {d o : UInt32} (hd : ¬requestSize d o < d.toNat)
    (ho : ¬requestSize d o < o.toNat) : requestSize d o = alignUp d + alignUp o := by
  simp only [requestSize, alignPtr, alignUp] at *
  omega

theorem requestSize_of_lt {d o : UInt32} (h : alignUp d + alignUp o < 2 ^ 32) :
    requestSize d o = alignUp d + alignUp o := by
  simp only [requestSize, alignPtr, alignUp] at *
  omega

/-- Either the request takes the whole buffer, up to 44 bytes of slack, or there
is room for one more header. -/
theorem splitSize_cases {size bufferSize : Nat} {exact : Bool}
    (hexact : exact = true → bufferSize = size) :
    splitSize size bufferSize exact = size ∧ bufferSize ≤ size + 44 ∨
      splitSize size bufferSize exact = size + headerSize ∧ size + headerSize + 4 < bufferSize := by
  rw [splitSize]
  split
  next he =>
    have := hexact he
    exact .inl ⟨this, by omega⟩
  · split
    next h =>
      simp only [headerSize] at h
      exact .inl ⟨rfl, by omega⟩
    · exact .inr ⟨rfl, by omega⟩

section Split

variable {a : BufferArea} {x y : BinderBuffer} {l₁ l₂ : List BinderBuffer} {d o : UInt32}
  {isAsync : Bool} {size bufferSize : Nat}

theorem ListInv.notMem (hinv : a.ListInv) (hbuf : a.buffers = l₁ ++ x :: l₂) :
    x.addr ∉ addrs l₁ ∧ x.addr ∉ addrs l₂ :=
  Layout.notMem (hbuf ▸ hinv.layout)

/-- The free tree depends on the addresses and on which buffers are free. -/
theorem FreeTree.congr {fin : Nat} {t : Rbtree Nat} {l l' : List BinderBuffer}
    (h : FreeTree fin t l) (haddrs : addrs l' = addrs l) (hfree : freeAddrs l' = freeAddrs l) :
    FreeTree fin t l' := by
  refine ⟨hfree ▸ h.perm, h.sorted.imp fun {b c} hle => ?_⟩
  rwa [sizeIn_congr haddrs, sizeIn_congr haddrs]

/-- The free tree without `x`, which is allocated now. -/
theorem ListInv.freeTree_erase (hinv : a.ListInv) (hbuf : a.buffers = l₁ ++ x :: l₂)
    (hx : x.free = true) :
    FreeTree a.fin (a.freeBuffers.rbErase x.addr) (l₁ ++ { x with free := false } :: l₂) := by
  have haddrs : addrs (l₁ ++ { x with free := false } :: l₂) = addrs a.buffers := by simp [hbuf]
  have hperm := hinv.freeTree.perm
  rw [hbuf, freeAddrs_append, freeAddrs_cons, if_pos hx] at hperm
  have herase := (hperm.trans perm_middle).erase x.addr
  rw [erase_cons_head] at herase
  constructor
  · rw [Rbtree.toList_rbErase, freeAddrs_append]
    exact herase
  · rw [Rbtree.toList_rbErase]
    refine (hinv.freeTree.sorted.sublist erase_sublist).imp fun {b c} hle => ?_
    rwa [sizeIn_congr haddrs, sizeIn_congr haddrs]

/-- The layout, the gaps between free buffers and the sizes after `x` became
allocated. -/
theorem allocated_list (isAsync : Bool) (hinv : a.ListInv) (hbuf : a.buffers = l₁ ++ x :: l₂)
    (hx : x.free = true) (hsize : size = alignUp d + alignUp o)
    (hle : x.addr + headerSize + size ≤ endOf a.fin l₂)
    (hroom : bufferSize ≠ size → x.addr + headerSize + size + headerSize + 4 < endOf a.fin l₂) :
    Layout a.fin a.buffer (l₁ ++ x.allocated d o isAsync :: allocRest x size bufferSize l₂) ∧
      NoAdjacentFree (l₁ ++ x.allocated d o isAsync :: allocRest x size bufferSize l₂) ∧
      Fits a.fin (l₁ ++ x.allocated d o isAsync :: allocRest x size bufferSize l₂) := by
  have hl := hinv.layout
  have hap := hinv.apart
  rw [hbuf] at hl hap
  obtain ⟨h1, h2, h3⟩ := layout_middle.mp hl
  obtain ⟨p1, p2, p3, p4⟩ := noAdjacentFree_middle.mp hap
  have hlayout : Layout a.fin a.buffer
      (l₁ ++ x.allocated d o isAsync :: allocRest x size bufferSize l₂) := by
    rw [layout_middle, allocRest]
    split
    · simp only [BinderBuffer.allocated, endOf_cons, Layout]
      exact ⟨h1, by omega, trivial, by omega, h3⟩
    · exact ⟨h1, h2, h3⟩
  refine ⟨hlayout, ?_, ?_⟩
  · rw [noAdjacentFree_middle, allocRest]
    refine ⟨p1, ?_, by simp [BinderBuffer.allocated], by simp [BinderBuffer.allocated]⟩
    split
    · refine isChain_cons.mpr ⟨fun n hn => ?_, p2⟩
      simpa [hx] using p4 n hn
    · exact p2
  · -- only the allocated buffer itself is new
    have hmid : x.allocated d o isAsync :: allocRest x size bufferSize l₂
        = (if bufferSize ≠ size then
            [x.allocated d o isAsync, { addr := x.addr + headerSize + size, free := true }]
          else [x.allocated d o isAsync]) ++ l₂ := by
      rw [allocRest]
      split <;> rfl
    have hfits := hinv.fits
    rw [hbuf] at hfits
    rw [hmid] at hlayout ⊢
    refine Fits.replace [x] _ _ (by simpa using hfits) (by split <;> rfl)
      (by simpa using hl.nodup) hlayout.nodup fun y hy hyfree => ?_
    obtain rfl : y = x.allocated d o isAsync := by
      split at hy
      · simp only [mem_cons, not_mem_nil, or_false] at hy
        rcases hy with rfl | rfl
        · rfl
        · cases hyfree
      · simpa using hy
    rw [← hmid, sizeIn_middle (x := x.allocated d o isAsync) (ListInv.notMem hinv hbuf).1,
      allocRest]
    simp only [BinderBuffer.allocated]
    split
    · simp only [endOf_cons]
      omega
    · omega

/-- What is left of the buffer `y` goes into the list and into the free tree. -/
theorem allocRemainder_spec (hbuf : a.buffers = l₁ ++ y :: l₂) (hy : y.free = false)
    (htree : FreeTree a.fin a.freeBuffers (l₁ ++ y :: l₂))
    (hlayout : Layout a.fin a.buffer (l₁ ++ y :: allocRest y size bufferSize l₂)) :
    ∃ t, FreeTree a.fin t (l₁ ++ y :: allocRest y size bufferSize l₂) ∧
      a.allocRemainder y.addr size bufferSize = .ok { a with
        freeBuffers := t, buffers := l₁ ++ y :: allocRest y size bufferSize l₂ } := by
  unfold allocRemainder
  unfold allocRest at hlayout ⊢
  split
  next hne =>
    rw [if_pos hne] at hlayout
    generalize hn : ({ addr := y.addr + headerSize + size, free := true } : BinderBuffer) = n
      at hlayout
    have hnaddr : n.addr = y.addr + headerSize + size := by rw [← hn]
    have hnfree : n.free = true := by rw [← hn]
    have hnd := hlayout.nodup
    have hnd' : (addrs (l₁ ++ y :: l₂)).Nodup :=
      hnd.sublist (((sublist_cons_self n l₂).cons_cons y).append_left l₁ |>.map _)
    rw [hbuf, insertAfter_middle hlayout.notMem.1 n, ← hnaddr]
    obtain ⟨t, ht, htree', -⟩ := insertFreeBuffer_spec
      (a := { a with buffers := l₁ ++ y :: n :: l₂ }) hnd (by simp) hnfree
      (by
        have hperm := htree.perm
        rw [freeAddrs_append, freeAddrs_cons, if_neg (by simp [hy])] at hperm
        rw [freeAddrs_append, freeAddrs_cons, freeAddrs_cons, if_neg (by simp [hy]), if_pos hnfree]
        exact (hperm.cons _).trans perm_middle.symm)
      (by
        refine sorted_replace [y] [y, n] htree.sorted rfl fun b hb => ?_
        have hmem := htree.perm.subset hb
        rw [freeAddrs_append, freeAddrs_cons, if_neg (by simp [hy]), mem_append] at hmem
        have hmem := hmem.imp freeAddrs_subset freeAddrs_subset
        exact ⟨notMem_segment hnd' hmem, notMem_segment hnd hmem⟩)
    exact ⟨t, htree', ht⟩
  · exact ⟨a.freeBuffers, htree, by rw [← hbuf]⟩

theorem allocAddrs_allocRest : allocAddrs (allocRest x size bufferSize l₂) = allocAddrs l₂ := by
  unfold allocRest
  split
  · rw [allocAddrs_cons, if_pos rfl]
  · rfl

theorem asyncSum_allocRest : asyncSum (allocRest x size bufferSize l₂) = asyncSum l₂ := by
  unfold allocRest
  split
  · simp [asyncCharge]
  · rfl

/-- What the request takes is missing from the async budget. -/
theorem asyncSum_allocated (hinv : a.ListInv) (hbuf : a.buffers = l₁ ++ x :: l₂)
    (hx : x.free = true)
    (hasync : isAsync = true → requestSize d o + headerSize ≤ a.freeAsyncSpace) :
    (if isAsync then (a.freeAsyncSpace + 2 ^ 32 - (requestSize d o + headerSize)) % 2 ^ 32
      else a.freeAsyncSpace) + asyncSum (l₁ ++ x.allocated d o isAsync ::
        allocRest x size bufferSize l₂) = a.bufferSize / 2 := by
  have hold := hinv.async
  have hx0 : asyncCharge x = 0 := by simp [asyncCharge, hx]
  rw [hbuf, asyncSum_append, asyncSum_cons] at hold
  rw [asyncSum_append, asyncSum_cons, asyncSum_allocRest]
  have hbound := hinv.bound
  simp only [BufferArea.fin] at hbound
  cases isAsync with
  | false =>
    simp only [asyncCharge, BinderBuffer.allocated, Bool.false_eq_true, if_false, Bool.and_false]
    omega
  | true =>
    have := hasync rfl
    simp only [asyncCharge, BinderBuffer.allocated, if_true, Bool.not_false, Bool.and_self]
    omega

/-- The buffer is allocated, and what is left of it is a free buffer. -/
theorem allocSplit_spec (bufferSize : Nat) (isAsync : Bool) (hinv : a.ListInv)
    (hbuf : a.buffers = l₁ ++ x :: l₂)
    (hx : x.free = true) (hsize : requestSize d o = alignUp d + alignUp o)
    (hle : x.addr + headerSize + requestSize d o ≤ endOf a.fin l₂)
    (hroom : bufferSize ≠ requestSize d o →
      x.addr + headerSize + requestSize d o + headerSize + 4 < endOf a.fin l₂)
    (hasync : isAsync = true → requestSize d o + headerSize ≤ a.freeAsyncSpace) :
    ∃ a', a.allocSplit x.addr (requestSize d o) bufferSize d o isAsync = .ok a' ∧
      a'.ListInv ∧ a'.pages = a.pages ∧ AllocResult a d o isAsync a' x.addr ∧
      a'.buffers = l₁ ++ x.allocated d o isAsync ::
        allocRest x (requestSize d o) bufferSize l₂ := by
  obtain ⟨hlayout, hapart, hfits⟩ :=
    allocated_list isAsync hinv hbuf hx hsize hle hroom
  have hnot := ListInv.notMem hinv hbuf
  let x' : BinderBuffer := { x with free := false }
  let a₂ : BufferArea :=
    { a with freeBuffers := a.freeBuffers.rbErase x.addr, buffers := l₁ ++ x' :: l₂ }
  have hm₂ : BufferArea.modify { a with freeBuffers := a.freeBuffers.rbErase x.addr } x.addr
      (fun x => { x with free := false }) = a₂ := by
    simp only [BufferArea.modify, hbuf, modifyAt_middle hnot.1]
    rfl
  have haddrs : addrs a₂.buffers = addrs a.buffers := by simp [a₂, x', hbuf]
  have halloc : a.allocatedBuffers.toList = allocAddrs l₁ ++ allocAddrs l₂ := by
    rw [hinv.allocTree, hbuf, allocAddrs_append, allocAddrs_cons, if_pos hx]
  obtain ⟨t, ht, htlist⟩ := insertAllocatedBuffer_spec (x := x')
    (by rw [haddrs]; exact hinv.layout.pairwise) (by simp [a₂]) rfl
    (by
      rw [halloc, allocAddrs_append]
      exact perm_middle.symm)
    (by
      rw [hinv.allocTree]
      exact hinv.layout.pairwise.sublist (allocAddrs_sublist _))
  have hlayout' := layout_middle.mp hlayout
  obtain ⟨F, hF, hFeq⟩ := allocRemainder_spec (a := { a₂ with allocatedBuffers := t }) rfl
    rfl (ListInv.freeTree_erase hinv hbuf hx) (layout_middle.mpr hlayout')
  refine ⟨{ a with
    freeBuffers := F
    allocatedBuffers := t
    buffers := l₁ ++ x.allocated d o isAsync :: allocRest x (requestSize d o) bufferSize l₂
    freeAsyncSpace := if isAsync then
        (a.freeAsyncSpace + 2 ^ 32 - (requestSize d o + headerSize)) % 2 ^ 32
      else a.freeAsyncSpace }, ?_, ?_, rfl, ?_, rfl⟩
  · simp only [allocSplit, hm₂]
    rw [show x.addr = x'.addr from rfl, ht]
    simp only [bind, Except.bind, hFeq, setRequest]
    rw [modifyAt_middle (x := x') hnot.1]
    rfl
  · exact {
      aligned := ⟨hinv.aligned.base, hinv.aligned.size⟩
      bound := hinv.bound
      layout := hlayout
      nonempty := by simp
      apart := hapart
      fits := hfits
      freeTree := by
        refine hF.congr (by simp [x', BinderBuffer.allocated, allocRest]) ?_
        simp [freeAddrs_cons, x', BinderBuffer.allocated, allocRest]
      allocTree := by
        rw [htlist, allocAddrs_append, allocAddrs_append, allocAddrs_cons, allocAddrs_cons,
          allocAddrs_allocRest]
        rfl
      async := asyncSum_allocated hinv hbuf hx hasync }
  · exact ⟨⟨rfl, rfl, rfl⟩, l₁, x, l₂, bufferSize, hbuf, hx, rfl, rfl⟩

end Split

/-! ## `binder_alloc_buf` -/

/-- What a request needs besides pages. -/
structure BufferArea.Suffices (a : BufferArea) (d o : UInt32) (isAsync : Bool) : Prop where
  vma : a.vma = true
  size : alignUp d + alignUp o < 2 ^ 32
  budget : isAsync = true → alignUp d + alignUp o + headerSize ≤ a.freeAsyncSpace
  room : ∃ x ∈ a.buffers, x.free = true ∧ alignUp d + alignUp o ≤ a.binderBufferSize x.addr

/-- `b` is the address of a smallest free buffer with room for `size` bytes. -/
structure BufferArea.Smallest (a : BufferArea) (size b : Nat) : Prop where
  free : ∃ x ∈ a.buffers, x.addr = b ∧ x.free = true
  fits : size ≤ a.binderBufferSize b
  least : ∀ y ∈ a.buffers, y.free = true → size ≤ a.binderBufferSize y.addr →
    a.binderBufferSize b ≤ a.binderBufferSize y.addr

/-- The pages can be mapped that a request of `size` bytes needs of the free buffer at `b`. -/
def BufferArea.PagesThere (a : BufferArea) (env : PageEnv) (size b : Nat) : Prop :=
  a.CanMap env (pageAlign (b + headerSize))
    (min (pageAlign (b + headerSize + splitSize size (a.binderBufferSize b) false))
      (pageMask (b + headerSize + a.binderBufferSize b))) false

section Outcome

variable {a : BufferArea} {x : BinderBuffer} {l₁ l₂ : List BinderBuffer} {d o : UInt32}

theorem ListInv.buffer_end (hinv : a.ListInv) (hbuf : a.buffers = l₁ ++ x :: l₂) :
    x.addr + headerSize + a.binderBufferSize x.addr = endOf a.fin l₂ := by
  have hl := hinv.layout
  rw [hbuf] at hl
  obtain ⟨-, h2, -⟩ := layout_middle.mp hl
  rw [binderBufferSize, hbuf, sizeIn_middle (ListInv.notMem hinv hbuf).1]
  omega

/-- What `binder_alloc_buf` maps is what the new list needs in addition. -/
theorem Inv.mapPages (isAsync : Bool) (hinv : a.Inv) (env : PageEnv)
    (hbuf : a.buffers = l₁ ++ x :: l₂) (hx : x.free = true)
    (hfits : requestSize d o ≤ a.binderBufferSize x.addr) {bufferSize : Nat}
    (hsplit : bufferSize = splitSize (requestSize d o) (a.binderBufferSize x.addr) false) :
    ∃ pages r, a.binderUpdatePageRange env true (pageAlign (x.addr + headerSize))
        (min (pageAlign (x.addr + headerSize + bufferSize)) (pageMask (endOf a.fin l₂))) =
        .ok ({ a with pages := pages }, r) ∧
      (r = true ↔ a.PagesThere env (requestSize d o) x.addr) ∧
      if r then PagesOK { a with pages := pages }
        (l₁ ++ x.allocated d o isAsync :: allocRest x (requestSize d o) bufferSize l₂)
      else pages = a.pages := by
  have hend := ListInv.buffer_end hinv.toListInv hbuf
  have hl := hinv.layout
  have hp := hinv.pages
  rw [hbuf] at hl hp
  obtain ⟨h1, h2, h3⟩ := layout_middle.mp hl
  have hlo := h1.le
  have hhi := h3.le
  have hfin := hinv.aligned.fin_mod
  have hbound := hinv.bound
  have hrange : PageRange a (pageAlign (x.addr + headerSize))
      (min (pageAlign (x.addr + headerSize + bufferSize)) (pageMask (endOf a.fin l₂))) := by
    constructor <;> simp only [pageAlign, pageMask, ulong] <;> omega
  rw [BufferArea.PagesThere, ← hsplit, hend]
  refine updatePageRange_alloc hinv.aligned hrange env false hp ?_
  rcases @splitSize_cases (requestSize d o) (a.binderBufferSize x.addr) false
    (absurd · Bool.false_ne_true) with ⟨heq, hslack⟩ | ⟨heq, hroom⟩
  · rw [hsplit, heq, allocRest, if_neg (by simp), min_pageMask_of_slack (by omega) (by omega)
      (by omega)]
    exact gains_whole hl hfin hbound hx rfl rfl
  · rw [hsplit, heq, allocRest, if_pos (by simp [headerSize])]
    exact gains_split hl hfin hbound hx rfl rfl rfl rfl (by omega)

theorem Inv.bestFit (hinv : a.Inv) (size : Nat) :
    ∃ r, a.bestFit size a.freeBuffers none = .ok r ∧ Fit a size a.freeBuffers.toList none r := by
  refine bestFit_spec size none (fun y hy => ?_) hinv.freeTree.sorted
  obtain ⟨z, hz, rfl, hzf⟩ := mem_freeAddrs.mp (hinv.freeTree.perm.subset hy)
  rw [isFree_eq hz hinv.layout.nodup, hzf]

/-- `binder_alloc_buf` never hits a `BUG_ON`. It returns a buffer if the request can be served
and the pages of the smallest free buffer that is large enough are there, keeps the invariant
then, and leaves the area untouched when it returns `NULL`. -/
theorem binderAllocBuf_outcome (hinv : a.Inv) (env : PageEnv) (d o : UInt32) (isAsync : Bool) :
    (¬a.Suffices d o isAsync ∧ a.binderAllocBuf env d o isAsync = .ok (a, none)) ∨
      a.Suffices d o isAsync ∧ ∃ b, a.Smallest (alignUp d + alignUp o) b ∧
        (¬a.PagesThere env (alignUp d + alignUp o) b ∧
            a.binderAllocBuf env d o isAsync = .ok (a, none) ∨
          a.PagesThere env (alignUp d + alignUp o) b ∧
            ∃ a', a.binderAllocBuf env d o isAsync = .ok (a', some b) ∧ a'.Inv ∧
              AllocResult a d o isAsync a' b) := by
  rw [binderAllocBuf]
  cases hvma : a.vma with
  | false => exact .inl ⟨fun h => by simp [h.vma] at hvma, rfl⟩
  | true =>
    simp only [Bool.not_true, Bool.false_eq_true, if_false]
    split
    next hover =>
      refine .inl ⟨fun h => ?_, rfl⟩
      rw [requestSize_of_lt h.size] at hover
      unfold alignUp at hover
      omega
    rename_i hover
    rw [not_or] at hover
    have hsize := requestSize_exact hover.1 hover.2
    split
    next hasync =>
      refine .inl ⟨fun h => ?_, rfl⟩
      have hbudget := h.budget hasync.1
      omega
    rename_i hasync
    obtain ⟨r, hbest, hfit⟩ := Inv.bestFit hinv (requestSize d o)
    have hmem {y : BinderBuffer} (hy : y ∈ a.buffers) (hyf : y.free = true) :
        y.addr ∈ a.freeBuffers.toList :=
      hinv.freeTree.perm.mem_iff.mpr (mem_freeAddrs.mpr ⟨y, hy, rfl, hyf⟩)
    rw [hbest, ← hsize]
    cases hfit with
    | none hsmall =>
      refine .inl ⟨fun h => ?_, rfl⟩
      obtain ⟨x, hx, hxf, hle⟩ := h.room
      have hless := hsmall x.addr (hmem hx hxf)
      omega
    | @some b exact hb hfits hexact hleast =>
      obtain ⟨x, hx, rfl, hxf⟩ := mem_freeAddrs.mp (hinv.freeTree.perm.subset hb)
      obtain ⟨l₁, l₂, hbuf⟩ := append_of_mem hx
      have hend := ListInv.buffer_end hinv.toListInv hbuf
      have hfin : endOf a.fin l₂ ≤ a.fin := by
        have hl := hinv.layout
        rw [hbuf] at hl
        exact (layout_middle.mp hl).2.2.le
      have hbound := hinv.bound
      have hbudget : isAsync = true → requestSize d o + headerSize ≤ a.freeAsyncSpace := by
        intro has
        simp only [has, true_and, not_lt] at hasync
        rwa [Nat.mod_eq_of_lt (by omega)] at hasync
      refine .inr ⟨⟨hvma, by omega, fun has => hsize ▸ hbudget has, x, hx, hxf, by omega⟩, x.addr,
        ⟨⟨x, hx, rfl, hxf⟩, hfits, fun y hy hyf => hleast y.addr (hmem hy hyf)⟩, ?_⟩
      have hsplit : splitSize (requestSize d o) (a.binderBufferSize x.addr) exact =
          splitSize (requestSize d o) (a.binderBufferSize x.addr) false := by
        cases exact with
        | false => rfl
        | true =>
          rw [hexact rfl]
          exact (if_pos (show _ ≤ _ by omega)).symm
      obtain ⟨pages, r, hup, hr, hpages⟩ := Inv.mapPages isAsync hinv env hbuf hxf hfits rfl
      simp only [bind, Except.bind, hend, hsplit, hup]
      cases r with
      | false =>
        cases hpages
        exact .inl ⟨mt hr.mpr (by decide), rfl⟩
      | true =>
        refine .inr ⟨hr.mp rfl, ?_⟩
        have hcases := @splitSize_cases (requestSize d o) (a.binderBufferSize x.addr) false nofun
        have hinv' : BufferArea.ListInv { a with pages := pages } :=
          { hinv.toListInv with aligned := ⟨hinv.aligned.base, hinv.aligned.size⟩ }
        obtain ⟨a', hok, hli, hpg, hres, hlist⟩ := allocSplit_spec
          (splitSize (requestSize d o) (a.binderBufferSize x.addr) false) isAsync hinv' hbuf hxf
          hsize (show _ ≤ endOf a.fin l₂ by omega) (fun hne => show _ < endOf a.fin l₂ by omega)
          hbudget
        refine ⟨a', by simp only [hok]; rfl, { hli with pages := ⟨?_, fun i hi => ?_⟩ }, ?_⟩
        · rw [hpg, hres.frame.2.1]
          exact hpages.length
        · rw [hpg] at hi ⊢
          rw [hlist, BufferArea.fin, hres.frame.1, hres.frame.2.1]
          exact hpages.page i hi
        · exact ⟨hres.frame, hres.list⟩

theorem binderAllocBuf_spec (hinv : a.Inv) (env : PageEnv) (d o : UInt32) (isAsync : Bool) :
    a.binderAllocBuf env d o isAsync = .ok (a, none) ∨
      ∃ a' b, a.binderAllocBuf env d o isAsync = .ok (a', some b) ∧ a'.Inv ∧
        AllocResult a d o isAsync a' b := by
  rcases binderAllocBuf_outcome hinv env d o isAsync with
    ⟨-, hfail⟩ | ⟨-, b, -, ⟨-, hfail⟩ | ⟨-, a', hok⟩⟩
  · exact .inl hfail
  · exact .inl hfail
  · exact .inr ⟨a', b, hok⟩

end Outcome

end AndroidKernel.Binder
