import AndroidKernel.Binder.BufferAlloc

/-!
# `binder_free_buf` keeps the invariant

The function works in three steps, and `Freeing` is the invariant between them:
the buffer `y` is marked free but is in neither tree, and it may still have
free neighbours. The step over the next buffer and the step over the previous
one remove the neighbours; the last one inserts what is left.
-/

namespace AndroidKernel.Binder

open BufferArea List

/-- The invariant while `binder_free_buf` is at work on the free buffer `y`. -/
structure Freeing (a : BufferArea) (l₁ : List BinderBuffer) (y : BinderBuffer)
    (l₂ : List BinderBuffer) : Prop where
  aligned : PageAligned a
  bound : a.fin < 2 ^ 32
  list : a.buffers = l₁ ++ y :: l₂
  free : y.free = true
  layout : Layout a.fin a.buffer (l₁ ++ y :: l₂)
  apartBefore : NoAdjacentFree l₁
  apartAfter : NoAdjacentFree l₂
  fits : Fits a.fin (l₁ ++ y :: l₂)
  perm : a.freeBuffers.toList.Perm (freeAddrs l₁ ++ freeAddrs l₂)
  sorted : a.freeBuffers.toList.Pairwise fun b c =>
    sizeIn a.fin b (l₁ ++ y :: l₂) ≤ sizeIn a.fin c (l₁ ++ y :: l₂)
  allocTree : a.allocatedBuffers.toList = allocAddrs (l₁ ++ y :: l₂)
  async : a.freeAsyncSpace + asyncSum (l₁ ++ y :: l₂) = a.bufferSize / 2
  pages : PagesOK a (l₁ ++ y :: l₂)

variable {a : BufferArea} {l₁ l₂ : List BinderBuffer} {x : BinderBuffer}

/-- Deleting the free buffer `x` behind the free buffer `p`. -/
theorem binderDeleteFreeBuffer_spec {p : BinderBuffer} (env : PageEnv) (haligned : PageAligned a)
    (hbuf : a.buffers = l₁ ++ p :: x :: l₂) (hl : Layout a.fin a.buffer (l₁ ++ p :: x :: l₂))
    (hpages : PagesOK a (l₁ ++ p :: x :: l₂)) (hp : p.free = true) (hx : x.free = true) :
    ∃ pages, a.binderDeleteFreeBuffer env x.addr
        = .ok { a with buffers := l₁ ++ p :: l₂, pages := pages } ∧
      PagesOK { a with buffers := l₁ ++ p :: l₂, pages := pages } (l₁ ++ p :: l₂) := by
  have hfin := haligned.fin_mod
  have hnd := hl.nodup
  have hassoc : l₁ ++ p :: x :: l₂ = (l₁ ++ [p]) ++ x :: l₂ := by simp
  have hl' := hl
  rw [hassoc] at hl' hnd
  have hnot := hl'.notMem.1
  have hprev : prevOf x.addr a.buffers = some p := by
    rw [hbuf, hassoc, prevOf_middle hnd]
    simp
  have hnext : nextOf x.addr a.buffers = l₂.head? := by
    rw [hbuf, hassoc, nextOf_middle hnot]
  have hdel : deleteAt x.addr a.buffers = l₁ ++ p :: l₂ := by
    rw [hbuf, hassoc, deleteAt_middle hnot]
    simp
  obtain ⟨hlo, hhi⟩ := hl.bounds (x := x) (by simp)
  have hbase := haligned.base
  simp only [binderDeleteFreeBuffer, hprev, hp, hnext, hdel]
  have hused := used_delete hl hfin hp hx
  generalize freePageFlags x.addr p.addr l₂.head? = flags at hused
  obtain ⟨fs, fe⟩ := flags
  split
  next hsome =>
    have hrange : PageRange a (if fs then bufferStartPage x.addr else bufferEndPage x.addr)
        ((if fe then bufferEndPage x.addr else bufferStartPage x.addr) + 4096) := by
      constructor <;> simp only [bufferStartPage, bufferEndPage, pageMask, headerSize] at * <;>
        split <;> omega
    simp only [hsome, true_and] at hused
    have hgains : Gains a.fin (l₁ ++ p :: l₂) (l₁ ++ p :: x :: l₂) _ _ := hused
    obtain ⟨pages, r, hup, hok⟩ := updatePageRange_free (a := { a with buffers := l₁ ++ p :: l₂ })
      ⟨haligned.base, haligned.size⟩ ⟨hrange.start_mod, hrange.stop_mod, hrange.base_le,
        hrange.le_fin⟩ env ⟨hpages.length, hpages.page⟩ hgains
    exact ⟨pages, by rw [hup]; rfl, hok⟩
  next hnone =>
    refine ⟨a.pages, rfl, hpages.length, fun i hi => (hpages.page i hi).trans (congrArg some ?_)⟩
    exact Bool.eq_iff_iff.mpr ((hused _).2.trans (or_iff_left fun hq => hnone hq.1))

section Stages

variable {a : BufferArea} {l₁ l₂ : List BinderBuffer} {x y : BinderBuffer}

/-- The first step turns an allocated buffer into one that is being freed. -/
theorem freeBufRelease_spec (hinv : a.Inv) (env : PageEnv)
    (hbuf : a.buffers = l₁ ++ x :: l₂) (hx : x.free = false) (htx : x.transaction = none) :
    ∃ a', a.freeBufRelease env x = .ok a' ∧ Freeing a' l₁ { x with free := true } l₂ ∧
      a'.buffer = a.buffer ∧ a'.bufferSize = a.bufferSize ∧ a'.vma = a.vma := by
  have hfin := hinv.aligned.fin_mod
  have hl := hinv.layout
  rw [hbuf] at hl
  obtain ⟨h1, h2, h3⟩ := layout_middle.mp hl
  have hlo := h1.le
  have hhi := h3.le
  have hnot := ListInv.notMem hinv.toListInv hbuf
  have hend := ListInv.buffer_end hinv.toListInv hbuf
  have hfits := hinv.fits x (by rw [hbuf]; simp) hx
  rw [← binderBufferSize] at hfits
  have hbound := hinv.bound
  have hreq : requestSize x.dataSize x.offsetsSize
      = alignUp x.dataSize + alignUp x.offsetsSize := requestSize_of_lt (by omega)
  -- none of the checks fires
  have hc1 : decide (requestSize x.dataSize x.offsetsSize > a.binderBufferSize x.addr)
      = false := decide_eq_false (by omega)
  have hc2 : decide (x.addr < a.buffer) = false := decide_eq_false (by omega)
  have hfd : a.fin = a.buffer + a.bufferSize := rfl
  have hc3 : decide (x.addr > a.buffer + a.bufferSize) = false := decide_eq_false (by omega)
  -- the data pages
  let f := if x.asyncTransaction then
      (a.freeAsyncSpace + (requestSize x.dataSize x.offsetsSize + headerSize)) % 2 ^ 32
    else a.freeAsyncSpace
  have hp := hinv.pages
  rw [hbuf] at hp
  have hrange : PageRange a (pageAlign (x.addr + headerSize)) (pageMask (endOf a.fin l₂)) := by
    constructor <;> simp only [pageAlign, pageMask, ulong] <;> omega
  have hlayout : Layout a.fin a.buffer (l₁ ++ { x with free := true } :: l₂) :=
    layout_middle.mpr ⟨h1, h2, h3⟩
  have hgains : Gains a.fin (l₁ ++ { x with free := true } :: l₂) (l₁ ++ x :: l₂) _ _ :=
    gains_whole hlayout hfin hinv.bound rfl hx rfl
  obtain ⟨pages, r, hup, hok⟩ := updatePageRange_free (a := { a with freeAsyncSpace := f })
    ⟨hinv.aligned.base, hinv.aligned.size⟩ ⟨hrange.start_mod, hrange.stop_mod, hrange.base_le,
      hrange.le_fin⟩ env ⟨hp.length, hp.page⟩ hgains
  let a' : BufferArea := { a with
    freeAsyncSpace := f
    pages := pages
    allocatedBuffers := a.allocatedBuffers.rbErase x.addr
    buffers := l₁ ++ { x with free := true } :: l₂ }
  refine ⟨a', ?_, ?_, rfl, rfl, rfl⟩
  · have hf : (if x.asyncTransaction = true then
        { a with freeAsyncSpace :=
          (a.freeAsyncSpace + (requestSize x.dataSize x.offsetsSize + headerSize)) % 2 ^ 32 }
      else a) = { a with freeAsyncSpace := f } := by
      cases hs : x.asyncTransaction <;> simp [f, hs]
    simp only [freeBufRelease, hx, htx, hc1, hc2, hc3, hend, hf, bind, Except.bind, hup]
    simp only [BufferArea.modify, hbuf, modifyAt_middle hnot.1]
    rfl
  · have hap := hinv.apart
    rw [hbuf] at hap
    obtain ⟨p1, p2, -, -⟩ := noAdjacentFree_middle.mp hap
    have haddr : addrs (l₁ ++ { x with free := true } :: l₂) = addrs (l₁ ++ x :: l₂) := by simp
    exact {
      aligned := ⟨hinv.aligned.base, hinv.aligned.size⟩
      bound := hinv.bound
      list := rfl
      free := rfl
      layout := hlayout
      apartBefore := p1
      apartAfter := p2
      fits := Fits.replace [x] [{ x with free := true }] l₂ (hbuf ▸ hinv.fits) rfl hl.nodup
        (by simpa [haddr] using hl.nodup) (by simp)
      perm := by
        have := hinv.freeTree.perm
        rwa [hbuf, freeAddrs_append, freeAddrs_cons, if_neg (by simp [hx])] at this
      sorted := by
        refine hinv.freeTree.sorted.imp fun {b c} hle => ?_
        rw [sizeIn_congr haddr, sizeIn_congr haddr, ← hbuf]
        exact hle
      allocTree := by
        rw [Rbtree.toList_rbErase, hinv.allocTree, hbuf, allocAddrs_append, allocAddrs_append,
          allocAddrs_cons, allocAddrs_cons, if_neg (by simp [hx]), if_pos rfl,
          erase_append_right _ fun h => hnot.1 ((allocAddrs_sublist _).subset h), erase_cons_head]
      async := by
        have hold := hinv.async
        rw [hbuf, asyncSum_append, asyncSum_cons] at hold
        show f + asyncSum (l₁ ++ { x with free := true } :: l₂) = a.bufferSize / 2
        rw [asyncSum_append, asyncSum_cons]
        cases hs : x.asyncTransaction with
        | false => simp [asyncCharge, hs, f] at hold ⊢; omega
        | true =>
          simp only [asyncCharge, hs, hx, f, if_true, Bool.not_false, Bool.not_true,
            Bool.and_self, Bool.false_and, Bool.false_eq_true, if_false] at hold ⊢
          omega
      pages := ⟨hok.length, hok.page⟩ }

/-- Two neighbouring free buffers, one of which is being freed, become one, and the one that
was in the free tree is taken out of it. -/
theorem Freeing.merge {l l' : List BinderBuffer} {p n : BinderBuffer} {q : Nat}
    {pages : List Bool} (h : Freeing a l y l') (hl : l ++ y :: l' = l₁ ++ p :: n :: l₂)
    (hp : p.free = true) (hn : n.free = true) (hbefore : NoAdjacentFree l₁)
    (hafter : NoAdjacentFree l₂)
    (hperm : a.freeBuffers.toList.Perm (q :: (freeAddrs l₁ ++ freeAddrs l₂)))
    (hpages : PagesOK { a with buffers := l₁ ++ p :: l₂, pages := pages } (l₁ ++ p :: l₂)) :
    Freeing { a with
      buffers := l₁ ++ p :: l₂
      pages := pages
      freeBuffers := a.freeBuffers.rbErase q } l₁ p l₂ := by
  have hlayout := h.layout
  have hfits := h.fits
  have hsorted := h.sorted
  have htree := h.allocTree
  have hasync := h.async
  rw [hl] at hlayout hfits hsorted htree hasync
  have hnd := hlayout.nodup
  obtain ⟨g1, g2, g3, g4, g5⟩ := layout_middle.mp hlayout
  have hlayout' : Layout a.fin a.buffer (l₁ ++ p :: l₂) := by
    refine layout_middle.mpr ⟨g1, ?_, g5⟩
    omega
  have herase : (a.freeBuffers.toList.erase q).Perm (freeAddrs l₁ ++ freeAddrs l₂) := by
    have := hperm.erase q
    rwa [erase_cons_head] at this
  have hmem : ∀ b ∈ a.freeBuffers.toList.erase q, b ∉ addrs [p, n] ∧ b ∉ addrs [p] := by
    intro b hb
    have hb := (mem_append.mp (herase.subset hb)).imp freeAddrs_subset freeAddrs_subset
    exact ⟨notMem_segment hnd hb, notMem_segment hlayout'.nodup hb⟩
  exact {
    aligned := ⟨h.aligned.base, h.aligned.size⟩
    bound := h.bound
    list := rfl
    free := hp
    layout := hlayout'
    apartBefore := hbefore
    apartAfter := hafter
    fits := by
      refine Fits.replace [p, n] [p] l₂ hfits rfl hnd hlayout'.nodup ?_
      intro z hz hzf
      rw [mem_singleton.mp hz, hp] at hzf
      cases hzf
    perm := by
      rwa [Rbtree.toList_rbErase]
    sorted := by
      rw [Rbtree.toList_rbErase]
      exact sorted_replace [p, n] [p] (hsorted.sublist erase_sublist) rfl hmem
    allocTree := by
      rw [htree, allocAddrs_append, allocAddrs_append, allocAddrs_cons, allocAddrs_cons,
        allocAddrs_cons, if_pos hn, if_pos hp]
    async := by
      have hn0 : asyncCharge n = 0 := by simp [asyncCharge, hn]
      simp only [asyncSum_append, asyncSum_cons] at hasync ⊢
      omega
    pages := ⟨hpages.length, hpages.page⟩ }

/-- The buffer that is being freed swallows a free successor. -/
theorem freeBufMergeNext_spec (h : Freeing a l₁ y l₂) (env : PageEnv) :
    ∃ a' l₂', a.freeBufMergeNext env y.addr = .ok a' ∧ Freeing a' l₁ y l₂' ∧
      (∀ n ∈ l₂'.head?, n.free = false) ∧ (l₂ = l₂' ∨ ∃ n, n.free = true ∧ l₂ = n :: l₂') ∧
      a'.buffer = a.buffer ∧ a'.bufferSize = a.bufferSize ∧ a'.vma = a.vma := by
  have hnext : nextOf y.addr a.buffers = l₂.head? := by
    rw [h.list, nextOf_middle h.layout.notMem.1]
  rw [freeBufMergeNext, hnext]
  cases l₂ with
  | nil => exact ⟨a, [], rfl, h, by simp, .inl rfl, rfl, rfl, rfl⟩
  | cons n l₂ =>
    cases hn : n.free with
    | false =>
      exact ⟨a, n :: l₂, by simp [hn], h, by simp [hn], .inl rfl, rfl, rfl, rfl⟩
    | true =>
      simp only [head?_cons, hn]
      obtain ⟨pages, hdel, hok⟩ := binderDeleteFreeBuffer_spec
        (a := { a with freeBuffers := a.freeBuffers.rbErase n.addr }) env
        ⟨h.aligned.base, h.aligned.size⟩ h.list h.layout ⟨h.pages.length, h.pages.page⟩
        h.free hn
      obtain ⟨hapart, hafter⟩ := isChain_cons.mp h.apartAfter
      have hperm := h.perm
      rw [freeAddrs_cons, if_pos hn] at hperm
      refine ⟨_, l₂, hdel, h.merge rfl h.free hn h.apartBefore hafter
        (hperm.trans perm_middle) ⟨hok.length, hok.page⟩, ?_, .inr ⟨n, hn, rfl⟩, rfl, rfl, rfl⟩
      intro m hm
      simpa [hn] using hapart m hm

/-- The insertion into the free tree ends the work on the buffer. -/
theorem Freeing.insert (h : Freeing a l₁ y l₂) (hhead : ∀ n ∈ l₂.head?, n.free = false)
    (hlast : ∀ p ∈ l₁.getLast?, p.free = false) :
    ∃ a', a.binderInsertFreeBuffer y.addr = .ok a' ∧ a'.Inv ∧ a'.buffers = l₁ ++ y :: l₂ ∧
      (l₁ = [] → l₂ = [] → a'.freeBuffers = .node .black .nil y.addr .nil) ∧
      a'.buffer = a.buffer ∧ a'.bufferSize = a.bufferSize ∧ a'.vma = a.vma := by
  obtain ⟨haligned, hbound, hlist, hfree, hlayout, hbefore, hafter, hfits, hperm, hsorted, halloc,
    hasync, hpages⟩ := h
  rw [← hlist] at hlayout hfits hsorted halloc hasync hpages
  obtain ⟨t, ht, htree, hnil⟩ := insertFreeBuffer_spec hlayout.nodup (by simp [hlist]) hfree
    (by
      rw [hlist, freeAddrs_append, freeAddrs_cons, if_pos hfree]
      exact (hperm.cons _).trans perm_middle.symm)
    hsorted
  refine ⟨_, ht, ?_, hlist, ?_, rfl, rfl, rfl⟩
  · exact {
      aligned := ⟨haligned.base, haligned.size⟩
      bound := hbound
      layout := hlayout
      nonempty := show a.buffers ≠ [] by simp [hlist]
      apart := by
        rw [hlist, noAdjacentFree_middle]
        refine ⟨hbefore, hafter, fun p hp => ?_, fun n hn => ?_⟩
        · simp [hlast p hp]
        · simp [hhead n hn]
      fits := hfits
      freeTree := htree
      allocTree := halloc
      async := hasync
      pages := ⟨hpages.length, hpages.page⟩ }
  · rintro rfl rfl
    exact hnil (Rbtree.eq_nil_of_toList hperm.eq_nil)

/-- What is left of the freed buffer goes into the free tree, inside a free
predecessor if there is one. -/
theorem freeBufMergePrev_spec (h : Freeing a l₁ y l₂)
    (hhead : ∀ n ∈ l₂.head?, n.free = false) (env : PageEnv) :
    ∃ a' l₁' z, a.freeBufMergePrev env y.addr = .ok a' ∧ a'.Inv ∧
      a'.buffers = l₁' ++ z :: l₂ ∧ z.free = true ∧
      (l₁ = l₁' ∧ z = y ∧ (∀ p ∈ l₁.getLast?, p.free = false) ∨ l₁ = l₁' ++ [z]) ∧
      (l₁' = [] → l₂ = [] → a'.freeBuffers = .node .black .nil z.addr .nil) ∧
      a'.buffer = a.buffer ∧ a'.bufferSize = a.bufferSize ∧ a'.vma = a.vma := by
  have hprev : prevOf y.addr a.buffers = l₁.getLast? := by
    rw [h.list, prevOf_middle h.layout.nodup]
  rw [freeBufMergePrev, hprev]
  rcases eq_nil_or_concat' l₁ with rfl | ⟨l₀, p, rfl⟩
  · obtain ⟨a', h1, h2, h3, h4⟩ := h.insert hhead (by simp)
    exact ⟨a', [], y, h1, h2, h3, h.free, .inl ⟨rfl, rfl, by simp⟩, h4⟩
  have hlast : (l₀ ++ [p]).getLast? = some p := by simp
  rw [hlast]
  cases hp : p.free with
  | false =>
    have hlf : ∀ q ∈ (l₀ ++ [p]).getLast?, q.free = false := by simp [hp]
    obtain ⟨a', h1, h2, h3, h4⟩ := h.insert hhead hlf
    exact ⟨a', l₀ ++ [p], y, by simpa [hp] using h1, h2, h3, h.free,
      .inl ⟨rfl, rfl, by simp [hp]⟩, h4⟩
  | true =>
    obtain ⟨hbefore, -, hapart, -⟩ := noAdjacentFree_middle.mp h.apartBefore
    have hassoc : ∀ s, (l₀ ++ [p]) ++ s = l₀ ++ p :: s := by simp
    have hlist := h.list
    have hlay := h.layout
    have hpg := h.pages
    have hperm := h.perm
    rw [hassoc] at hlist hlay hpg
    rw [freeAddrs_append, freeAddrs_cons, if_pos hp, append_assoc] at hperm
    simp only [hp]
    obtain ⟨pages, hdel, hok⟩ := binderDeleteFreeBuffer_spec env h.aligned hlist hlay
      hpg hp h.free
    simp only [hdel]
    have hnew := h.merge (hassoc _) hp h.free hbefore h.apartAfter (hperm.trans perm_middle)
      hok
    obtain ⟨a', h1, h2, h3, h4⟩ := hnew.insert hhead (by
      intro q hq
      simpa [hp] using hapart q hq)
    exact ⟨a', l₀, p, h1, h2, h3, hp, .inr rfl, h4⟩

end Stages

/-- What `binder_free_buf` does to the list `l₁ ++ x :: l₂`: the buffer `x` and
its free neighbours become one free buffer `z`. -/
structure FreeResult (a : BufferArea) (l₁ : List BinderBuffer) (x : BinderBuffer)
    (l₂ : List BinderBuffer) (a' : BufferArea) : Prop where
  frame : a'.buffer = a.buffer ∧ a'.bufferSize = a.bufferSize ∧ a'.vma = a.vma
  list : ∃ l₁' l₂' z, a'.buffers = l₁' ++ z :: l₂' ∧ z.free = true ∧
    (l₁ = l₁' ∧ z = { x with free := true } ∧ (∀ p ∈ l₁.getLast?, p.free = false) ∨
      l₁ = l₁' ++ [z]) ∧
    (l₂ = l₂' ∨ ∃ n, n.free = true ∧ l₂ = n :: l₂')
  tree : ∀ z, a'.buffers = [z] → a'.freeBuffers = .node .black .nil z.addr .nil

/-- `binder_free_buf` of an allocated buffer never hits a `BUG_ON` and keeps the
invariant. -/
theorem binderFreeBuf_spec (hinv : a.Inv) (env : PageEnv) (hbuf : a.buffers = l₁ ++ x :: l₂)
    (hfree : x.free = false) (htx : x.transaction = none) :
    ∃ a', a.binderFreeBuf env x.addr = .ok a' ∧ a'.Inv ∧ FreeResult a l₁ x l₂ a' := by
  have hx : x ∈ a.buffers := by simp [hbuf]
  obtain ⟨a₁, h1, hf1, e1⟩ := freeBufRelease_spec hinv env hbuf hfree htx
  obtain ⟨a₂, l₂', h2, hf2, hhead, hl₂, e2⟩ := freeBufMergeNext_spec hf1 env
  obtain ⟨a₃, l₁', z, h3, hinv3, hb3, hz, hl₁, htree, e3⟩ := freeBufMergePrev_spec hf2 hhead env
  refine ⟨a₃, ?_, hinv3, ?_, ⟨l₁', l₂', z, hb3, hz, hl₁, hl₂⟩, ?_⟩
  · simp only [binderFreeBuf, find_eq hx hinv.layout.nodup, h1, bind, Except.bind]
    simp only [h2, h3]
  · exact ⟨e3.1.trans (e2.1.trans e1.1), e3.2.1.trans (e2.2.1.trans e1.2.1),
      e3.2.2.trans (e2.2.2.trans e1.2.2)⟩
  · intro w hw
    obtain ⟨rfl, rfl, rfl⟩ : l₁' = [] ∧ z = w ∧ l₂' = [] := by
      cases l₁' <;> simp_all
    exact htree rfl rfl

end AndroidKernel.Binder
