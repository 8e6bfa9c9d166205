import AndroidKernel.Binder.BufferRuns

/-!
# Freeing everything, in any order

Every free merges with its free neighbours at once, so that no two neighbours
are ever both free. When nothing is allocated any more only one buffer can be
left, and the invariant fixes everything else about the area. The header of that
buffer is the one at the start of the area, which no free rewrites.
-/

namespace AndroidKernel.Binder

open BufferArea List

/-- Freeing a sequence of buffers, each call in its own surroundings. -/
def BufferArea.freeAll (a : BufferArea) : List (PageEnv × Nat) → Except Fault BufferArea
  | [] => .ok a
  | (env, b) :: calls => do
    let a ← a.releaseBuf env b
    a.freeAll calls

/-- The header `x` as it will be when the buffer is free. -/
def BinderBuffer.settled (x : BinderBuffer) : BinderBuffer :=
  if x.free then x else { x with free := true, transaction := none }

/-- The header at the start of the area, as it will be when that buffer is free. -/
def BufferArea.firstSettled (a : BufferArea) : Option BinderBuffer :=
  a.buffers.head?.map BinderBuffer.settled

variable {a a' : BufferArea}

/-- `binder_free_buf` as its callers call it never hits a `BUG_ON`. -/
theorem releaseBuf_spec (h : a.Inv) (env : PageEnv) {x : BinderBuffer}
    {l₁ l₂ : List BinderBuffer} (hbuf : a.buffers = l₁ ++ x :: l₂) (hfree : x.free = false) :
    ∃ a', a.releaseBuf env x.addr = .ok a' ∧ a'.Inv ∧
      FreeResult a l₁ { x with transaction := none } l₂ a' := by
  have hnot := ListInv.notMem h.toListInv hbuf
  have hbuf' : (a.modify x.addr fun x => { x with transaction := none }).buffers
      = l₁ ++ { x with transaction := none } :: l₂ := by
    rw [BufferArea.modify, hbuf, modifyAt_middle hnot.1]
  have hinv := Inv.modify h x.addr (f := fun x => { x with transaction := none })
    fun x => ⟨rfl, rfl, fun _ => ⟨rfl, rfl, rfl⟩⟩
  obtain ⟨a', hok, hinv', hframe, hlist, htree⟩ := binderFreeBuf_spec hinv env hbuf' hfree rfl
  exact ⟨a', hok, hinv', hframe, hlist, htree⟩

section Result

variable {a a' : BufferArea} {x : BinderBuffer} {l₁ l₂ : List BinderBuffer}

/-- One free removes one address from the allocated buffers. -/
theorem FreeResult.allocAddrs_eq (h : a.Inv) (hbuf : a.buffers = l₁ ++ x :: l₂)
    (hfree : x.free = false) (hres : FreeResult a l₁ { x with transaction := none } l₂ a') :
    allocAddrs a'.buffers = (allocAddrs a.buffers).erase x.addr := by
  obtain ⟨l₁', l₂', z, hb', hz, h1, h2⟩ := hres.list
  have hnot := ListInv.notMem h.toListInv hbuf
  have hl₁ : allocAddrs l₁ = allocAddrs l₁' := by
    rcases h1 with ⟨rfl, -⟩ | rfl
    · rfl
    · simp [allocAddrs_cons, hz]
  have hl₂ : allocAddrs l₂ = allocAddrs l₂' := by
    rcases h2 with rfl | ⟨n, hn, rfl⟩
    · rfl
    · simp [allocAddrs_cons, hn]
  rw [hb', hbuf, allocAddrs_append, allocAddrs_append, allocAddrs_cons, allocAddrs_cons,
    if_pos hz, if_neg (by simp [hfree]),
    erase_append_right _ fun hm => hnot.1 ((allocAddrs_sublist _).subset hm), erase_cons_head,
    hl₁, hl₂]

/-- No free changes what the first header will be in the end. -/
theorem FreeResult.firstSettled_eq (hbuf : a.buffers = l₁ ++ x :: l₂) (hfree : x.free = false)
    (hres : FreeResult a l₁ { x with transaction := none } l₂ a') :
    a'.firstSettled = a.firstSettled := by
  obtain ⟨l₁', l₂', z, hb', hz, h1, -⟩ := hres.list
  rw [BufferArea.firstSettled, BufferArea.firstSettled, hb', hbuf]
  rcases h1 with ⟨rfl, rfl, -⟩ | rfl
  · cases l₁ with
    | nil => simp [BinderBuffer.settled, hfree]
    | cons y l => rfl
  · cases l₁' with
    | nil | cons y l => rfl

end Result

/-- An area without allocated buffers is one free buffer. -/
theorem Inv.eq_singleton (h : a.Inv) (hnone : allocAddrs a.buffers = []) :
    ∃ z, a.buffers = [z] ∧ z.free = true ∧ z.addr = a.buffer := by
  have hfree : ∀ x ∈ a.buffers, x.free = true := by
    intro x hx
    by_contra hne
    have hmem := mem_allocAddrs.mpr ⟨x, hx, rfl, Bool.eq_false_of_not_eq_true hne⟩
    rw [hnone] at hmem
    cases hmem
  have hap := h.apart
  have hl := h.layout
  match hb : a.buffers with
  | [] => exact absurd hb h.nonempty
  | [z] =>
    rw [hb] at hl
    exact ⟨z, rfl, hfree z (by simp [hb]), hl.1⟩
  | x :: y :: l =>
    rw [hb] at hap
    exact absurd ⟨hfree x (by simp [hb]), hfree y (by simp [hb])⟩
      ((isChain_cons.mp hap).1 y rfl)

theorem Inv.pages_eq (h : a.Inv) {z : BinderBuffer} (hb : a.buffers = [z]) (hz : z.free = true) :
    a.pages = true :: replicate (a.bufferSize / 4096 - 1) false := by
  have hl := h.layout
  rw [hb] at hl
  obtain ⟨haddr, hroom, -⟩ := hl
  have hbase := h.aligned.base
  have hsize := h.aligned.size
  simp only [headerSize, endOf, BufferArea.fin] at hroom
  refine ext_getElem? fun i => ?_
  have hused : used a.fin [z] (a.buffer / 4096 + i) = decide (i = 0) := by
    rw [Bool.eq_iff_iff, used_cons_iff, BinderBuffer.usedEnd, if_pos hz]
    simp only [used, headerSize, decide_eq_true_eq, Bool.false_eq_true, or_false]
    omega
  rw [pagesOK_iff.mp h.pages i, hb, hused]
  cases i with
  | zero => exact if_pos (by omega)
  | succ i =>
    rw [List.getElem?_cons_succ, List.getElem?_replicate]
    exact if_congr (by omega) rfl rfl

/-- The state in which every order of freeing all buffers ends. -/
def BufferArea.emptied (a : BufferArea) : BufferArea :=
  { a with
    buffers := a.firstSettled.toList
    freeBuffers := if a.allocatedBuffers.toList = [] then a.freeBuffers
      else .node .black .nil a.buffer .nil
    allocatedBuffers := .nil
    freeAsyncSpace := a.bufferSize / 2
    pages := true :: replicate (a.bufferSize / 4096 - 1) false }

section

variable {a : BufferArea} (h : a.Inv)

include h

/-- An area without allocated buffers is determined by its first header and its
free tree. -/
theorem Inv.eq_emptied (hnone : allocAddrs a.buffers = []) : a = a.emptied := by
  obtain ⟨z, hb, hz, haddr⟩ := Inv.eq_singleton h hnone
  have hpages := Inv.pages_eq h hb hz
  have halloc : a.allocatedBuffers.toList = [] := h.allocTree.trans hnone
  have hasync := h.async
  rw [hb, asyncSum_cons, asyncCharge, hz] at hasync
  have hfirst : a.firstSettled.toList = a.buffers := by
    simp [BufferArea.firstSettled, hb, BinderBuffer.settled, hz]
  rw [BufferArea.emptied, if_pos halloc, hfirst, ← hpages]
  rw [show a.bufferSize / 2 = a.freeAsyncSpace by simpa using hasync.symm,
    ← Rbtree.eq_nil_of_toList halloc]

theorem Inv.emptied_buffers : ∃ z, a.emptied.buffers = [z] ∧ z.free = true ∧ z.addr = a.buffer := by
  have hl := h.layout
  cases hb : a.buffers with
  | nil => exact absurd hb h.nonempty
  | cons x l =>
    rw [hb] at hl
    refine ⟨x.settled, ?_, ?_, ?_⟩
    · simp [BufferArea.emptied, BufferArea.firstSettled, hb]
    · rw [BinderBuffer.settled]
      split <;> simp_all
    · rw [BinderBuffer.settled]
      split <;> exact hl.1

theorem Inv.emptied_freeBuffers : a.emptied.freeBuffers.toList = [a.buffer] := by
  rw [BufferArea.emptied]
  split
  next hnone =>
    obtain ⟨z, hb, hz, haddr⟩ := Inv.eq_singleton h (h.allocTree.symm.trans hnone)
    have hperm := h.freeTree.perm
    rw [hb, freeAddrs_cons, if_pos hz, haddr] at hperm
    exact perm_singleton.mp hperm
  · rfl

theorem freeAll_eq {calls : List (PageEnv × Nat)}
    (hperm : (calls.map Prod.snd).Perm a.allocatedBuffers.toList) :
    a.freeAll calls = .ok a.emptied := by
  induction calls generalizing a with
  | nil =>
    have hnone : allocAddrs a.buffers = [] := h.allocTree.symm.trans hperm.nil_eq.symm
    exact congrArg Except.ok (Inv.eq_emptied h hnone)
  | cons c calls ih =>
    obtain ⟨env, b⟩ := c
    have hmem : b ∈ a.allocatedBuffers.toList := hperm.subset (by simp)
    have hmem' := hmem
    rw [h.allocTree] at hmem'
    obtain ⟨x, hx, rfl, hfree⟩ := mem_allocAddrs.mp hmem'
    obtain ⟨l₁, l₂, hbuf⟩ := append_of_mem hx
    obtain ⟨a', hok, hinv, hres⟩ := releaseBuf_spec h env hbuf hfree
    have halloc : a'.allocatedBuffers.toList = a.allocatedBuffers.toList.erase x.addr := by
      rw [hinv.allocTree, hres.allocAddrs_eq h hbuf hfree, h.allocTree]
    have hperm' : (calls.map Prod.snd).Perm a'.allocatedBuffers.toList := by
      rw [halloc]
      simpa using hperm.erase x.addr
    rw [BufferArea.freeAll, hok]
    show a'.freeAll calls = _
    rw [ih hinv hperm']
    -- the target state is the same as before the call
    obtain ⟨hbase, hsize, hvma⟩ := hres.frame
    have htree : (if a'.allocatedBuffers.toList = [] then a'.freeBuffers
        else .node .black .nil a'.buffer .nil) = .node .black .nil a.buffer .nil := by
      split
      next hnone =>
        obtain ⟨z, hb, -, haddr⟩ := Inv.eq_singleton hinv (hinv.allocTree.symm.trans hnone)
        rw [hres.tree z hb, haddr, hbase]
      · rw [hbase]
    rw [BufferArea.emptied, BufferArea.emptied, htree, if_neg (ne_nil_of_mem hmem),
      hres.firstSettled_eq hbuf hfree, hbase, hsize, hvma]

end

/-- A successful `binder_alloc_buf` is undone by freeing its buffer. -/
theorem releaseBuf_after_alloc (h : a.Inv) {env : PageEnv}
    (env' : PageEnv) {d o : UInt32} {isAsync : Bool} {b : Nat}
    (halloc : a.binderAllocBuf env d o isAsync = .ok (a', some b)) :
    ∃ a'', a'.releaseBuf env' b = .ok a'' ∧ a''.Inv ∧ SameShapes a.buffers a''.buffers ∧
      a''.buffers = modifyAt b (fun x => (x.allocated d o isAsync).settled) a.buffers ∧
      a''.buffer = a.buffer ∧ a''.bufferSize = a.bufferSize := by
  rcases binderAllocBuf_spec h env d o isAsync with hfail | ⟨a₁, b₁, hok, hinv', hres⟩
  · rw [hfail] at halloc
    cases halloc
  rw [hok] at halloc
  cases halloc
  obtain ⟨hframe, l₁, x, l₂, bufferSize, hbuf, hxf, rfl, hbuf'⟩ := hres
  have hap := h.apart
  rw [hbuf] at hap
  obtain ⟨-, -, hprev, hnext⟩ := noAdjacentFree_middle.mp hap
  obtain ⟨a'', hok'', hinv'', hres''⟩ := releaseBuf_spec hinv' env' hbuf' rfl
  obtain ⟨l₁', l₂', z, hb'', hz, h1, h2⟩ := hres''.list
  -- the buffer before `x` is allocated, so that nothing is merged on that side
  obtain ⟨rfl, rfl⟩ : l₁ = l₁' ∧ z = { x.allocated d o isAsync with
      transaction := none, free := true } := by
    rcases h1 with ⟨e1, e2, -⟩ | e1
    · exact ⟨e1, e2⟩
    · exact absurd ⟨hz, hxf⟩ (hprev z (by simp [e1]))
  -- and on the other side only the remainder that the allocation split off
  have hap'' := hinv''.apart
  rw [hb''] at hap''
  obtain ⟨-, -, -, hnext''⟩ := noAdjacentFree_middle.mp hap''
  have hl₂ : l₂' = l₂ := by
    rw [allocRest] at h2
    split at h2
    · rcases h2 with rfl | ⟨n, -, h2⟩
      · exact absurd ⟨hz, rfl⟩ (hnext'' _ rfl)
      · exact (cons.inj h2).2.symm
    · rcases h2 with h2 | ⟨n, hn, h2⟩
      · exact h2.symm
      · exact absurd ⟨hxf, hn⟩ (hnext n (by simp [h2]))
  refine ⟨a'', hok'', hinv'', ?_, ?_, hres''.frame.1.trans hframe.1,
    hres''.frame.2.1.trans hframe.2.1⟩
  · rw [hbuf, hb'', hl₂]
    refine rel_append (SameShapes.refl l₁)
      (Forall₂.cons ⟨rfl, hxf, fun hf => ?_⟩ (SameShapes.refl l₂))
    rw [hxf] at hf
    cases hf
  · rw [hbuf, modifyAt_middle (ListInv.notMem h.toListInv hbuf).1, hb'', hl₂]
    rfl

/-- Areas with the same shapes have the same pages and async budget. -/
theorem Inv.eq_of_sameShapes (h : a.Inv) (h' : a'.Inv)
    (hl : SameShapes a.buffers a'.buffers) (hbase : a'.buffer = a.buffer)
    (hsize : a'.bufferSize = a.bufferSize) :
    a'.pages = a.pages ∧ a'.freeAsyncSpace = a.freeAsyncSpace := by
  constructor
  · refine ext_getElem? fun i => ?_
    rw [pagesOK_iff.mp h.pages i, pagesOK_iff.mp h'.pages i, hl.used_eq, BufferArea.fin,
      BufferArea.fin, hbase, hsize]
  · have h1 := h.async
    have h2 := h'.async
    rw [← hl.asyncSum_eq] at h2
    omega

/-- From any state of the area, freeing all allocated buffers ends in one and the
same state whatever the order: a single free buffer, the page of its header, no
allocated buffer and the full async budget. And freeing a buffer right after its
allocation restores the buffers, the pages and the budget; the request stays behind in
the header, and every other header is what it was. -/
theorem reachable_freeAll_confluent (h : a.Reachable) : (∃ a', (∀ calls : List (PageEnv × Nat),
          (calls.map Prod.snd).Perm a.allocatedBuffers.toList → a.freeAll calls = .ok a') ∧
        (∃ z, a'.buffers = [z] ∧ z.free = true ∧ z.addr = a.buffer) ∧
        a'.freeBuffers.toList = [a.buffer] ∧ a'.allocatedBuffers = .nil ∧
        a'.pages = true :: replicate (a.bufferSize / 4096 - 1) false ∧
        a'.freeAsyncSpace = a.bufferSize / 2) ∧
      ∀ env env' d o isAsync a₁ b, a.binderAllocBuf env d o isAsync = .ok (a₁, some b) →
        ∃ a₂, a₁.releaseBuf env' b = .ok a₂ ∧ SameShapes a.buffers a₂.buffers ∧
          a₂.buffers = modifyAt b (fun x => (x.allocated d o isAsync).settled) a.buffers ∧
          a₂.pages = a.pages ∧ a₂.freeAsyncSpace = a.freeAsyncSpace := by
  have hinv := h.inv
  refine ⟨⟨a.emptied, fun calls hperm => freeAll_eq hinv hperm, ?_⟩, ?_⟩
  · obtain ⟨z, hb, hz, haddr⟩ := Inv.emptied_buffers hinv
    exact ⟨⟨z, hb, hz, haddr⟩, Inv.emptied_freeBuffers hinv, rfl, rfl, rfl⟩
  · intro env env' d o isAsync a₁ b halloc
    obtain ⟨a₂, hok, hinv₂, hl, hmodify, hbase, hsize⟩ :=
      releaseBuf_after_alloc hinv env' halloc
    obtain ⟨hp, hf⟩ := Inv.eq_of_sameShapes hinv hinv₂ hl hbase hsize
    exact ⟨a₂, hok, hl, hmodify, hp, hf⟩

/-- Freeing the two buffers of `busyArea` in either order gives the same area. -/
theorem busyArea_freeAll : busyArea.Reachable ∧ ∃ a',
    busyArea.freeAll [(twoPageMmap.env, 0xC8000000), (twoPageMmap.env, 0xC80001E8)] = .ok a' ∧
    busyArea.freeAll [(twoPageMmap.env, 0xC80001E8), (twoPageMmap.env, 0xC8000000)] = .ok a' ∧
    a'.freeAsyncSpace = 4096 := by
  obtain ⟨⟨a', hall, -, -, -, -, hasync⟩, -⟩ := reachable_freeAll_confluent busyArea_reachable
  exact ⟨busyArea_reachable, a', hall _ (by decide), hall _ (by decide), hasync⟩

end AndroidKernel.Binder
