import AndroidKernel.Binder.BufferFree

/-!
# The buffer area over whole runs

`binder_mmap` establishes the invariant, every operation keeps it, and no
operation the driver may ask for hits a `BUG_ON`. The two main results restate
the invariant in terms of the bytes of the area.
-/

namespace AndroidKernel.Binder

open BufferArea List

/-! ## The operations keep the invariant -/

/-- `x` and `y` differ in nothing the allocator looks at: the request in the
header of a free buffer is stale. -/
structure BinderBuffer.SameShape (x y : BinderBuffer) : Prop where
  addr : x.addr = y.addr
  free : x.free = y.free
  request : x.free = false → x.asyncTransaction = y.asyncTransaction ∧
    x.dataSize = y.dataSize ∧ x.offsetsSize = y.offsetsSize

variable {x y : BinderBuffer} {a a' : BufferArea} {l : List BinderBuffer}
  {f : BinderBuffer → BinderBuffer} {env : PageEnv} {op : BufferOp} {fin : Nat} {r : MmapRequest}

theorem BinderBuffer.SameShape.asyncCharge_eq (h : x.SameShape y) :
    asyncCharge x = asyncCharge y := by
  cases hx : x.free with
  | true => simp [asyncCharge, ← h.free, hx]
  | false =>
    obtain ⟨h1, h2, h3⟩ := h.request hx
    simp [asyncCharge, ← h.free, h1, h2, h3]

/-- Lists of buffers that the allocator cannot tell apart. -/
def SameShapes (l l' : List BinderBuffer) : Prop := Forall₂ BinderBuffer.SameShape l l'

namespace SameShapes

variable {l l' : List BinderBuffer} {fin : Nat}

theorem refl (l : List BinderBuffer) : SameShapes l l :=
  forall₂_same.mpr fun _ _ => ⟨rfl, rfl, fun _ => ⟨rfl, rfl, rfl⟩⟩

section

variable (h : SameShapes l l')

include h

theorem addrs_eq : addrs l = addrs l' := by
  induction h with
  | nil => rfl
  | cons h1 _ ih => simp [h1.addr, ih]

theorem endOf_eq : endOf fin l = endOf fin l' := by
  cases h with
  | nil => rfl
  | cons h1 _ => simp [h1.addr]

theorem freeAddrs_eq : freeAddrs l = freeAddrs l' := by
  induction h with
  | nil => rfl
  | cons h1 _ ih => simp [freeAddrs_cons, h1.addr, h1.free, ih]

theorem allocAddrs_eq : allocAddrs l = allocAddrs l' := by
  induction h with
  | nil => rfl
  | cons h1 _ ih => simp [allocAddrs_cons, h1.addr, h1.free, ih]

theorem asyncSum_eq : asyncSum l = asyncSum l' := by
  induction h with
  | nil => rfl
  | cons h1 _ ih => simp [h1.asyncCharge_eq, ih]

theorem used_eq (q : Nat) : used fin l q = used fin l' q := by
  induction h with
  | nil => rfl
  | cons h1 h2 ih =>
    have he : endOf fin _ = endOf fin _ := endOf_eq h2
    rw [used, used, ih, he, BinderBuffer.usedEnd, h1.addr, h1.free]
    rfl

theorem layout {start : Nat} (hl : Layout fin start l) : Layout fin start l' := by
  induction h generalizing start with
  | nil => exact hl
  | cons h1 h2 ih =>
    obtain ⟨g1, g2, g3⟩ := hl
    have he : endOf fin _ = endOf fin _ := endOf_eq h2
    rw [he] at g2 g3
    exact ⟨h1.addr.symm.trans g1, g2, ih g3⟩

theorem apart (ha : NoAdjacentFree l) : NoAdjacentFree l' := by
  induction h with
  | nil => exact ha
  | cons h1 h2 ih =>
    obtain ⟨ha1, ha2⟩ := isChain_cons.mp ha
    refine isChain_cons.mpr ⟨fun n hn => ?_, ih ha2⟩
    cases h2 with
    | nil => simp at hn
    | cons h3 _ =>
      simp only [head?_cons, Option.mem_some_iff] at hn
      subst hn
      rw [← h1.free, ← h3.free]
      exact ha1 _ rfl

theorem exists_left {y : BinderBuffer} (hy : y ∈ l') : ∃ x ∈ l, x.SameShape y := by
  obtain ⟨i, rfl⟩ := get_of_mem hy
  exact ⟨_, get_mem _ _, Forall₂.get h (by rw [Forall₂.length_eq h]; exact i.2) i.2⟩

theorem fits (hf : Fits fin l) : Fits fin l' := by
  intro y hy hfree
  obtain ⟨x, hx, hxy⟩ := h.exists_left hy
  have hxf : x.free = false := hxy.free.trans hfree
  obtain ⟨-, h2, h3⟩ := hxy.request hxf
  rw [← sizeIn_congr h.addrs_eq, ← hxy.addr, ← h2, ← h3]
  exact hf x hx hxf

end

end SameShapes

/-- The invariant sees only the shapes of the buffers. -/
theorem Inv.congr (h : a.Inv)
    (hl : SameShapes a.buffers l) : BufferArea.Inv { a with buffers := l } :=
  { aligned := ⟨h.aligned.base, h.aligned.size⟩
    bound := h.bound
    layout := hl.layout h.layout
    nonempty := by
      rintro rfl
      exact h.nonempty (forall₂_nil_right_iff.mp hl)
    apart := hl.apart h.apart
    fits := hl.fits h.fits
    freeTree := h.freeTree.congr hl.addrs_eq.symm hl.freeAddrs_eq.symm
    allocTree := h.allocTree.trans hl.allocAddrs_eq
    async := by
      rw [← hl.asyncSum_eq]
      exact h.async
    pages := ⟨h.pages.length, fun i hi => (h.pages.page i hi).trans
      (congrArg some (hl.used_eq _))⟩ }

theorem sameShapes_modifyAt (b : Nat)
    (hf : ∀ x : BinderBuffer, x.SameShape (f x)) (l : List BinderBuffer) :
    SameShapes l (modifyAt b f l) := by
  induction l with
  | nil => exact Forall₂.nil
  | cons x l ih =>
    rw [modifyAt]
    split
    · exact Forall₂.cons (hf x) (SameShapes.refl l)
    · exact Forall₂.cons ⟨rfl, rfl, fun _ => ⟨rfl, rfl, rfl⟩⟩ ih

/-- What the rest of the driver writes into a buffer does not concern the
allocator. -/
theorem Inv.modify (h : a.Inv) (b : Nat)
    (hf : ∀ x : BinderBuffer, x.SameShape (f x)) : (a.modify b f).Inv :=
  Inv.congr h (sameShapes_modifyAt b hf a.buffers)

theorem allowed_of_freeBufRelease
    (h : a.freeBufRelease env x = .ok a') : x.free = false ∧ x.transaction = none := by
  rw [freeBufRelease] at h
  cases hfree : x.free with
  | true => simp [hfree, bugOn, bind, Except.bind] at h
  | false =>
    cases htx : x.transaction with
    | none => exact ⟨rfl, rfl⟩
    | some t =>
      simp only [htx, bugOn] at h
      split at h
      · cases h
      · split at h <;> cases h

/-- `binder_free_buf` returns for allocated buffers only. -/
theorem allowed_of_binderFreeBuf {b : Nat}
    (h : a.binderFreeBuf env b = .ok a') : a.Allowed (.free env b) := by
  rw [binderFreeBuf] at h
  cases hfind : a.find b with
  | none => rw [hfind] at h; cases h
  | some x =>
    have hx : x ∈ a.buffers := mem_of_find?_eq_some hfind
    have hb : x.addr = b := by
      have := find?_some hfind
      simpa using this
    simp only [hfind, bind, Except.bind] at h
    split at h
    · cases h
    next a₁ hrel =>
      exact ⟨x, hx, hb, allowed_of_freeBufRelease hrel⟩

/-- The invariant is kept, and the area stays where it is. -/
theorem step_keeps (h : a.Inv) (hop : a.Allowed op) : ∃ a', a.step op = .ok a' ∧ a'.Inv ∧
    a'.buffer = a.buffer ∧ a'.bufferSize = a.bufferSize := by
  cases op with
  | alloc env d o isAsync =>
    rcases binderAllocBuf_spec h env d o isAsync with hfail | ⟨a', b, hok, hinv, hres⟩
    · exact ⟨a, by rw [BufferArea.step, hfail]; rfl, h, rfl, rfl⟩
    · exact ⟨a', by rw [BufferArea.step, hok]; rfl, hinv, hres.frame.1, hres.frame.2.1⟩
  | free env b =>
    obtain ⟨x, hx, rfl, hfree, htx⟩ := hop
    obtain ⟨l₁, l₂, hbuf⟩ := append_of_mem hx
    obtain ⟨a', hok, hinv, hres⟩ := binderFreeBuf_spec h env hbuf hfree htx
    exact ⟨a', hok, hinv, hres.frame.1, hres.frame.2.1⟩
  | fill b u t n d =>
    exact ⟨_, rfl, Inv.modify h b fun x => ⟨rfl, rfl, fun _ => ⟨rfl, rfl, rfl⟩⟩, rfl, rfl⟩
  | vmaClose =>
    refine ⟨_, rfl, ?_, rfl, rfl⟩
    exact { h with
      aligned := ⟨h.aligned.base, h.aligned.size⟩
      pages := ⟨h.pages.length, h.pages.page⟩ }

theorem Inv.step (h : a.Inv) (hs : a.step op = .ok a') : a'.Inv := by
  have hop : a.Allowed op := by
    cases op with
    | free env b => exact allowed_of_binderFreeBuf hs
    | alloc | fill | vmaClose => trivial
  obtain ⟨a'', hok, hinv, -⟩ := step_keeps h hop
  rw [hs] at hok
  cases hok
  exact hinv

/-! ## `binder_mmap` establishes it -/

/-- The page of the first header is all a fresh area needs. -/
theorem used_fresh {base : Nat} (hbase : base % 4096 = 0) (q : Nat) :
    used fin [{ addr := base, free := true }] q = true ↔
      base / 4096 ≤ q ∧ q < (base + 4096) / 4096 := by
  simp only [used, BinderBuffer.usedEnd, headerSize, if_true, Bool.or_false, Bool.and_eq_true,
    decide_eq_true_eq]
  omega

/-- `binder_mmap` fails without a fault, or leaves one free buffer. -/
theorem binderMmap_spec (hpages : 0 < r.pageCount) : (∃ e, binderMmap r = .ok (.error e)) ∨
      ∃ a, binderMmap r = .ok (.ok a) ∧ r.mapped = false ∧ a.Inv ∧
        a.buffers = [{ addr := a.buffer, free := true }] := by
  rw [binderMmap]
  split
  · exact .inl ⟨_, rfl⟩
  split
  · exact .inl ⟨_, rfl⟩
  rename_i hmapped
  split
  · exact .inl ⟨_, rfl⟩
  rename_i area _
  split
  · exact .inl ⟨_, rfl⟩
  obtain ⟨base, hbase, htop⟩ := area
  have hsize : 0 < min r.pageCount maxPages ∧ min r.pageCount maxPages ≤ 1024 := by
    simp only [maxPages]
    omega
  generalize min r.pageCount maxPages = n at hsize
  let a₀ : BufferArea := {
    buffer := base
    bufferSize := n * 4096
    buffers := []
    freeBuffers := .nil
    allocatedBuffers := .nil
    freeAsyncSpace := 0
    pages := replicate (n * 4096 / 4096) false
    vma := false }
  have hfin : a₀.fin = base + n * 4096 := rfl
  have hgains : Gains a₀.fin [] [{ addr := base, free := true }] base (base + 4096) := fun q =>
    ⟨fun _ => by simp [used], by rw [used_fresh hbase]; simp [used]⟩
  have hempty : PagesOK a₀ [] := by
    refine ⟨by simp [a₀], fun i hi => ?_⟩
    simp only [a₀, length_replicate] at hi
    simp only [a₀, used, List.getElem?_replicate, hi, if_true]
  obtain ⟨pages, ok, hup, -, hpg⟩ := updatePageRange_alloc
    ⟨hbase, by simp only [a₀]; omega⟩ ⟨hbase, by omega, le_rfl, by omega⟩ r.env true hempty
    hgains
  simp only [a₀] at hup
  cases ok with
  | false =>
    simp only [hup]
    exact .inl ⟨_, rfl⟩
  | true =>
    obtain ⟨t, ht, htree, -⟩ := insertFreeBuffer_spec
      (a := { a₀ with
        pages := pages
        buffers := [({ addr := base, free := true } : BinderBuffer)] })
      (x := { addr := base, free := true }) (by simp) (by simp) rfl
      (by simp [a₀, freeAddrs_cons, Rbtree.toList]) (by simp [a₀, Rbtree.toList])
    simp only [a₀] at ht
    simp only [bind, Except.bind, hup, ht]
    refine .inr ⟨_, rfl, by simpa using hmapped, ?_, rfl⟩
    exact {
      aligned := ⟨hbase, by simp only; omega⟩
      bound := by simp only [BufferArea.fin]; omega
      layout := ⟨rfl, by simp only [headerSize, endOf, BufferArea.fin]; omega, rfl⟩
      nonempty := by simp
      apart := isChain_singleton _
      fits := by simp [Fits]
      freeTree := htree
      allocTree := by simp [Rbtree.toList, allocAddrs_cons]
      async := by simp [asyncCharge]
      pages := ⟨hpg.length, hpg.page⟩ }

/-- The invariant holds after any sequence of operations. -/
theorem BufferArea.Reachable.inv (h : a.Reachable) : a.Inv := by
  induction h with
  | mmap hpages h =>
    rcases binderMmap_spec hpages with ⟨e, he⟩ | ⟨a', ha', -, hinv, -⟩
    · cases h.symm.trans he
    · cases h.symm.trans ha'
      exact hinv
  | step _ _ hs ih => exact Inv.step ih hs

/-! ## The main results -/

theorem asyncSum_eq_filter (l : List BinderBuffer) :
    asyncSum l = ((l.filter fun x => !x.free && x.asyncTransaction).map
      fun x => requestSize x.dataSize x.offsetsSize + headerSize).sum := by
  induction l with
  | nil => rfl
  | cons x l ih =>
    rw [asyncSum_cons, ih, filter_cons, asyncCharge]
    split <;> simp

/-- A mapping of two pages. -/
def twoPageMmap : MmapRequest where
  vmStart := 0x40000000
  pageCount := 2
  vmWrite := false
  mapped := false
  vmArea := some ⟨0xC8000000, by decide⟩
  pageArray := true
  env := { mm := true, page := fun _ => .mapped }

/-- The two pages without a request. -/
def freshArea : BufferArea where
  buffer := 0xC8000000
  bufferSize := 8192
  buffers := [{ addr := 0xC8000000, free := true }]
  freeBuffers := .node .black .nil 0xC8000000 .nil
  allocatedBuffers := .nil
  freeAsyncSpace := 4096
  pages := [true, false]
  vma := true

/-- The two pages after a one-way request of 100 and 8 bytes and synchronous ones of 300 and 5000
bytes, of which the first has been freed. -/
def busyArea : BufferArea where
  buffer := 0xC8000000
  bufferSize := 8192
  buffers := [
    { addr := 0xC8000000, free := false, asyncTransaction := true,
      dataSize := 100, offsetsSize := 8 },
    { addr := 0xC8000094, free := true, dataSize := 300 },
    { addr := 0xC80001E8, free := false, dataSize := 5000 },
    { addr := 0xC8001598, free := true }]
  freeBuffers := .node .black (.node .red .nil 0xC8000094 .nil) 0xC8001598 .nil
  allocatedBuffers := .node .black (.node .red .nil 0xC8000000 .nil) 0xC80001E8 .nil
  freeAsyncSpace := 3948
  pages := [true, true]
  vma := true

theorem freshArea_reachable : freshArea.Reachable :=
  .mmap (r := twoPageMmap) (by decide) (by decide +kernel)

theorem BufferArea.Reachable.run (h : a.Reachable) (ops : List BufferOp)
    (hops : ops.foldlM BufferArea.step a = .ok a') : a'.Reachable := by
  induction ops generalizing a with
  | nil => exact Except.ok.inj hops ▸ h
  | cons op ops ih =>
    rw [foldlM_cons] at hops
    cases hs : a.step op with
    | error e =>
      rw [hs] at hops
      cases hops
    | ok a₁ =>
      rw [hs] at hops
      exact ih (h.step op hs) hops

theorem busyArea_reachable : busyArea.Reachable :=
  freshArea_reachable.run [.alloc twoPageMmap.env 100 8 true,
    .alloc twoPageMmap.env 300 0 false, .alloc twoPageMmap.env 5000 0 false,
    .free twoPageMmap.env 0xC8000094] (by decide +kernel)

/-- After any sequence of calls from a fresh mapping, the buffers tile the area,
no two neighbours are free, every allocated buffer has room for its request, the
two trees hold exactly the free and the allocated buffers in their orders, and
the async budget is accounted for. -/
theorem reachable_wellFormed (h : a.Reachable) :
    Layout (a.buffer + a.bufferSize) a.buffer a.buffers ∧ NoAdjacentFree a.buffers ∧
      (∀ x ∈ a.buffers, x.free = false →
        alignUp x.dataSize + alignUp x.offsetsSize ≤ a.binderBufferSize x.addr) ∧
      (a.freeBuffers.toList.Perm ((a.buffers.filter (·.free)).map (·.addr)) ∧
        a.freeBuffers.toList.Pairwise fun b c =>
          a.binderBufferSize b ≤ a.binderBufferSize c) ∧
      (a.allocatedBuffers.toList = (a.buffers.filter (!·.free)).map (·.addr) ∧
        a.allocatedBuffers.toList.Pairwise (· < ·)) ∧
      a.freeAsyncSpace + ((a.buffers.filter fun x => !x.free && x.asyncTransaction).map
        fun x => requestSize x.dataSize x.offsetsSize + headerSize).sum = a.bufferSize / 2 := by
  have hinv := h.inv
  refine ⟨hinv.layout, hinv.apart, hinv.fits, ⟨hinv.freeTree.perm, hinv.freeTree.sorted⟩,
    ⟨hinv.allocTree, ?_⟩, ?_⟩
  · rw [hinv.allocTree]
    exact hinv.layout.pairwise.sublist (allocAddrs_sublist _)
  · rw [← hinv.async, asyncSum_eq_filter]

/-- The theorem at an area with two allocated buffers. -/
theorem busyArea_wellFormed : busyArea.Reachable ∧
    Layout 0xC8002000 0xC8000000 busyArea.buffers ∧ NoAdjacentFree busyArea.buffers :=
  have h := reachable_wellFormed busyArea_reachable
  ⟨busyArea_reachable, h.1, h.2.1⟩

/-- A call of `binder_alloc_buf` returns a buffer if and only if the area is mapped, the two
sizes do not overflow, the async budget and some free buffer suffice, and the pages can be
mapped of a smallest such buffer, from which the new one is carved: all of them are there and,
if there are any, the task still has its `mm`. A call that returns `NULL` changes nothing. -/
theorem binderAllocBuf_returns (h : a.Reachable) (env : PageEnv) (d o : UInt32) (isAsync : Bool) :
    ∃ a' r, a.binderAllocBuf env d o isAsync = .ok (a', r) ∧ (r = none → a' = a) ∧
      (¬a.Suffices d o isAsync → r = none) ∧
      (a.Suffices d o isAsync → ∃ b, a.Smallest (alignUp d + alignUp o) b ∧
        (r ≠ none ↔ a.PagesThere env (alignUp d + alignUp o) b) ∧
        (r ≠ none → r = some b ∧ AllocResult a d o isAsync a' b)) := by
  rcases binderAllocBuf_outcome h.inv env d o isAsync with
    ⟨hnot, hfail⟩ | ⟨hsuff, b, hsmall, ⟨hpages, hfail⟩ | ⟨hpages, a', hok, -, hres⟩⟩
  · exact ⟨a, none, hfail, fun _ => rfl, fun _ => rfl, fun hsuff => absurd hsuff hnot⟩
  · exact ⟨a, none, hfail, fun _ => rfl, fun _ => rfl, fun _ => ⟨b, hsmall,
      iff_of_false (absurd rfl) hpages, fun hne => absurd rfl hne⟩⟩
  · exact ⟨a', some b, hok, nofun, fun hnot => absurd hsuff hnot, fun _ => ⟨b, hsmall,
      iff_of_true nofun hpages, fun _ => ⟨rfl, hres⟩⟩⟩

/-- What is left of `busyArea` serves a request of 2000 bytes. -/
theorem busyArea_returns : busyArea.Reachable ∧ busyArea.Suffices 2000 0 false ∧
    ∃ a' b, busyArea.binderAllocBuf twoPageMmap.env 2000 0 false = .ok (a', some b) := by
  have hsuff : busyArea.Suffices 2000 0 false := ⟨rfl, by decide, nofun, by decide⟩
  obtain ⟨a', r, hok, -, -, hgets⟩ :=
    binderAllocBuf_returns busyArea_reachable twoPageMmap.env 2000 0 false
  obtain ⟨b, -, hiff, hcarved⟩ := hgets hsuff
  obtain ⟨rfl, -⟩ := hcarved (hiff.mpr (.inr ⟨rfl, fun _ _ _ => rfl⟩))
  exact ⟨busyArea_reachable, hsuff, a', b, hok⟩

/-- The fresh area is large enough and every page can be had, but the task that has opened the
driver has no `mm` any more. -/
theorem no_buffer_without_mm : freshArea.Reachable ∧ freshArea.Suffices 5000 0 false ∧
    freshArea.binderAllocBuf { mm := false, page := fun _ => .mapped } 5000 0 false =
      .ok (freshArea, none) :=
  ⟨freshArea_reachable, ⟨rfl, by decide, nofun, by decide⟩, by decide +kernel⟩

/-- Byte `v` lies in the header of a buffer of the area or in the data of an
allocated one. -/
def BufferArea.Carries (a : BufferArea) (v : Nat) : Prop :=
  ∃ x ∈ a.buffers, x.addr ≤ v ∧ v < x.addr + headerSize ∨
    x.free = false ∧ x.addr + headerSize ≤ v ∧
      v < x.addr + headerSize + a.binderBufferSize x.addr

theorem used_iff_middle {q : Nat} :
    used fin l q = true ↔ ∃ l₁ x l₂, l = l₁ ++ x :: l₂ ∧ x.addr < (q + 1) * 4096 ∧
      q * 4096 < x.usedEnd (endOf fin l₂) := by
  constructor
  · intro h
    induction l with
    | nil => cases h
    | cons x l ih =>
      rw [used_cons_iff] at h
      rcases h with h | h
      · exact ⟨[], x, l, rfl, h⟩
      · obtain ⟨l₁, y, l₂, rfl, hy⟩ := ih h
        exact ⟨x :: l₁, y, l₂, rfl, hy⟩
  · rintro ⟨l₁, x, l₂, rfl, h⟩
    rw [used_middle]
    exact .inr (.inl h)

/-- Page `q` is used if and only if it has a byte that needs memory. -/
theorem used_iff_carries (h : a.Inv) (q : Nat) :
    used a.fin a.buffers q = true ↔ ∃ v, v / 4096 = q ∧ a.Carries v := by
  rw [used_iff_middle]
  constructor
  · rintro ⟨l₁, x, l₂, hbuf, hlo, hhi⟩
    have hend := ListInv.buffer_end h.toListInv hbuf
    have hx : x ∈ a.buffers := by simp [hbuf]
    -- the first byte of the buffer on this page
    refine ⟨max x.addr (q * 4096), ?_, x, hx, ?_⟩
    · omega
    rw [BinderBuffer.usedEnd] at hhi
    simp only [headerSize] at hend hhi ⊢
    split at hhi
    · left
      omega
    next hfree =>
      by_cases hhead : max x.addr (q * 4096) < x.addr + 40
      · exact .inl ⟨by omega, hhead⟩
      · exact .inr ⟨Bool.eq_false_of_not_eq_true hfree, by omega, by omega⟩
  · rintro ⟨v, rfl, x, hx, hv⟩
    obtain ⟨l₁, l₂, hbuf⟩ := append_of_mem hx
    have hend := ListInv.buffer_end h.toListInv hbuf
    refine ⟨l₁, x, l₂, hbuf, ?_, ?_⟩
    · rcases hv with hv | hv <;> omega
    rw [BinderBuffer.usedEnd]
    split
    next hfree =>
      rw [hfree] at hv
      simp only [Bool.true_eq_false, false_and, or_false] at hv
      omega
    · rcases hv with hv | hv <;> omega

theorem pages_iff (h : a.Inv) {i : Nat} (hi : i < a.bufferSize / 4096) : a.pages[i]? = some true ↔
      ∃ v, v / 4096 = a.buffer / 4096 + i ∧ a.Carries v := by
  rw [← used_iff_carries h, h.pages.page i (by rw [h.pages.length]; exact hi), Option.some_inj]

/-- After any sequence of calls the mapped pages are exactly those with a byte of
a header or of an allocated buffer's data. Hence no operation hits the
`BUG_ON(*page)`, or any other check, and none frees a page with the header of a
buffer that stays. -/
theorem reachable_pages (h : a.Reachable) :
    (a.pages.length = a.bufferSize / 4096 ∧ ∀ i, i < a.bufferSize / 4096 →
        (a.pages[i]? = some true ↔ ∃ v, v / 4096 = a.buffer / 4096 + i ∧ a.Carries v)) ∧
      ∀ op, a.Allowed op → ∃ a', a.step op = .ok a' ∧
        ∀ i, i < a.bufferSize / 4096 → a.pages[i]? = some true → a'.pages[i]? = some false →
          ∀ x ∈ a'.buffers, ∀ v, x.addr ≤ v → v < x.addr + headerSize →
            v / 4096 ≠ a.buffer / 4096 + i := by
  have hinv := h.inv
  refine ⟨⟨hinv.pages.length, fun i hi => pages_iff hinv hi⟩, fun op hop => ?_⟩
  obtain ⟨a', hok, hinv', hb, hs⟩ := step_keeps hinv hop
  refine ⟨a', hok, fun i hi _ hfreed x hx v h1 h2 hv => ?_⟩
  rw [← hb] at hv
  rw [← hs] at hi
  have hmapped := (pages_iff hinv' hi).mpr ⟨v, hv, x, hx, .inl ⟨h1, h2⟩⟩
  rw [hfreed] at hmapped
  cases hmapped

/-- Both pages of `busyArea` are mapped, and each has a byte in use. -/
theorem busyArea_pages : busyArea.Reachable ∧ busyArea.pages.length = 2 ∧
    ∃ v, v / 4096 = 0xC8001 ∧ busyArea.Carries v :=
  have h := reachable_pages busyArea_reachable
  ⟨busyArea_reachable, h.1.1, (h.1.2 1 (by decide)).mp (by decide)⟩

end AndroidKernel.Binder
