import AndroidKernel.Binder.BufferRanges
import Mathlib.Data.List.Chain

/-!
# The invariant of the buffer area

`BufferArea.Inv` collects what holds of the area between two calls. An
operation replaces a short segment `m` of the list by another one `m'` that
starts at the same address; sizes outside the segment are unchanged
(`sizeIn_replace`), which is what keeps the free tree, whose keys are not
stored, a search tree.
-/

namespace AndroidKernel.Binder

open BufferArea List

/-- `ALIGN(x, sizeof(void *))` without wrap-around. -/
def alignUp (x : UInt32) : Nat := (x.toNat + 3) / 4 * 4

variable (fin : Nat) (l : List BinderBuffer)

/-- The addresses of the free buffers, in address order. -/
def freeAddrs : List Nat := addrs (l.filter (·.free))

/-- The addresses of the allocated buffers, in address order. -/
def allocAddrs : List Nat := addrs (l.filter fun x => !x.free)

/-- What a buffer takes from the async budget. -/
def asyncCharge (x : BinderBuffer) : Nat :=
  if !x.free && x.asyncTransaction then requestSize x.dataSize x.offsetsSize + headerSize else 0

/-- What the allocated async buffers take together. -/
def asyncSum : Nat := (l.map asyncCharge).sum

/-- Every allocated buffer has room for its two parts. -/
def Fits : Prop :=
  ∀ x ∈ l, x.free = false → alignUp x.dataSize + alignUp x.offsetsSize ≤ sizeIn fin x.addr l

/-- No two neighbours are both free. -/
def NoAdjacentFree : Prop :=
  l.IsChain fun x y => ¬(x.free = true ∧ y.free = true)

/-- `t` holds the free buffers of `l` and is a search tree for their sizes. -/
structure FreeTree (fin : Nat) (t : Rbtree Nat) (l : List BinderBuffer) : Prop where
  perm : t.toList.Perm (freeAddrs l)
  sorted : t.toList.Pairwise fun b c => sizeIn fin b l ≤ sizeIn fin c l

/-- The invariant of a mapped area, but for its pages. -/
structure BufferArea.ListInv (a : BufferArea) : Prop where
  aligned : PageAligned a
  bound : a.fin < 2 ^ 32
  layout : Layout a.fin a.buffer a.buffers
  nonempty : a.buffers ≠ []
  apart : NoAdjacentFree a.buffers
  fits : Fits a.fin a.buffers
  freeTree : FreeTree a.fin a.freeBuffers a.buffers
  allocTree : a.allocatedBuffers.toList = allocAddrs a.buffers
  async : a.freeAsyncSpace + asyncSum a.buffers = a.bufferSize / 2

/-- The invariant of a mapped area. -/
structure BufferArea.Inv (a : BufferArea) : Prop extends BufferArea.ListInv a where
  pages : PagesOK a a.buffers

/-! ## Bookkeeping lemmas -/

section Lists

variable (x : BinderBuffer) (l l₁ l₂ : List BinderBuffer)

@[simp] theorem freeAddrs_append : freeAddrs (l₁ ++ l₂) = freeAddrs l₁ ++ freeAddrs l₂ := by
  simp [freeAddrs]

@[simp] theorem allocAddrs_append : allocAddrs (l₁ ++ l₂) = allocAddrs l₁ ++ allocAddrs l₂ := by
  simp [allocAddrs]

theorem freeAddrs_cons :
    freeAddrs (x :: l) = if x.free then x.addr :: freeAddrs l else freeAddrs l := by
  cases h : x.free <;> simp [freeAddrs, h]

theorem allocAddrs_cons :
    allocAddrs (x :: l) = if x.free then allocAddrs l else x.addr :: allocAddrs l := by
  cases h : x.free <;> simp [allocAddrs, h]

@[simp] theorem freeAddrs_nil : freeAddrs [] = [] := rfl

@[simp] theorem allocAddrs_nil : allocAddrs [] = [] := rfl

@[simp] theorem asyncSum_append : asyncSum (l₁ ++ l₂) = asyncSum l₁ + asyncSum l₂ := by
  simp [asyncSum]

@[simp] theorem asyncSum_cons : asyncSum (x :: l) = asyncCharge x + asyncSum l := by
  simp [asyncSum]

@[simp] theorem asyncSum_nil : asyncSum [] = 0 := rfl

variable {x l}

theorem mem_addrs_filter {b : Nat} {p : BinderBuffer → Bool} :
    b ∈ addrs (l.filter p) ↔ ∃ x ∈ l, x.addr = b ∧ p x = true := by
  simp only [mem_addrs, mem_filter, and_assoc, and_comm, and_left_comm]

theorem mem_freeAddrs {b : Nat} : b ∈ freeAddrs l ↔ ∃ x ∈ l, x.addr = b ∧ x.free = true :=
  mem_addrs_filter

theorem mem_allocAddrs {b : Nat} : b ∈ allocAddrs l ↔ ∃ x ∈ l, x.addr = b ∧ x.free = false := by
  simp only [allocAddrs, mem_addrs_filter, Bool.not_eq_true']

theorem freeAddrs_subset {b : Nat} (h : b ∈ freeAddrs l) : b ∈ addrs l :=
  (filter_sublist.map _).subset h

theorem allocAddrs_sublist (l : List BinderBuffer) : (allocAddrs l).Sublist (addrs l) :=
  filter_sublist.map _

end Lists

variable {x : BinderBuffer} {a : BufferArea}

theorem noAdjacentFree_middle {l₁ l₂ : List BinderBuffer} :
    NoAdjacentFree (l₁ ++ x :: l₂) ↔ NoAdjacentFree l₁ ∧ NoAdjacentFree l₂ ∧
      (∀ p ∈ l₁.getLast?, ¬(p.free = true ∧ x.free = true)) ∧
      ∀ n ∈ l₂.head?, ¬(x.free = true ∧ n.free = true) := by
  simp only [NoAdjacentFree, isChain_append, isChain_cons, head?_cons,
    Option.mem_some_iff, forall_eq']
  tauto

/-! ## Replacing a segment of the list -/

/-- Sizes depend on the addresses only. -/
theorem sizeIn_congr {fin b : Nat} {l l' : List BinderBuffer} (h : addrs l = addrs l') :
    sizeIn fin b l = sizeIn fin b l' := by
  induction l generalizing l' with
  | nil =>
    cases l' with
    | nil => rfl
    | cons x' l' => cases h
  | cons x l ih =>
    cases l' with
    | nil => cases h
    | cons x' l' =>
      simp only [addrs_cons, cons.injEq] at h
      rw [sizeIn, sizeIn, h.1, ih h.2, endOf_eq_headD, endOf_eq_headD, h.2]

section Replace

variable {fin : Nat} {l₁ m m' l₂ : List BinderBuffer}

/-- Sizes outside a replaced segment do not change. -/
theorem sizeIn_replace {b : Nat} (hstart : endOf fin (m ++ l₂) = endOf fin (m' ++ l₂))
    (hm : b ∉ addrs m) (hm' : b ∉ addrs m') :
    sizeIn fin b (l₁ ++ (m ++ l₂)) = sizeIn fin b (l₁ ++ (m' ++ l₂)) := by
  by_cases hb : b ∈ addrs l₁
  · rw [sizeIn_append_left hb, sizeIn_append_left hb, hstart]
  · rw [sizeIn_append_right hb, sizeIn_append_right hb, sizeIn_append_right hm,
      sizeIn_append_right hm']

/-- An address outside a segment does not occur in it. -/
theorem notMem_segment {b : Nat} (hnd : (addrs (l₁ ++ (m ++ l₂))).Nodup)
    (hb : b ∈ addrs l₁ ∨ b ∈ addrs l₂) : b ∉ addrs m := by
  intro hmem
  rw [addrs_append, addrs_append, nodup_append, nodup_append] at hnd
  obtain ⟨-, ⟨-, -, h2⟩, h1⟩ := hnd
  rcases hb with hb | hb
  · exact h1 b hb b (mem_append_left _ hmem) rfl
  · exact h2 b hmem b hb rfl

variable (m m' l₂) in
theorem Fits.replace (h : Fits fin (l₁ ++ (m ++ l₂)))
    (hstart : endOf fin (m ++ l₂) = endOf fin (m' ++ l₂))
    (hnd : (addrs (l₁ ++ (m ++ l₂))).Nodup) (hnd' : (addrs (l₁ ++ (m' ++ l₂))).Nodup)
    (hm : ∀ x ∈ m', x.free = false →
      alignUp x.dataSize + alignUp x.offsetsSize ≤ sizeIn fin x.addr (l₁ ++ (m' ++ l₂))) :
    Fits fin (l₁ ++ (m' ++ l₂)) := by
  intro x hx hfree
  rw [mem_append, mem_append] at hx
  have hold : x ∈ l₁ ∨ x ∈ l₂ →
      alignUp x.dataSize + alignUp x.offsetsSize ≤ sizeIn fin x.addr (l₁ ++ (m' ++ l₂)) := by
    intro hx
    have haddr : x.addr ∈ addrs l₁ ∨ x.addr ∈ addrs l₂ :=
      hx.imp (fun h => mem_addrs.mpr ⟨x, h, rfl⟩) fun h => mem_addrs.mpr ⟨x, h, rfl⟩
    rw [← sizeIn_replace hstart (notMem_segment hnd haddr) (notMem_segment hnd' haddr)]
    refine h x ?_ hfree
    rcases hx with hx | hx <;> simp [hx]
  rcases hx with hx | hx | hx
  · exact hold (.inl hx)
  · exact hm x hx hfree
  · exact hold (.inr hx)

variable (m m') in
theorem sorted_replace {L : List Nat}
    (h : L.Pairwise fun b c => sizeIn fin b (l₁ ++ (m ++ l₂)) ≤ sizeIn fin c (l₁ ++ (m ++ l₂)))
    (hstart : endOf fin (m ++ l₂) = endOf fin (m' ++ l₂))
    (hL : ∀ b ∈ L, b ∉ addrs m ∧ b ∉ addrs m') : L.Pairwise fun b c =>
      sizeIn fin b (l₁ ++ (m' ++ l₂)) ≤ sizeIn fin c (l₁ ++ (m' ++ l₂)) := by
  refine h.imp_of_mem fun {b c} hb hc hle => ?_
  rwa [← sizeIn_replace hstart (hL b hb).1 (hL b hb).2,
    ← sizeIn_replace hstart (hL c hc).1 (hL c hc).2]

end Replace

/-! ## The two trees -/

/-- Inserting a free buffer that is not in the tree yet. -/
theorem insertFreeBuffer_spec
    (hnd : (addrs a.buffers).Nodup) (hx : x ∈ a.buffers) (hfree : x.free = true)
    (hperm : (x.addr :: a.freeBuffers.toList).Perm (freeAddrs a.buffers))
    (hsorted : a.freeBuffers.toList.Pairwise fun b c =>
      sizeIn a.fin b a.buffers ≤ sizeIn a.fin c a.buffers) :
    ∃ t, a.binderInsertFreeBuffer x.addr = .ok { a with freeBuffers := t } ∧
      FreeTree a.fin t a.buffers ∧
      (a.freeBuffers = .nil → t = .node .black .nil x.addr .nil) := by
  have hmem : ∀ y ∈ a.freeBuffers.toList, a.isFree y = true := by
    intro y hy
    obtain ⟨z, hz, rfl, hzf⟩ := mem_freeAddrs.mp
      (hperm.subset (mem_cons_of_mem _ hy))
    rw [isFree_eq hz hnd, hzf]
  let goLeft := fun y => decide (a.binderBufferSize x.addr < a.binderBufferSize y)
  have hvisited : ((a.freeBuffers.visited goLeft).any fun y => !a.isFree y) = false := by
    rw [any_eq_false]
    intro y hy
    simp [hmem y (Rbtree.mem_of_mem_visited hy)]
  refine ⟨a.freeBuffers.insertAt goLeft x.addr, ?_, ⟨?_, ?_⟩, fun hnil => by rw [hnil]; rfl⟩
  · simp [binderInsertFreeBuffer, isFree_eq hx hnd, hfree, goLeft, hvisited]
    rfl
  · exact (Rbtree.perm_insertAt _ _ _).trans hperm
  · exact Rbtree.sorted_insertAt hsorted

/-- Inserting an allocated buffer that is not in the tree yet. -/
theorem insertAllocatedBuffer_spec
    (hlt : (addrs a.buffers).Pairwise (· < ·)) (hx : x ∈ a.buffers) (hfree : x.free = false)
    (hperm : (x.addr :: a.allocatedBuffers.toList).Perm (allocAddrs a.buffers))
    (hsorted : a.allocatedBuffers.toList.Pairwise (· < ·)) :
    ∃ t, a.binderInsertAllocatedBuffer x.addr = .ok { a with allocatedBuffers := t } ∧
      t.toList = allocAddrs a.buffers := by
  have hnd : (addrs a.buffers).Nodup := hlt.imp fun h => h.ne
  have hndT : (x.addr :: a.allocatedBuffers.toList).Nodup :=
    hperm.nodup_iff.mpr (hnd.sublist (allocAddrs_sublist _))
  have hmem : ∀ y ∈ a.allocatedBuffers.toList, a.isFree y = false ∧ y ≠ x.addr := by
    intro y hy
    refine ⟨?_, fun h => (nodup_cons.mp hndT).1 (h ▸ hy)⟩
    obtain ⟨z, hz, rfl, hzf⟩ := mem_allocAddrs.mp
      (hperm.subset (mem_cons_of_mem _ hy))
    rw [isFree_eq hz hnd, hzf]
  let goLeft := fun y => decide (x.addr < y)
  have hvisited : ((a.allocatedBuffers.visited goLeft).any
      fun y => a.isFree y || y == x.addr) = false := by
    rw [any_eq_false]
    intro y hy
    simp [hmem y (Rbtree.mem_of_mem_visited hy)]
  refine ⟨a.allocatedBuffers.insertAt goLeft x.addr, ?_, ?_⟩
  · simp [binderInsertAllocatedBuffer, isFree_eq hx hnd, hfree, goLeft, hvisited]
    rfl
  have hp := (Rbtree.perm_insertAt goLeft x.addr a.allocatedBuffers).trans hperm
  refine hp.eq_of_pairwise (fun b c _ _ => Nat.le_antisymm) ?_
    ((hlt.sublist (allocAddrs_sublist _)).imp Nat.le_of_lt)
  exact Rbtree.sorted_insertAt (hsorted.imp Nat.le_of_lt)

/-- What the search of `binder_alloc_buf` finds among the buffers `l`: nothing besides what
it had, or one that is large enough, and none of `l` that is large enough is smaller. -/
inductive Fit (a : BufferArea) (size : Nat) (l : List Nat) (best : Option Nat) :
    Option Nat × Bool → Prop
  | none (hsmall : ∀ y ∈ l, a.binderBufferSize y < size) : Fit a size l best (best, false)
  | some {b : Nat} {exact : Bool} (hmem : b ∈ l) (hfits : size ≤ a.binderBufferSize b)
      (hexact : exact = true → a.binderBufferSize b = size)
      (hleast : ∀ y ∈ l, size ≤ a.binderBufferSize y →
        a.binderBufferSize b ≤ a.binderBufferSize y) : Fit a size l best (some b, exact)

theorem bestFit_spec (size : Nat) {t : Rbtree Nat} (best : Option Nat)
    (hfree : ∀ y ∈ t.toList, a.isFree y = true)
    (hsorted : t.toList.Pairwise fun b c => a.binderBufferSize b ≤ a.binderBufferSize c) :
    ∃ r, a.bestFit size t best = .ok r ∧ Fit a size t.toList best r := by
  induction t generalizing best with
  | nil => exact ⟨(best, false), rfl, .none (by simp [Rbtree.toList])⟩
  | node c l x r ihl ihr =>
    simp only [Rbtree.toList, mem_append, mem_cons, pairwise_append, pairwise_cons] at hfree hsorted
    obtain ⟨hl, ⟨hxr, hr⟩, hcross⟩ := hsorted
    have hlx : ∀ y ∈ l.toList, a.binderBufferSize y ≤ a.binderBufferSize x := fun y hy =>
      hcross y hy x (.inl rfl)
    simp only [bestFit, hfree x (.inr (.inl rfl)), Bool.not_true, Bool.false_eq_true, if_false,
      Rbtree.toList]
    split
    · obtain ⟨res, hres, hfit⟩ := ihl (some x) (fun y hy => hfree y (.inl hy)) hl
      refine ⟨res, hres, ?_⟩
      cases hfit with
      | none hsmall =>
        refine .some (by simp) (by omega) (absurd · Bool.false_ne_true) (forall_mem_append.mpr
          ⟨fun y hy hle => ?_, forall_mem_cons.mpr ⟨fun _ => le_rfl, fun y hy _ => hxr y hy⟩⟩)
        exact absurd (hsmall y hy) (by omega)
      | some hmem hfits hexact hleast =>
        exact .some (by simp [hmem]) hfits hexact (forall_mem_append.mpr ⟨hleast,
          forall_mem_cons.mpr ⟨fun _ => hlx _ hmem, fun y hy _ => (hlx _ hmem).trans (hxr y hy)⟩⟩)
    · split
      next hlt =>
        obtain ⟨res, hres, hfit⟩ := ihr best (fun y hy => hfree y (.inr (.inr hy))) hr
        refine ⟨res, hres, ?_⟩
        cases hfit with
        | none hsmall =>
          exact .none (forall_mem_append.mpr
            ⟨fun y hy => (hlx y hy).trans_lt hlt, forall_mem_cons.mpr ⟨hlt, hsmall⟩⟩)
        | some hmem hfits hexact hleast =>
          refine .some (by simp [hmem]) hfits hexact (forall_mem_append.mpr
            ⟨fun y hy hle => ?_, forall_mem_cons.mpr ⟨fun hle => by omega, hleast⟩⟩)
          exact absurd (hlx y hy) (by omega)
      · exact ⟨(some x, true), rfl, .some (by simp) (by omega) (fun _ => by omega)
          fun y _ hle => by omega⟩

end AndroidKernel.Binder
