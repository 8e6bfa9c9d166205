import AndroidKernel.Lib.Runs
import AndroidKernel.Pmem.Blocks

/-!
# Runs of pmem's allocator

`pmem_allocate` with any length and `pmem_free` of allocated blocks, in any order, after
`pmem_setup`. The memory behind the bitmap is not the allocator's: it may change at any time.

As long as the last of the blocks that `pmem_setup` has made is never freed as a whole, the
blocks tile the area and no entry behind the bitmap is looked at.
-/

namespace AndroidKernel.Pmem

open Buddy Function

/-- The bitmap, with the lengths that the allocated blocks have been requested with and the
entries that have been read or written. -/
structure Area where
  bits : Bitmap
  requested : Nat → Option Nat
  touched : List Nat

namespace Area

inductive Op
  | allocate (len : Nat)
  | free (index : Nat)
  /-- Others write to the memory behind the bitmap. -/
  | others (memory : Bitmap)

def init (num : Nat) (behind : Bitmap) : Area where
  bits := (pmemSetup num behind).bits
  requested _ := none
  touched := (pmemSetup num behind).touched

/-- The block that a call of `pmem_allocate` has returned, if any, is recorded. -/
def record (requested : Nat → Option Nat) (len : Nat) : Option Nat → Nat → Option Nat
  | none => requested
  | some i => update requested i (some len)

/-- The calls, on the `num` entries of the bitmap. A length is an `unsigned long`. -/
def step (num : Nat) (a : Area) : Op → Option Area
  | .allocate len =>
    let r := pmemAllocate num a.bits (ulong len)
    some ⟨r.bits, record a.requested (ulong len) r.index, a.touched ++ r.touched⟩
  | .free i =>
    if i < num ∧ (a.bits i).allocated = true then
      let r := pmemFree num a.bits i
      some ⟨r.bits, update a.requested i none, a.touched ++ r.touched⟩
    else none
  | .others memory => some { a with bits := fun x => if x < num then a.bits x else memory x }

/-- No call frees the last of the blocks that `pmem_setup` has made as a whole. -/
def KeepsLast (num : Nat) (a : Area) : Op → Prop
  | .allocate _ => True
  | .free i => ¬FreesLast num a.bits i
  | .others _ => True

instance (num : Nat) (a : Area) (op : Op) : Decidable (KeepsLast num a op) := by
  unfold KeepsLast
  split <;> infer_instance

variable {num : Nat} {a a' : Area} {op : Op}

/-- What an allocator is for: the blocks met from 0 on tile the area, the allocated ones are
among them, lie apart and are as long as requested, only the bitmap has been used, and a request
is refused only if no free block is large enough. -/
structure Sound (num : Nat) (a : Area) : Prop where
  tiled : ∃ l, Tiles a.bits num 0 l ∧ (∀ i < num, (a.bits i).allocated = true → i ∈ l) ∧
    ∀ len, (pmemAllocate num a.bits (ulong len)).index = none →
      ∀ i ∈ l, (a.bits i).allocated = false → (a.bits i).order < pmemOrder (ulong len) ∧
        (0 < ulong len → pmemLen a.bits i < ulong len)
  apart : ∀ i j, i < j → j < num → (a.bits i).allocated = true → (a.bits j).allocated = true →
    pmemNextIndex a.bits i ≤ j
  long : ∀ i < num, (a.bits i).allocated = true →
    ∃ len, a.requested i = some len ∧ len ≤ pmemLen a.bits i
  inside : ∀ x ∈ a.touched, x < num

/-- What every call keeps. -/
structure Inv (num : Nat) (a : Area) : Prop where
  divided : ∃ t, Divided num a.bits t
  long : ∀ i < num, (a.bits i).allocated = true →
    ∃ len, a.requested i = some len ∧ len ≤ pmemLen a.bits i
  inside : ∀ x ∈ a.touched, x < num

theorem inv_init (hnum : num < 2 ^ 32) (behind : Bitmap) : Inv num (init num behind) := by
  obtain ⟨hdivided, htouched⟩ := pmemSetup_divided hnum behind
  refine ⟨⟨_, hdivided⟩, fun i hi halloc => ?_, htouched⟩
  have hfree : ((init num behind).bits i).allocated = false := pmemSetup_allocated behind hi
  rw [hfree] at halloc
  cases halloc

theorem inv_allocate (h : Inv num a) (len : Nat) (hs : step num a (.allocate len) = some a') :
    Inv num a' := by
  obtain ⟨t, hdivided⟩ := h.divided
  have hall := pmemAllocate_allocates hdivided (ulong len)
  rw [step] at hs
  simp only [Option.some.injEq] at hs
  subst hs
  generalize pmemAllocate num a.bits (ulong len) = r at hall
  cases hall with
  | none htouched _ =>
    exact ⟨⟨t, hdivided⟩, h.long,
      fun x hx => (List.mem_append.mp hx).elim (h.inside x) (htouched x)⟩
  | @some i bits' touched t' htouched hi hfree hdivided' hat hkept _ =>
    refine ⟨⟨t', hdivided'⟩, fun x hx halloc => ?_, fun x hx =>
      (List.mem_append.mp hx).elim (h.inside x) (htouched x)⟩
    by_cases hxi : x = i
    · subst hxi
      refine ⟨ulong len, update_self .., ?_⟩
      simp only [pmemLen, hat]
      exact le_of_pmemOrder (ulong_lt _)
    · rw [(hkept x hxi).1] at halloc
      obtain ⟨len', hreq, hle⟩ := h.long x hx halloc
      refine ⟨len', (update_of_ne hxi ..).trans hreq, ?_⟩
      simp only [pmemLen, (hkept x hxi).2 halloc]
      exact hle

theorem inv_free (hnum : num < 2 ^ 32) (h : Inv num a) {i : Nat}
    (hkeeps : KeepsLast num a (.free i)) (hs : step num a (.free i) = some a') : Inv num a' := by
  obtain ⟨t, hdivided⟩ := h.divided
  obtain ⟨⟨hi, halloc⟩, rfl⟩ := Option.ite_some_none_eq_some.mp hs
  obtain ⟨hfreed, htouched⟩ | ⟨hlast, -⟩ := pmemFree_cases hdivided hnum hi halloc
  · refine ⟨⟨_, hfreed.divided⟩, fun x hx halloc' => ?_, fun x hx =>
      (List.mem_append.mp hx).elim (h.inside x) (htouched x)⟩
    have hxi : x ≠ i := by
      rintro rfl
      rw [pmemFree_self] at halloc'
      cases halloc'
    rw [pmemFree_allocated num a.bits hxi] at halloc'
    obtain ⟨len, hreq, hle⟩ := h.long x hx halloc'
    refine ⟨len, (update_of_ne hxi ..).trans hreq, ?_⟩
    simp only [pmemLen, pmemFree_of_allocated num hxi halloc']
    exact hle
  · exact absurd hlast hkeeps

theorem inv_step (hnum : num < 2 ^ 32) (h : Inv num a) (hkeeps : KeepsLast num a op)
    (hs : step num a op = some a') : Inv num a' := by
  cases op with
  | allocate len => exact inv_allocate h len hs
  | free i => exact inv_free hnum h hkeeps hs
  | others memory =>
    cases hs
    have hsame : ∀ x < num, (if x < num then a.bits x else memory x) = a.bits x :=
      fun x hx => if_pos hx
    obtain ⟨t, hdivided⟩ := h.divided
    refine ⟨⟨t, hdivided.congr hsame⟩, fun x hx halloc => ?_, h.inside⟩
    simp only [pmemLen, hsame x hx] at halloc ⊢
    exact h.long x hx halloc

theorem Inv.sound (hnum : num < 2 ^ 20) (h : Inv num a) : Sound num a := by
  obtain ⟨t, hdivided⟩ := h.divided
  have hmem : ∀ i < num, (a.bits i).allocated = true → i ∈ starts t 32 0 := fun i hi halloc =>
    mem_starts_iff.mpr ⟨true, _, hdivided.shows.has_of_allocated hdivided.ends (Nat.zero_le i)
      (by omega) halloc⟩
  refine ⟨⟨starts t 32 0, hdivided.tiles, hmem, fun len hnone i hi hfree => ?_⟩, ?_, h.long,
    h.inside⟩
  · have hall := pmemAllocate_allocates hdivided (ulong len)
    generalize pmemAllocate num a.bits (ulong len) = r at hall hnone
    cases hall with
    | some => cases hnone
    | none _ hmissed =>
      have hlow : (a.bits i).order < pmemOrder (ulong len) :=
        not_le.mp fun hle => hmissed i hi ⟨hfree, hle⟩
      have hbound := (hdivided.tiles.bounds.2 i hi).2
      exact ⟨hlow, fun hpos => lt_of_lt_pmemOrder (ulong_lt _) hpos hlow (by omega)⟩
  · intro i j hij hj halloc halloc'
    exact hdivided.tiles.apart (hmem i (hij.trans hj) halloc) (hmem j hj halloc') hij

theorem numEntries_lt (size : Nat) : numEntries size < 2 ^ 20 := by
  have := ulong_lt size
  unfold numEntries pmemMinAlloc
  omega

/-- In every run in which the last of the blocks that `pmem_setup` has made is never freed as a
whole, the allocator is sound. -/
theorem allocator_sound {size : Nat} {behind : Bitmap}
    (h : Reached (step (numEntries size)) (KeepsLast (numEntries size))
      (init (numEntries size) behind) a) : Sound (numEntries size) a := by
  have hnum := numEntries_lt size
  have hnum' : numEntries size < 2 ^ 32 := by omega
  have hinv : Inv (numEntries size) a := h.invariant (inv_init hnum' behind)
    fun _ _ _ hinv hkeeps hs => inv_step hnum' hinv hkeeps hs
  exact hinv.sound hnum

/-- Three pages, of which the last is a block of its own: it is allocated, and one of the other
two is allocated and freed again. -/
theorem allocator_sound_three_pages :
    ∃ a, Reached (step (numEntries 12288)) (KeepsLast (numEntries 12288))
      (init (numEntries 12288) fun _ => ⟨false, 0⟩) a ∧
      (a.bits 0 = ⟨false, 1⟩ ∧ a.requested 2 = some 100) ∧ Sound (numEntries 12288) a :=
  Reached.exists_of_checked_and [.allocate 100, .allocate 4096, .free 0] (by decide +kernel)
    fun _ hrun _ => allocator_sound hrun

/-- One page, allocated and freed: `pmem_free` reads entry 1 of a bitmap with one entry, and if
that memory is zero it writes there and makes a block of two pages, which `pmem_allocate` then
returns. -/
theorem pmemFree_behind_bitmap : numEntries 4096 = 1 ∧
    ∃ a, Reached (step 1) (fun _ _ => True) (init 1 fun _ => ⟨false, 0⟩) a ∧ 1 ∈ a.touched ∧
      a.bits 1 = ⟨false, 1⟩ ∧ pmemNextIndex a.bits 0 = 2 ∧
      (pmemAllocate 1 a.bits 8192).index = some 0 :=
  ⟨by decide, Reached.exists_of_checked [.allocate 4096, .free 0] (by decide +kernel)⟩

end Area

end AndroidKernel.Pmem
