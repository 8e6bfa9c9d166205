import AndroidKernel.Lib.Buddy
import AndroidKernel.Lib.Scan
import AndroidKernel.Lib.Words

/-!
# The allocator of pmem

`pmem[id].bitmap` has an entry for each page of the area. At the start of a block it has
whether the block is allocated and its order. `pmem_setup` makes blocks of the powers of two
that `num_entries` is the sum of, `pmem_allocate` cuts a block until it has the right order,
and `pmem_free` merges blocks with their buddies.

The calls return with their results the entries that they have read or written. The bitmap
has `num_entries` of these; what the functions would see behind it is memory that is not
theirs.
-/

namespace AndroidKernel.Pmem

open Buddy

/-- `PMEM_MIN_ALLOC`, the size of a page. -/
def pmemMinAlloc : Nat := 4096

/-- `PMEM_MAX_ORDER`. -/
def pmemMaxOrder : Nat := 128

/-- The array of `struct pmem_bits`. -/
abbrev Bitmap := Table

/-- `pmem[id].num_entries`, for the size of an area. -/
def numEntries (size : Nat) : Nat := ulong size / pmemMinAlloc

variable (num : Nat) (bits : Bitmap) (index : Nat)

/-- `PMEM_BUDDY_INDEX`. -/
def pmemBuddyIndex : Nat := index ^^^ 2 ^ (bits index).order

/-- `PMEM_NEXT_INDEX`. -/
def pmemNextIndex : Nat := index + 2 ^ (bits index).order

/-- `PMEM_LEN`. -/
def pmemLen : Nat := 2 ^ (bits index).order * pmemMinAlloc

def setOrder (order : Nat) : Bitmap :=
  Function.update bits index { bits index with order := order }

def setAllocated (allocated : Bool) : Bitmap :=
  Function.update bits index { bits index with allocated := allocated }

/-! ## `pmem_free` -/

/-- A bitmap, and the entries that have been read or written. -/
structure Touched where
  bits : Bitmap
  touched : List Nat

/-- More entries, touched before. -/
def Touched.after (r : Touched) (l : List Nat) : Touched := { r with touched := l ++ r.touched }

/-- The loop of `pmem_free`. An order has seven bits and grows in each round. -/
def mergeLoop (num : Nat) : (fuel : Nat) → (bits : Bitmap) → (curr : Nat) → Touched
  | 0, bits, _ => ⟨bits, []⟩
  | fuel + 1, bits, curr =>
    let buddy := pmemBuddyIndex bits curr
    if (bits buddy).allocated = false ∧ (bits buddy).order = (bits curr).order then
      let bits := setOrder bits buddy ((bits buddy).order + 1)
      let bits := setOrder bits curr ((bits curr).order + 1)
      if min buddy curr < num then
        (mergeLoop num fuel bits (min buddy curr)).after [curr, buddy]
      else
        ⟨bits, [curr, buddy]⟩
    else
      ⟨bits, [curr, buddy]⟩

/-- `pmem_free`. -/
def pmemFree : Touched :=
  (mergeLoop num pmemMaxOrder (setAllocated bits index false) index).after [index]

/-! ## `pmem_allocate` -/

/-- `pmem_order`. -/
def pmemOrder (len : Nat) : Nat :=
  let len := ulong (len + pmemMinAlloc - 1) / pmemMinAlloc
  let len := ulong (len - 1)
  (Scan.up (fun i => len >>> i == 0) 32 0).found.getD 32

/-- The slot that a search has found, and the entries it has looked at. -/
structure Fit where
  best : Option Nat
  touched : List Nat

def Fit.after (r : Fit) (i : Nat) : Fit := { r with touched := i :: r.touched }

/-- The loop that looks for the slot that fits best. It goes up by at least one entry in each
round. -/
def searchLoop (bits : Bitmap) (last order : Nat) : (fuel curr : Nat) → (bestFit : Option Nat) → Fit
  | 0, _, bestFit => ⟨bestFit, []⟩
  | fuel + 1, curr, bestFit =>
    if curr < last then
      if (bits curr).allocated = false then
        if (bits curr).order = order then
          ⟨some curr, [curr]⟩
        else if (bits curr).order > order ∧
            bestFit.all fun b => (bits curr).order < (bits b).order then
          (searchLoop bits last order fuel (pmemNextIndex bits curr) (some curr)).after curr
        else
          (searchLoop bits last order fuel (pmemNextIndex bits curr) bestFit).after curr
      else
        (searchLoop bits last order fuel (pmemNextIndex bits curr) bestFit).after curr
    else
      ⟨bestFit, []⟩

/-- The loop that cuts a slot. -/
def splitLoop (order : Nat) : (fuel : Nat) → (bits : Bitmap) → (bestFit : Nat) → Touched
  | 0, bits, _ => ⟨bits, []⟩
  | fuel + 1, bits, bestFit =>
    if (bits bestFit).order > order then
      let bits := setOrder bits bestFit ((bits bestFit).order - 1)
      let buddy := pmemBuddyIndex bits bestFit
      let bits := setOrder bits buddy (bits bestFit).order
      (splitLoop order fuel bits bestFit).after [bestFit, buddy]
    else
      ⟨bits, [bestFit]⟩

/-- What `pmem_allocate` returns; `none` is -1. -/
structure Allocation where
  index : Option Nat
  bits : Bitmap
  touched : List Nat

/-- `pmem_allocate`. -/
def pmemAllocate (len : Nat) : Allocation :=
  let order := pmemOrder len
  if order > pmemMaxOrder then ⟨none, bits, []⟩
  else
    let fit := searchLoop bits num order num 0 none
    match fit.best with
    | none => ⟨none, bits, fit.touched⟩
    | some bestFit =>
      let r := splitLoop order (bits bestFit).order bits bestFit
      ⟨some bestFit, setAllocated r.bits bestFit true, fit.touched ++ r.touched ++ [bestFit]⟩

/-! ## `pmem_setup` -/

/-- The loop of `pmem_setup` for the bits of `num_entries` below `i`. -/
def setupLoop (num : Nat) : (i : Nat) → (bits : Bitmap) → (index : Nat) → Touched
  | 0, bits, _ => ⟨bits, []⟩
  | i + 1, bits, index =>
    if num.testBit i then
      let bits := setOrder bits index i
      (setupLoop num i bits (pmemNextIndex bits index)).after [index]
    else
      setupLoop num i bits index

/-- The bitmap after `pmem_setup`, with the memory behind it. -/
def pmemSetup (behind : Bitmap) : Touched :=
  setupLoop num 32 (fun i => if i < num then ⟨false, 0⟩ else behind i) 0

end AndroidKernel.Pmem
