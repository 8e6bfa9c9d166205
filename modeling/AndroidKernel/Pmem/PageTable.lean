import AndroidKernel.Pmem.Allocator

/-!
# How pmem changes page tables

`pmem_map_garbage`, `pmem_unmap_pfn_range`, `pmem_map_pfn_range` and `pmem_remap_pfn_range`, with
what `zap_page_range`, `vm_insert_pfn` and `remap_pfn_range` do to the entries of a page table.
`zap_page_range` goes on in the areas that follow, `vm_insert_pfn` refuses addresses outside
of the area, and `remap_pfn_range` does not look at the area's end.

Page tables for new entries are always found.
-/

namespace AndroidKernel.Pmem

/-- An area of a process's memory. -/
structure Vma where
  vmStart : Nat
  vmEnd : Nat
  lt : vmStart < vmEnd
  bound : vmEnd < 2 ^ 32
  aligned : pmemMinAlloc ∣ vmStart ∧ pmemMinAlloc ∣ vmEnd
  deriving DecidableEq

namespace Vma

def size (vma : Vma) : Nat := vma.vmEnd - vma.vmStart

/-- The addresses of the area. -/
def Has (vma : Vma) (addr : Nat) : Prop := vma.vmStart ≤ addr ∧ addr < vma.vmEnd
  deriving Decidable

end Vma

/-- What an entry of a page table refers to: the garbage page, or a page of the pmem area. -/
inductive Page
  | garbage
  | pmem (page : Nat)
  deriving DecidableEq

/-- The page table of a process, by address. -/
abbrev PageTable := Nat → Option Page

/-- A page table, and the addresses at which it has been changed. -/
structure Ptes where
  table : PageTable
  touched : List Nat

/-- The pages from one address to another. -/
def pages (start stop : Nat) : List Nat :=
  (List.range ((stop - start) / pmemMinAlloc)).map fun i => start + i * pmemMinAlloc

variable (p : Ptes) (vma : Vma) (later : List Vma)

/-- The entries at these addresses are cleared. -/
def Ptes.clear (l : List Nat) : Ptes where
  table addr := if addr ∈ l then none else p.table addr
  touched := p.touched ++ l

def Ptes.set (addr : Nat) (page : Page) : Ptes where
  table := Function.update p.table addr (some page)
  touched := p.touched ++ [addr]

/-! ## The functions of `mm/memory.c` -/

/-- The addresses that `unmap_vmas` clears: it goes along the list of areas. -/
def unmapVmas (startAddr endAddr : Nat) : List Vma → List Nat
  | [] => []
  | vma :: rest =>
    if vma.vmStart < endAddr then
      pages (max vma.vmStart startAddr) (min vma.vmEnd endAddr) ++ unmapVmas startAddr endAddr rest
    else []

/-- `zap_page_range`; `later` are the areas that follow. -/
def zapPageRange (address size : Nat) : Ptes :=
  p.clear (unmapVmas address (ulong (address + size)) (vma :: later))

/-- `vm_insert_pfn`. -/
def vmInsertPfn (addr : Nat) (page : Page) : Option Ptes :=
  if addr < vma.vmStart ∨ addr ≥ vma.vmEnd then none
  else if (p.table addr).isSome then none
  else some (p.set addr page)

/-- The loop of `remap_pfn_range` for the pages of the area from `page` on. -/
def remapLoop (p : Ptes) (page : Nat) : List Nat → Ptes
  | [] => p
  | addr :: rest => remapLoop (p.set addr (.pmem page)) (page + 1) rest

/-- `remap_pfn_range`. Past the end of the address space it is a `BUG`, and nothing is done. -/
def remapPfnRange (addr page size : Nat) : Ptes :=
  remapLoop p page (pages addr (ulong (addr + size)))

/-! ## The functions of pmem -/

/-- The loop of `pmem_map_garbage`; whether it has got to its end. -/
def garbageLoop (vma : Vma) : (n : Nat) → (p : Ptes) → (addr : Nat) → Ptes × Bool
  | 0, p, _ => (p, true)
  | n + 1, p, addr =>
    match vmInsertPfn p vma (ulong addr) .garbage with
    | none => (p, false)
    | some p => garbageLoop vma n p (addr + pmemMinAlloc)

/-- `pmem_map_garbage`. -/
def pmemMapGarbage (offset len : Nat) : Ptes × Bool :=
  garbageLoop vma (len / pmemMinAlloc) p (vma.vmStart + offset)

/-- `pmem_unmap_pfn_range`. -/
def pmemUnmapPfnRange (offset len : Nat) : Ptes :=
  (pmemMapGarbage (zapPageRange p vma later (ulong (vma.vmStart + offset)) len) vma offset len).1

/-- `pmem_map_pfn_range`, for the block at `index`. -/
def pmemMapPfnRange (index offset len : Nat) : Ptes :=
  remapPfnRange p (ulong (vma.vmStart + offset)) (index + offset / pmemMinAlloc) len

/-- `pmem_remap_pfn_range`. -/
def pmemRemapPfnRange (index offset len : Nat) : Ptes :=
  pmemMapPfnRange (zapPageRange p vma later (ulong (vma.vmStart + offset)) len) vma index offset len

/-- `pmem_vma_open`. The length that it passes is negative. -/
def pmemVmaOpen : Ptes :=
  pmemUnmapPfnRange p vma later 0 (ulong ((vma.vmStart : Int) - vma.vmEnd))

end AndroidKernel.Pmem
