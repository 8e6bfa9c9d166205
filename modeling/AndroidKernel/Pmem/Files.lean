import AndroidKernel.Lib.Runs
import AndroidKernel.Pmem.PageTable

/-!
# The files of a pmem device

What `pmem_open`, `pmem_ioctl`, `pmem_mmap`, `pmem_vma_open`, `pmem_vma_close` and `pmem_release`
do to the files of one device with the buddy allocator, one that does not have `no_allocator` set.
The calls come one after the other. An area gets smaller by `munmap` only, and not in a forked
process.

A file is known by the address of its `struct file`, which may be used again after the file
has been released. Descriptors are looked up in the table of the calling process, which is
an argument of the call; a descriptor may be of a file of another pmem device.
-/

namespace AndroidKernel.Pmem

inductive Errno
  | EINVAL
  | EAGAIN
  deriving DecidableEq

/-- `struct pmem_region`. -/
structure PmemRegion where
  offset : Nat
  len : Nat
  deriving DecidableEq

/-- `struct pmem_data`, with the area that maps the file at present and the entries that the
calls have made in the page table of its process. -/
structure PmemData where
  index : Option Nat
  connected : Bool
  mastermap : Bool
  submap : Bool
  unsubmap : Bool
  vma : Option Vma
  /-- The task that has mapped the file has no `mm` any more. -/
  mmGone : Bool
  masterFd : Nat
  masterFile : Option Nat
  regionList : List PmemRegion
  area : Option Vma
  table : PageTable
  /-- The areas of the file that forked processes have, with the entries in them. -/
  children : List (Vma × PageTable)
  /-- The blocks that the file shared when their owner was released: first page and number
  of pages. -/
  lost : List (Nat × Nat)

namespace PmemData

/-- `PMEM_IS_SUBMAP`. -/
def isSubmap (data : PmemData) : Bool := data.submap && !data.unsubmap

/-- `is_master_owner`, for a process with these descriptors. -/
def isMasterOwner (data : PmemData) (fds : Nat → Option Nat) : Bool :=
  data.index.isSome &&
    (data.mastermap || (fds data.masterFd).any fun master => data.masterFile == some master)

/-- All areas that map the file, with the entries in them. -/
def areas (data : PmemData) : List (Vma × PageTable) :=
  (data.area.map fun vma => (vma, data.table)).toList ++ data.children

/-- The data of a file that has just been opened. -/
def opened : PmemData where
  index := none
  connected := false
  mastermap := false
  submap := false
  unsubmap := false
  vma := none
  mmGone := false
  masterFd := 0
  masterFile := none
  regionList := []
  area := none
  table _ := none
  children := []
  lost := []

end PmemData

/-- The device: its bitmap and its files, the changes of page tables with the area that each
was made for, and for each call of `pmem_free` whether the block was allocated. -/
structure Device where
  bits : Bitmap
  dataList : List Nat
  files : Nat → Option PmemData
  changes : List (Vma × Nat)
  freed : List Bool

namespace Device

def setFile (d : Device) (file : Nat) (data : PmemData) : Device :=
  { d with files := Function.update d.files file (some data) }

def change (d : Device) (vma : Vma) (p : Ptes) : Device :=
  { d with changes := d.changes ++ p.touched.map fun addr => (vma, addr) }

variable (num : Nat)

variable (d : Device) (file : Nat) (data : PmemData)

/-- `pmem_open`. -/
def pmemOpen : Device :=
  { d.setFile file .opened with dataList := file :: d.dataList }

/-- `PMEM_ALLOCATE`. -/
def allocate (len : Nat) : Device × Option Errno :=
  if data.index.isSome then (d, some .EINVAL)
  else
    let r := pmemAllocate num d.bits len
    ({ d with bits := r.bits }.setFile file { data with index := r.index }, none)

/-- `pmem_connect`. The descriptor `connect` is that of `src`; `foreign` is the index of a file of
another device. -/
def pmemConnect (connect : Nat) (src foreign : Option Nat) : Device × Option Errno :=
  match src with
  | none => (d, some .EINVAL)
  | some srcFile =>
    match (d.files srcFile).elim foreign PmemData.index with
    | none => (d, some .EINVAL)
    | some index =>
      if data.index.isSome ∧ data.index ≠ some index then (d, some .EINVAL)
      else
        (d.setFile file { data with
          index := some index, connected := true, masterFd := connect, masterFile := srcFile },
        none)

/-- `pmem_connect` gets past its checks: the source has an index, and the file has none or the
same. -/
def Connects (src foreign : Option Nat) : Prop :=
  ∃ srcFile ∈ src, ∃ index ∈ (d.files srcFile).elim foreign PmemData.index,
    data.index = none ∨ data.index = some index
  deriving Decidable

theorem pmemConnect_cases (connect : Nat) (src foreign : Option Nat) :
    d.pmemConnect file data connect src foreign = (d, some .EINVAL) ∨
      d.Connects data src foreign ∧ ∃ index srcFile : Nat,
        d.pmemConnect file data connect src foreign = (d.setFile file { data with
          index := some index, connected := true, masterFd := connect, masterFile := some srcFile },
            none) := by
  unfold pmemConnect
  cases src with
  | none => exact .inl rfl
  | some srcFile =>
    simp only
    split
    next => exact .inl rfl
    next index hindex =>
      split
      next => exact .inl rfl
      next hsame =>
        refine .inr ⟨⟨srcFile, rfl, index, hindex, ?_⟩, index, srcFile, rfl⟩
        by_contra hnot
        rw [not_or] at hnot
        exact hsame ⟨Option.isSome_iff_ne_none.mpr hnot.1, hnot.2⟩

/-! ## `pmem_mmap` -/

/-- The index that a file has in `pmem_mmap`: if it has none, a block is allocated. -/
def mmapAllocate (vma : Vma) : Bitmap × Option Nat :=
  if data.index = none then
    let r := pmemAllocate num d.bits vma.size
    (r.bits, r.index)
  else (d.bits, data.index)

/-- The regions of a connected file are mapped. -/
def mapRegions (vma : Vma) (index : Nat) (regions : List PmemRegion) (p : Ptes) : Ptes :=
  regions.foldl (fun p region => pmemRemapPfnRange p vma [] index region.offset region.len) p

/-- What `pmem_mmap` maps, once the file has a block. While it runs, the area is not yet in the list
of areas. If it fails, the area is unmapped. -/
def mmapPages (vma : Vma) (index : Nat) : Device × Option Errno :=
  let p : Ptes := ⟨data.table, []⟩
  if data.connected then
    match pmemMapGarbage p vma 0 vma.size with
    | (p, false) =>
      let q := p.clear (pages vma.vmStart vma.vmEnd)
      ((d.change vma p).setFile file { data with table := q.table }, some .EAGAIN)
    | (p, true) =>
      let p := mapRegions vma index data.regionList p
      ((d.change vma p).setFile file { data with
        submap := true, vma := some vma, mmGone := false, area := some vma, table := p.table },
          none)
  else
    let p := pmemMapPfnRange p vma index 0 vma.size
    ((d.change vma p).setFile file { data with
      mastermap := true, area := some vma, table := p.table }, none)

/-- `pmem_mmap`. -/
def pmemMmap (vma : Vma) (pgoff : Nat) : Device × Option Errno :=
  if pgoff ≠ 0 ∨ ¬pmemMinAlloc ∣ vma.size then (d, some .EINVAL)
  else if data.mastermap ∨ data.submap ∨ data.unsubmap then (d, some .EINVAL)
  else
    let (bits, index) := mmapAllocate num d data vma
    let d := { d with bits := bits }
    let data := { data with index := index }
    match index with
    | none => (d.setFile file data, some .EINVAL)
    | some index =>
      if ulong (pmemLen bits index) < vma.size then (d.setFile file data, some .EINVAL)
      else mmapPages d file data vma index

/-- `pmem_mmap` gets past its checks, where a file that has no index gets one. -/
def Mappable (vma : Vma) (pgoff : Nat) : Prop :=
  pgoff = 0 ∧ (data.mastermap = false ∧ data.submap = false ∧ data.unsubmap = false) ∧
    ∀ index ∈ data.index, vma.size ≤ ulong (pmemLen d.bits index)
  deriving Decidable

/-- What a call of `pmem_mmap` comes to. A file that has an index keeps it. -/
inductive Mmapped (d : Device) (file : Nat) (data : PmemData) (vma : Vma) (pgoff : Nat) :
    Device × Option Errno → Prop
  | refused : Mmapped d file data vma pgoff (d, some .EINVAL)
  | unmapped (bits : Bitmap) (index : Option Nat)
      (hindex : data.index = none ∨ bits = d.bits ∧ index = data.index) :
      Mmapped d file data vma pgoff
        ({ d with bits := bits }.setFile file { data with index := index }, some .EINVAL)
  | failed (bits : Bitmap) (index : Nat) (p : Ptes)
      (hindex : data.index = none ∨ bits = d.bits ∧ some index = data.index)
      (hconn : data.connected = true)
      (hp : pmemMapGarbage ⟨data.table, []⟩ vma 0 vma.size = (p, false)) :
      Mmapped d file data vma pgoff
        (({ d with bits := bits }.change vma p).setFile file { data with
          index := some index, table := (p.clear (pages vma.vmStart vma.vmEnd)).table },
          some .EAGAIN)
  | submap (bits : Bitmap) (index : Nat) (p : Ptes)
      (hindex : data.index = none ∨ bits = d.bits ∧ some index = data.index)
      (hconn : data.connected = true) (hmap : d.Mappable data vma pgoff)
      (hp : pmemMapGarbage ⟨data.table, []⟩ vma 0 vma.size = (p, true)) :
      Mmapped d file data vma pgoff
        (({ d with bits := bits }.change vma (mapRegions vma index data.regionList p)).setFile file
          { data with
            index := some index, submap := true, vma := some vma, mmGone := false, area := some vma
            table := (mapRegions vma index data.regionList p).table },
          none)
  | master (bits : Bitmap) (index : Nat)
      (hindex : data.index = none ∨ bits = d.bits ∧ some index = data.index)
      (hconn : data.connected = false)
      (hflags : data.mastermap = false ∧ data.submap = false ∧ data.unsubmap = false) :
      Mmapped d file data vma pgoff
        (({ d with bits := bits }.change vma
          (pmemMapPfnRange ⟨data.table, []⟩ vma index 0 vma.size)).setFile file
          { data with
            index := some index, mastermap := true, area := some vma
            table := (pmemMapPfnRange ⟨data.table, []⟩ vma index 0 vma.size).table },
          none)

theorem pmemMmap_mmapped (vma : Vma) (pgoff : Nat) :
    Mmapped d file data vma pgoff (d.pmemMmap num file data vma pgoff) := by
  have hindex : data.index = none ∨ (mmapAllocate num d data vma).1 = d.bits ∧
      (mmapAllocate num d data vma).2 = data.index := by
    unfold mmapAllocate
    split
    next hnone => exact .inl hnone
    next => exact .inr ⟨rfl, rfl⟩
  unfold pmemMmap
  generalize mmapAllocate num d data vma = r at hindex
  obtain ⟨bits, index⟩ := r
  split
  next => exact .refused
  next hpgoff =>
    split
    next => exact .refused
    next hflags =>
      simp only [not_or, Bool.not_eq_true] at hflags
      cases index with
      | none => exact .unmapped bits none hindex
      | some index =>
        simp only
        split
        next => exact .unmapped bits (some index) hindex
        next hlen =>
          have hmap : d.Mappable data vma pgoff := by
            refine ⟨by_contra fun h => hpgoff (.inl h), hflags, fun i hi => ?_⟩
            rcases hindex with hnone | ⟨rfl, heq⟩
            · cases hnone.symm.trans hi
            · cases heq.trans hi
              exact Nat.not_lt.mp hlen
          unfold mmapPages
          simp only
          split
          next hconn =>
            split
            next p hp => exact .failed bits index p hindex hconn hp
            next p hp => exact .submap bits index p hindex hconn hmap hp
          next hconn => exact .master bits index hindex (Bool.eq_false_iff.mpr hconn) hflags

/-! ## `pmem_remap` -/

/-- The checks of `pmem_remap` before it changes anything; `none` is that it goes on. -/
def remapRefused (region : PmemRegion) (fds : Nat → Option Nat) : Option (Option Errno) :=
  if ¬(pmemMinAlloc ∣ region.offset ∧ pmemMinAlloc ∣ region.len) then some (some .EINVAL)
  else if region.len = 0 then some none
  else if data.isSubmap ∧ data.mmGone then some none
  else if ¬data.isMasterOwner fds then some (some .EINVAL)
  else
    let len := data.index.elim 0 fun index => ulong (pmemLen d.bits index)
    if region.offset > len ∨ region.len > len ∨ ulong (region.offset + region.len) > len then
      some (some .EINVAL)
    else none

/-- The page table is changed if the file is submapped. -/
def remapPages (f : Ptes → Vma → Ptes) : Device :=
  match data.vma with
  | some vma =>
    if data.isSubmap then
      let p := f ⟨data.table, []⟩ vma
      (d.change vma p).setFile file { data with table := p.table }
    else d.setFile file data
  | none => d.setFile file data

/-- `PMEM_MAP`. -/
def pmemMap (region : PmemRegion) (fds : Nat → Option Nat) (later : List Vma) :
    Device × Option Errno :=
  match d.remapRefused data region fds with
  | some ret => (d, ret)
  | none =>
    let data := { data with regionList := region :: data.regionList }
    (d.remapPages file data fun p vma =>
      pmemRemapPfnRange p vma later (data.index.getD 0) region.offset region.len, none)

/-- `PMEM_UNMAP`. -/
def pmemUnmap (region : PmemRegion) (fds : Nat → Option Nat) (later : List Vma) :
    Device × Option Errno :=
  match d.remapRefused data region fds with
  | some ret => (d, ret)
  | none =>
    if region ∈ data.regionList then
      let data := { data with regionList := data.regionList.filter (· ≠ region) }
      (d.remapPages file data fun p vma =>
        pmemUnmapPfnRange p vma later region.offset region.len, none)
    else (d, some .EINVAL)

/-! ## `pmem_release` -/

def unmapRegions (vma : Vma) (later : List Vma) (regions : List PmemRegion) (p : Ptes) : Ptes :=
  regions.foldl (fun p region => pmemUnmapPfnRange p vma later region.offset region.len) p

/-- `pmem_revoke`. -/
def pmemRevoke (later : List Vma) : Device :=
  let data := { data with masterFile := none }
  if data.isSubmap ∧ data.mmGone then d.setFile file data
  else
    match data.vma with
    | none => d.setFile file data
    | some vma =>
      let p := unmapRegions vma later data.regionList ⟨data.table, []⟩
      (d.change vma p).setFile file { data with table := p.table, regionList := [] }

/-- The loop of `pmem_release` over the files: those that are submapped and have `master` as
their master are revoked. -/
def revokeAll (master : Nat) (later : Nat → List Vma) : List Nat → Device → Device
  | [], d => d
  | file :: rest, d =>
    match d.files file with
    | none => revokeAll master later rest d
    | some data =>
      if data.isSubmap ∧ data.masterFile = some master then
        revokeAll master later rest (d.pmemRevoke file data (later file))
      else revokeAll master later rest d

/-- The files that share the block at `index` have lost it. -/
def lose (files : Nat → Option PmemData) (index count : Nat) (file : Nat) : Option PmemData :=
  (files file).map fun data =>
    if data.index = some index then { data with lost := (index, count) :: data.lost } else data

/-- `pmem_release`. -/
def pmemRelease (later : Nat → List Vma) : Device :=
  let d := if data.mastermap then revokeAll file later d.dataList d else d
  let d := { d with dataList := d.dataList.erase file, files := Function.update d.files file none }
  match data.index with
  | none => d
  | some index =>
    if data.connected then d
    else { d with
      bits := (pmemFree num d.bits index).bits
      freed := d.freed ++ [(d.bits index).allocated]
      files := lose d.files index (2 ^ (d.bits index).order) }

/-! ## Areas that are unmapped or copied -/

/-- `pmem_vma_close`, when the area that maps the file has been unmapped. -/
def pmemVmaClose (vma : Vma) : Device :=
  let p := Ptes.clear ⟨data.table, []⟩ (pages vma.vmStart vma.vmEnd)
  let data := { data with area := none, table := p.table }
  if data.vma.isSome then
    d.setFile file { data with
      vma := none, unsubmap := data.unsubmap || (data.connected && data.submap) }
  else d.setFile file data

/-- `munmap` of the first or last pages of an area: these are split off as `part`, for which
`pmem_vma_open` is called, and unmapped; the area is `rest` from then on. -/
def splitVma (rest part : Vma) (later : List Vma) : Device :=
  let p := pmemVmaOpen ⟨data.table, []⟩ part later
  let q := p.clear (pages part.vmStart part.vmEnd)
  (d.change part p).setFile file { data with
    area := some rest, vma := data.vma.map fun _ => rest, table := q.table }

/-- `dup_mmap` for an area of the file: its entries are copied, and `pmem_vma_open` is called before
the areas that follow are copied. -/
def dupMmap (vma : Vma) (table : PageTable) : Device :=
  let p := pmemVmaOpen ⟨fun addr => if vma.Has addr then table addr else none, []⟩ vma []
  (d.change vma p).setFile file { data with children := data.children ++ [(vma, p.table)] }

/-! ## The machine -/

inductive Op
  | «open» (file : Nat)
  | allocate (file len : Nat)
  | connect (file fd : Nat) (src foreign : Option Nat)
  | mmap (file : Nat) (vma : Vma) (pgoff : Nat)
  | map (file offset len : Nat) (fds : Nat → Option Nat) (later : List Vma)
  | unmap (file offset len : Nat) (fds : Nat → Option Nat) (later : List Vma)
  | munmap (file : Nat)
  | munmapPart (file : Nat) (rest part : Vma) (later : List Vma)
  /-- The process that has this one of the areas of the file is forked. -/
  | fork (file area : Nat)
  /-- A forked process unmaps its area or exits. -/
  | childExit (file child : Nat)
  /-- The task that has mapped the file gives up its `mm`, which others may still use. -/
  | taskExit (file : Nat)
  | release (file : Nat) (later : Nat → List Vma)
  /-- Others write to the memory behind the bitmap. -/
  | others (memory : Bitmap)

/-- The parts of an area that is split. -/
def Parts (vma rest part : Vma) : Prop :=
  part.vmStart = vma.vmStart ∧ part.vmEnd = rest.vmStart ∧ rest.vmEnd = vma.vmEnd ∨
    rest.vmStart = vma.vmStart ∧ rest.vmEnd = part.vmStart ∧ part.vmEnd = vma.vmEnd
  deriving Decidable

/-- The areas that follow in the list lie behind. -/
def Follow (vma : Option Vma) (later : List Vma) : Prop :=
  ∀ v ∈ vma, ∀ w ∈ later, v.vmEnd ≤ w.vmStart
  deriving Decidable

/-- A call. A file is mapped by one area at most, and those that were copied from it; an area keeps
its file from being released. -/
def step : Op → Option Device
  | .open file => if d.files file = none then some (d.pmemOpen file) else none
  | .allocate file len => (d.files file).map fun data => (d.allocate num file data (ulong len)).1
  | .connect file fd src foreign =>
    (d.files file).map fun data => (d.pmemConnect file data fd src foreign).1
  | .mmap file vma pgoff =>
    (d.files file).bind fun data =>
      if data.area = none then some (d.pmemMmap num file data vma pgoff).1 else none
  | .map file offset len fds later =>
    (d.files file).bind fun data =>
      if Follow data.vma later then
        some (d.pmemMap file data ⟨ulong offset, ulong len⟩ fds later).1
      else none
  | .unmap file offset len fds later =>
    (d.files file).bind fun data =>
      if Follow data.vma later then
        some (d.pmemUnmap file data ⟨ulong offset, ulong len⟩ fds later).1
      else none
  | .munmap file =>
    (d.files file).bind fun data => data.area.map fun vma => d.pmemVmaClose file data vma
  | .munmapPart file rest part later =>
    (d.files file).bind fun data => data.area.bind fun vma =>
      if Parts vma rest part ∧ Follow (some vma) later then
        some (d.splitVma file data rest part later)
      else none
  | .fork file area =>
    (d.files file).bind fun data => data.areas[area]?.map fun parent =>
      d.dupMmap file data parent.1 parent.2
  | .childExit file child => (d.files file).map fun data =>
      d.setFile file { data with children := data.children.eraseIdx child }
  | .taskExit file => (d.files file).map fun data => d.setFile file { data with mmGone := true }
  | .release file later =>
    (d.files file).bind fun data =>
      if (data.area = none ∧ data.children.isEmpty) ∧
          ∀ f ∈ d.dataList, ∀ x ∈ d.files f, Follow x.vma (later f) then
        some (d.pmemRelease num file data later)
      else none
  | .others memory => some { d with bits := fun x => if x < num then d.bits x else memory x }

def init (behind : Bitmap) : Device where
  bits := (pmemSetup num behind).bits
  dataList := []
  files _ := none
  changes := []
  freed := []

end Device

end AndroidKernel.Pmem
