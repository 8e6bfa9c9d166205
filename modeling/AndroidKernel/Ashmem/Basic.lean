import AndroidKernel.Lib.Heap
import AndroidKernel.Lib.Runs
import AndroidKernel.Lib.Words

/-!
# Anonymous shared memory (`mm/ashmem.c`)

An area is a file whose pages user space can *unpin*, so that the kernel may drop
their content when memory is short, and pin again. The unpinned pages of an area
are kept as a list of ranges, the highest one first; all ranges that have not
been purged are also on one list of the least recently unpinned, with a count of
their pages. `size_t` is `unsigned long`, and `int` is `long`. Each operation is one
step; all but `ASHMEM_SET_SIZE` work under `ashmem_mutex`.

A range is on its area's list from its allocation until it is freed, so that it
is an item of that list here and has a number to name it on the other list. Names
and protection masks are left out; the checks of `mmap` that depend on them, the
allocations and the copies from user space are up to the surroundings. `history`
and `belowZero` are not part of the driver: they record what happened, for the
statements about whole runs.
-/

namespace AndroidKernel.Ashmem

abbrev AreaId := Nat
abbrev RangeId := Nat

def pageSize : Nat := 4096

def eNoMem : Int := -12
def eFault : Int := -14
def eInval : Int := -22
def ePerm : Int := -1

/-- The answers to `ASHMEM_PIN`. -/
def ashmemNotPurged : Int := 0
def ashmemWasPurged : Int := 1

/-- The answers to `ASHMEM_GET_PIN_STATUS`. -/
def ashmemIsUnpinned : Int := 0
def ashmemIsPinned : Int := 1

/-! ## The structures -/

/-- `struct ashmem_range`. `purged` is `ASHMEM_WAS_PURGED`. -/
structure AshmemRange where
  id : RangeId
  pgstart : Nat
  pgend : Nat
  purged : Bool
  deriving DecidableEq

/-- `struct ashmem_area`. -/
structure AshmemArea where
  file : Bool := false
  size : Nat := 0
  unpinnedList : List AshmemRange := []
  deriving DecidableEq

/-- `ashmem_lru_list` and `lru_count`, and the name for the next range. -/
structure Lru where
  ashmemLruList : List (AreaId × RangeId) := []
  lruCount : Nat := 0
  nextRange : RangeId := 0
  belowZero : Bool := false
  deriving DecidableEq

/-- What the statements about runs mention. -/
inductive Event where
  /-- the bytes from `start` to `fin` of an area's file were truncated -/
  | truncated (a : AreaId) (start fin : Nat)
  /-- the pages from `pgstart` to `pgend` were pinned -/
  | pinned (a : AreaId) (pgstart pgend : Nat)
  deriving DecidableEq

/-- The whole driver. -/
structure State where
  areas : Heap AshmemArea
  lru : Lru
  history : List Event

def State.init : State where
  areas := .empty
  lru := {}
  history := []

/-! ## Ranges -/

namespace AshmemRange

variable (range : AshmemRange) (start fin : Nat)

/-- `range_size`. -/
def size : Nat := ulong ((range.pgend : Int) - range.pgstart + 1)

/-- `range_on_lru`. -/
def onLru : Bool := !range.purged

/-- `page_range_subsumes_range`. -/
def subsumed : Bool :=
  range.pgstart ≥ start && range.pgend ≤ fin

/-- `page_range_subsumed_by_range`. -/
def subsumes : Bool :=
  range.pgstart ≤ start && range.pgend ≥ fin

/-- `page_in_range`. -/
def contains (page : Nat) : Bool :=
  range.pgstart ≤ page && range.pgend ≥ page

/-- `page_range_in_range`. -/
def meets : Bool :=
  range.contains start || range.contains fin || range.subsumed start fin

/-- `range_before_page`. -/
def before (page : Nat) : Bool := range.pgend < page

end AshmemRange

namespace Lru

variable (lru : Lru) (a : AreaId) (range : AshmemRange)

/-- `lru_count -= n`. -/
def sub (n : Nat) : Lru :=
  { lru with
    lruCount := ulong (lru.lruCount - n)
    belowZero := lru.belowZero || lru.lruCount < n }

/-- `lru_add`. -/
def add : Lru :=
  { lru with
    ashmemLruList := lru.ashmemLruList ++ [(a, range.id)]
    lruCount := ulong (lru.lruCount + range.size) }

/-- `lru_del`. -/
def del : Lru :=
  { lru with ashmemLruList := lru.ashmemLruList.erase (a, range.id) }.sub range.size

/-- `range_alloc`: the new range, if there is memory for it. Its place on the list
of its area is up to the caller. -/
def rangeAlloc (alloc purged : Bool) (start fin : Nat) : Option AshmemRange × Lru :=
  if alloc then
    let range : AshmemRange :=
      { id := lru.nextRange, pgstart := start, pgend := fin, purged := purged }
    let lru := { lru with nextRange := lru.nextRange + 1 }
    (some range, if range.onLru then lru.add a range else lru)
  else (none, lru)

/-- `range_del`, but for the list of the area. -/
def rangeDel : Lru :=
  if range.onLru then lru.del a range else lru

/-- `range_shrink`. -/
def rangeShrink (start fin : Nat) : AshmemRange × Lru :=
  let range' := { range with pgstart := start, pgend := fin }
  (range', if range.onLru then lru.sub (ulong ((range.size : Int) - range'.size)) else lru)

end Lru

/-! ## Pinning -/

/-- The loop of `ashmem_pin`. The result is the list of the area, and whether any
of the pages was purged. -/
def pinLoop (a : AreaId) (alloc : Bool) (pgstart pgend : Nat) :
    List AshmemRange → Lru → Bool → List AshmemRange × Lru × Bool
  | [], lru, ret => ([], lru, ret)
  | range :: ranges, lru, ret =>
    if range.before pgstart then (range :: ranges, lru, ret)
    else if range.meets pgstart pgend then
      let ret := ret || range.purged
      if range.subsumed pgstart pgend then
        pinLoop a alloc pgstart pgend ranges (lru.rangeDel a range) ret
      else if range.pgstart ≥ pgstart then
        let (range, lru) := lru.rangeShrink range (ulong (pgend + 1)) range.pgend
        let (ranges, lru, ret) := pinLoop a alloc pgstart pgend ranges lru ret
        (range :: ranges, lru, ret)
      else if range.pgend ≤ pgend then
        let (range, lru) := lru.rangeShrink range range.pgstart (ulong ((pgstart : Int) - 1))
        let (ranges, lru, ret) := pinLoop a alloc pgstart pgend ranges lru ret
        (range :: ranges, lru, ret)
      else
        let (new, lru) := lru.rangeAlloc a alloc range.purged (ulong (pgend + 1)) range.pgend
        let (range, lru) := lru.rangeShrink range range.pgstart (ulong ((pgstart : Int) - 1))
        (new.toList ++ range :: ranges, lru, ret)
    else
      let (ranges, lru, ret) := pinLoop a alloc pgstart pgend ranges lru ret
      (range :: ranges, lru, ret)

/-- `ashmem_pin`; `true` is `ASHMEM_WAS_PURGED`. -/
def ashmemPin (a : AreaId) (alloc : Bool) (pgstart pgend : Nat) (ranges : List AshmemRange)
    (lru : Lru) : List AshmemRange × Lru × Bool :=
  pinLoop a alloc pgstart pgend ranges lru false

/-- How the loop of `ashmem_unpin` ends: the pages are unpinned already, a range
is to be merged with them (and has left the list), or the new range has its place
between two parts of the list. -/
inductive UnpinScan where
  | covered
  | merge (range : AshmemRange) (rest : List AshmemRange)
  | insert (above below : List AshmemRange)

/-- A range in front of what has been scanned. -/
def UnpinScan.cons (range : AshmemRange) : UnpinScan → UnpinScan
  | .covered => .covered
  | .merge range' rest => .merge range' (range :: rest)
  | .insert above below => .insert (range :: above) below

/-- The loop of `ashmem_unpin`. -/
def unpinScan (pgstart pgend : Nat) : List AshmemRange → UnpinScan
  | [] => .insert [] []
  | range :: ranges =>
    if range.before pgstart then .insert [] (range :: ranges)
    else if range.subsumes pgstart pgend then .covered
    else if range.meets pgstart pgend then .merge range ranges
    else (unpinScan pgstart pgend ranges).cons range

/-- `ashmem_unpin` from the label `restart` on. Each round takes one range off the
list, so that `fuel` above the length of the list is enough. -/
def unpinLoop (a : AreaId) (alloc : Bool) : Nat → Nat → Nat → Bool → List AshmemRange → Lru →
    List AshmemRange × Lru × Int
  | 0, _, _, _, ranges, lru => (ranges, lru, 0)
  | fuel + 1, pgstart, pgend, purged, ranges, lru =>
    match unpinScan pgstart pgend ranges with
    | .covered => (ranges, lru, 0)
    | .merge range rest =>
      unpinLoop a alloc fuel (min range.pgstart pgstart) (max range.pgend pgend)
        (purged || range.purged) rest (lru.rangeDel a range)
    | .insert above below =>
      match lru.rangeAlloc a alloc purged pgstart pgend with
      | (some range, lru) => (above ++ range :: below, lru, 0)
      | (none, lru) => (above ++ below, lru, eNoMem)

/-- `ashmem_unpin`. -/
def ashmemUnpin (a : AreaId) (alloc : Bool) (pgstart pgend : Nat) (ranges : List AshmemRange)
    (lru : Lru) : List AshmemRange × Lru × Int :=
  unpinLoop a alloc (ranges.length + 1) pgstart pgend false ranges lru

/-- `ashmem_get_pin_status`; `true` is `ASHMEM_IS_UNPINNED`. -/
def ashmemGetPinStatus (pgstart pgend : Nat) : List AshmemRange → Bool
  | [] => false
  | range :: ranges =>
    if range.before pgstart then false
    else if range.meets pgstart pgend then true
    else ashmemGetPinStatus pgstart pgend ranges

/-! ## The requests -/

/-- The three requests that are about pages. -/
inductive PinCommand where
  | pin
  | unpin
  | getPinStatus
  deriving DecidableEq

/-- `struct ashmem_pin`. -/
structure AshmemPin where
  offset : UInt32
  len : UInt32
  deriving DecidableEq

/-- `pin.len` after a length of 0 was replaced. -/
def AshmemPin.length (pin : AshmemPin) (size : Nat) : Nat :=
  if pin.len = 0 then ulong ((pageAlign size : Int) - pin.offset.toNat) else pin.len.toNat

/-- The checks of `ashmem_pin_unpin`, and the first and the last page of a request
that passes them. -/
def AshmemPin.pages (pin : AshmemPin) (size : Nat) : Option (Nat × Nat) :=
  let offset := pin.offset.toNat
  let len := pin.length size
  if (offset ||| len) % pageSize ≠ 0 then none
  else if ulong (2 ^ 32 - 1 - offset) < len then none
  else if pageAlign size < ulong (offset + len) then none
  else
    let pgstart := offset / pageSize
    some (pgstart, ulong ((pgstart + len / pageSize : Int) - 1))

namespace State

variable (s : State) (a : AreaId) (area : AshmemArea)

/-- The list of an area and the other list after a request. -/
def update (ranges : List AshmemRange) (lru : Lru) : State :=
  { s with areas := s.areas.set a { area with unpinnedList := ranges }, lru := lru }

/-- `ASHMEM_PIN` for the pages from `pgstart` to `pgend`. -/
def pinPages (alloc : Bool) (pgstart pgend : Nat) : State × Int :=
  let (ranges, lru, purged) := ashmemPin a alloc pgstart pgend area.unpinnedList s.lru
  let s := s.update a area ranges lru
  ({ s with history := s.history ++ [.pinned a pgstart pgend] },
    if purged then ashmemWasPurged else ashmemNotPurged)

/-- `ASHMEM_UNPIN`. -/
def unpinPages (alloc : Bool) (pgstart pgend : Nat) : State × Int :=
  let (ranges, lru, ret) := ashmemUnpin a alloc pgstart pgend area.unpinnedList s.lru
  (s.update a area ranges lru, ret)

section

variable (alloc : Bool) (pgstart pgend : Nat)

theorem pinPages_eq : s.pinPages a area alloc pgstart pgend =
      let res := ashmemPin a alloc pgstart pgend area.unpinnedList s.lru
      ({ s.update a area res.1 res.2.1 with history := s.history ++ [.pinned a pgstart pgend] },
        if res.2.2 then ashmemWasPurged else ashmemNotPurged) := rfl

theorem unpinPages_eq : s.unpinPages a area alloc pgstart pgend =
      let res := ashmemUnpin a alloc pgstart pgend area.unpinnedList s.lru
      (s.update a area res.1 res.2.1, res.2.2) := rfl

end

/-- `ashmem_pin_unpin`; `copied` says whether the request can be read. -/
def ashmemPinUnpin (cmd : PinCommand) (pin : AshmemPin) (copied alloc : Bool) : State × Int :=
  if !area.file then (s, eInval)
  else if !copied then (s, eFault)
  else
    match pin.pages area.size with
    | none => (s, eInval)
    | some (pgstart, pgend) =>
      match cmd with
      | .pin => s.pinPages a area alloc pgstart pgend
      | .unpin => s.unpinPages a area alloc pgstart pgend
      | .getPinStatus =>
        (s, if ashmemGetPinStatus pgstart pgend area.unpinnedList then ashmemIsUnpinned
          else ashmemIsPinned)

/-! ## The shrinker -/

/-- A range of an area by its name. -/
def findRange (id : RangeId) : Option (AshmemArea × AshmemRange) :=
  (s.areas.get a).bind fun area =>
    (area.unpinnedList.find? fun range => range.id == id).map fun range => (area, range)

/-- The flag of a range is set. -/
def markPurged (id : RangeId) (ranges : List AshmemRange) : List AshmemRange :=
  ranges.map fun range => if range.id = id then { range with purged := true } else range

/-- The pages of a range are truncated and the range leaves the list. -/
def purge (range : AshmemRange) : State :=
  let start := ulong (range.pgstart * pageSize)
  let fin := ulong (((range.pgend : Int) + 1) * pageSize - 1)
  let s := s.update a area (markPurged range.id area.unpinnedList) (s.lru.del a range)
  { s with history := s.history ++ [.truncated a start fin] }

/-- The loop of `ashmem_shrink` over the list as it was at the start. -/
def shrinkLoop : List (AreaId × RangeId) → State → Int → State
  | [], s, _ => s
  | (a, id) :: rest, s, nrToScan =>
    match s.findRange a id with
    | none => s
    | some (area, range) =>
      let s := s.purge a area range
      let nrToScan := long (nrToScan - range.size)
      if nrToScan ≤ 0 then s else shrinkLoop rest s nrToScan

/-- `ashmem_shrink`; `fs` is `gfp_mask & __GFP_FS`. -/
def ashmemShrink (nrToScan : Int) (fs : Bool) : State × Int :=
  if nrToScan ≠ 0 ∧ !fs then (s, -1)
  else if nrToScan = 0 then (s, long s.lru.lruCount)
  else
    let s := shrinkLoop s.lru.ashmemLruList s nrToScan
    (s, long s.lru.lruCount)

/-! ## The other operations -/

/-- `ashmem_open`. -/
def ashmemOpen (alloc : Bool) : State × Int :=
  if alloc then ({ s with areas := s.areas.alloc {} }, 0) else (s, eNoMem)

/-- `ashmem_release`. -/
def ashmemRelease : State :=
  { s with
    areas := s.areas.free a
    lru := area.unpinnedList.foldl (fun lru range => lru.rangeDel a range) s.lru }

/-- `ASHMEM_SET_SIZE`. -/
def setSize (size : UInt32) : State × Int :=
  if area.file then (s, eInval)
  else ({ s with areas := s.areas.set a { area with size := size.toNat } }, 0)

/-- `ashmem_mmap`; `allowed` says that the protection is, `setup` what
`shmem_file_setup` returns. -/
def ashmemMmap (allowed : Bool) (setup : Int) : State × Int :=
  if area.size = 0 then (s, eInval)
  else if !allowed then (s, ePerm)
  else if area.file then (s, 0)
  else if setup < 0 then (s, setup)
  else ({ s with areas := s.areas.set a { area with file := true } }, 0)

/-- `ASHMEM_PURGE_ALL_CACHES`. -/
def purgeAllCaches (capable : Bool) : State × Int :=
  if capable then
    let (s, ret) := s.ashmemShrink 0 true
    let (s, _) := s.ashmemShrink ret true
    (s, ret)
  else (s, ePerm)

end State

/-! ## Runs -/

/-- The operations on areas. -/
inductive Op where
  | openFile (alloc : Bool)
  | release (a : AreaId)
  | setSize (a : AreaId) (size : UInt32)
  | mmap (a : AreaId) (allowed : Bool) (setup : Int)
  | pinUnpin (a : AreaId) (cmd : PinCommand) (pin : AshmemPin) (copied alloc : Bool)
  | purgeAllCaches (capable : Bool)
  | shrink (nrToScan : Int) (fs : Bool)
  deriving DecidableEq

/-- One operation and what it returns. Nobody can use an area that is not open. -/
def State.call (s : State) : Op → Option (State × Int)
  | .openFile alloc => some (s.ashmemOpen alloc)
  | .release a => (s.areas.get a).map fun area => (s.ashmemRelease a area, 0)
  | .setSize a size => (s.areas.get a).map fun area => s.setSize a area size
  | .mmap a allowed setup => (s.areas.get a).map fun area => s.ashmemMmap a area allowed setup
  | .pinUnpin a cmd pin copied alloc =>
    (s.areas.get a).map fun area => s.ashmemPinUnpin a area cmd pin copied alloc
  | .purgeAllCaches capable => some (s.purgeAllCaches capable)
  | .shrink nrToScan fs => some (s.ashmemShrink nrToScan fs)

/-- One operation. -/
def State.step (s : State) (op : Op) : Option State := (s.call op).map Prod.fst

end AndroidKernel.Ashmem
