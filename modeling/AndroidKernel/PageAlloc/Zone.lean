import Mathlib.Algebra.Order.Ring.Int

/-!
# The page allocator (`mm/page_alloc.c`)

The part that runs with `zone->lock` held: `__rmqueue` takes a block of `2 ^ order` pages from the
free lists of a zone, `__free_one_page` gives one back.

A page is known by its frame number. Of `struct page` there are `PG_buddy` and `page_private`, which
has the order of a free block. `list_del` takes a page out of the list that it is on. The migrate
types of pageblocks are left out, as `__rmqueue` sets them but only the callers of `__free_one_page`
look at them; so are compound pages, and the numbers that `move_freepages` counts.
-/

namespace AndroidKernel.PageAlloc

open Function

inductive MigrateType
  | unmovable
  | reclaimable
  | movable
  | reserve
  | isolate
  deriving DecidableEq

namespace MigrateType

def all : List MigrateType := [unmovable, reclaimable, movable, reserve, isolate]

/-- The rows of `fallbacks` have four entries; those that are not initialized are zero, which is
`MIGRATE_UNMOVABLE`. -/
def fallbacks : MigrateType → List MigrateType
  | unmovable => [reclaimable, movable, reserve, unmovable]
  | reclaimable => [unmovable, movable, reserve, unmovable]
  | movable => [reclaimable, unmovable, reserve, unmovable]
  | reserve => [reserve, reserve, reserve, unmovable]
  | isolate => [unmovable, unmovable, unmovable, unmovable]

end MigrateType

/-- What is fixed when the zone is set up. -/
structure Config where
  /-- `MAX_ORDER` -/
  maxOrder : Nat
  pageblockOrder : Nat
  zoneStartPfn : Nat
  spannedPages : Nat
  pageGroupByMobilityDisabled : Bool

structure Zone where
  /-- `free_area[order].free_list[migratetype]` -/
  freeList : Nat → MigrateType → List Nat
  /-- `free_area[order].nr_free` -/
  nrFree : Nat → Int
  pageBuddy : Nat → Bool
  pageOrder : Nat → Nat

namespace Zone

variable (c : Config) (z : Zone) (order : Nat)

def setPageOrder (page order : Nat) : Zone :=
  { z with
    pageOrder := update z.pageOrder page order
    pageBuddy := update z.pageBuddy page true }

def rmvPageOrder (page : Nat) : Zone :=
  { z with
    pageBuddy := update z.pageBuddy page false
    pageOrder := update z.pageOrder page 0 }

/-- `list_del(&page->lru)` -/
def listDel (page : Nat) : Zone :=
  { z with freeList := fun order t => (z.freeList order t).filter (· ≠ page) }

/-- `list_add(&page->lru, &zone->free_area[order].free_list[migratetype])` -/
def listAdd (page order : Nat) (migratetype : MigrateType) : Zone :=
  { z with
    freeList := update z.freeList order
      (update (z.freeList order) migratetype (page :: z.freeList order migratetype)) }

/-- `zone->free_area[order].nr_free += d` -/
def addNrFree (d : Int) : Zone :=
  { z with nrFree := update z.nrFree order (z.nrFree order + d) }

/-! ## Freeing -/

/-- `__page_find_buddy` -/
def pageFindBuddy (page pageIdx order : Nat) : Nat :=
  let buddyIdx := pageIdx ^^^ 2 ^ order
  page + buddyIdx - pageIdx

/-- `__find_combined_index`: the bit is cleared. -/
def findCombinedIndex (pageIdx order : Nat) : Nat := pageIdx - (pageIdx &&& 2 ^ order)

/-- `page_is_buddy`; the page itself is in the zone. -/
def pageIsBuddy (buddy order : Nat) : Bool :=
  decide (c.zoneStartPfn ≤ buddy ∧ buddy < c.zoneStartPfn + c.spannedPages) && z.pageBuddy buddy &&
    decide (z.pageOrder buddy = order)

/-- The loop of `__free_one_page`; the first argument is how many orders there are above. -/
def mergeLoop (c : Config) : Nat → Zone → (page pageIdx order : Nat) → Zone × Nat × Nat
  | 0, z, page, _, order => (z, page, order)
  | n + 1, z, page, pageIdx, order =>
    let buddy := pageFindBuddy page pageIdx order
    if pageIsBuddy c z buddy order then
      let z := ((z.listDel buddy).addNrFree order (-1)).rmvPageOrder buddy
      let combinedIdx := findCombinedIndex pageIdx order
      mergeLoop c n z (page + combinedIdx - pageIdx) combinedIdx (order + 1)
    else (z, page, order)

/-- `__free_one_page` -/
def freeOnePage (page order : Nat) (migratetype : MigrateType) : Zone :=
  let pageIdx := page % 2 ^ c.maxOrder
  let (z, page, order) := mergeLoop c (c.maxOrder - 1 - order) z page pageIdx order
  ((z.setPageOrder page order).listAdd page order migratetype).addNrFree order 1

/-! ## Allocation -/

/-- `expand`, from order `low + n` down to `low`. -/
def expand (page low : Nat) (migratetype : MigrateType) : Nat → Zone → Zone
  | 0, z => z
  | n + 1, z =>
    let high := low + n
    let size := 2 ^ high
    expand page low migratetype n
      (((z.listAdd (page + size) high migratetype).addNrFree high 1).setPageOrder (page + size)
        high)

/-- The loop of `__rmqueue_smallest`; the first argument is how many orders there are to look at. -/
def smallestLoop (z : Zone) (order : Nat) (migratetype : MigrateType) :
    Nat → Nat → Option (Nat × Zone)
  | 0, _ => none
  | n + 1, currentOrder =>
    match z.freeList currentOrder migratetype with
    | [] => smallestLoop z order migratetype n (currentOrder + 1)
    | page :: _ =>
      let z := ((z.listDel page).rmvPageOrder page).addNrFree currentOrder (-1)
      some (page, expand page order migratetype (currentOrder - order) z)

/-- `__rmqueue_smallest` -/
def rmqueueSmallest (migratetype : MigrateType) : Option (Nat × Zone) :=
  z.smallestLoop order migratetype (c.maxOrder - order) order

/-- `move_freepages`, from `page` to `endPage`. -/
def moveFreepages (endPage : Nat) (migratetype : MigrateType) :
    (fuel : Nat) → Zone → (page : Nat) → Zone
  | 0, z, _ => z
  | fuel + 1, z, page =>
    if page ≤ endPage then
      if !z.pageBuddy page then moveFreepages endPage migratetype fuel z (page + 1)
      else
        let order := z.pageOrder page
        moveFreepages endPage migratetype fuel ((z.listDel page).listAdd page order migratetype)
          (page + 2 ^ order)
    else z

/-- `move_freepages_block` -/
def moveFreepagesBlock (page : Nat) (migratetype : MigrateType) : Zone :=
  let startPfn := page - page % 2 ^ c.pageblockOrder
  let endPfn := startPfn + 2 ^ c.pageblockOrder - 1
  let startPage := if startPfn < c.zoneStartPfn then page else startPfn
  if c.zoneStartPfn + c.spannedPages ≤ endPfn then z
  else moveFreepages endPfn migratetype (endPfn + 1 - startPage) z startPage

/-- The body of the loops of `__rmqueue_fallback`, once a list is found. -/
def steal (currentOrder page : Nat) (startMigratetype migratetype : MigrateType) : Zone :=
  let z := z.addNrFree currentOrder (-1)
  let (z, migratetype) :=
    if c.pageblockOrder / 2 ≤ currentOrder ∨ startMigratetype = .reclaimable ∨
        c.pageGroupByMobilityDisabled then
      (moveFreepagesBlock c z page startMigratetype, startMigratetype)
    else (z, migratetype)
  let z := (z.listDel page).rmvPageOrder page
  expand page order migratetype (currentOrder - order) z

/-- The inner loop of `__rmqueue_fallback`. -/
def fallbackTypes (c : Config) (z : Zone) (order currentOrder : Nat)
    (startMigratetype : MigrateType) : List MigrateType → Option (Nat × Zone)
  | [] => none
  | migratetype :: types =>
    if migratetype = .reserve then fallbackTypes c z order currentOrder startMigratetype types
    else
      match z.freeList currentOrder migratetype with
      | [] => fallbackTypes c z order currentOrder startMigratetype types
      | page :: _ => some (page, steal c z order currentOrder page startMigratetype migratetype)

/-- The outer loop of `__rmqueue_fallback`, from order `order + n - 1` down to `order`. -/
def fallbackLoop (c : Config) (z : Zone) (order : Nat) (startMigratetype : MigrateType) :
    Nat → Option (Nat × Zone)
  | 0 => none
  | n + 1 =>
    (fallbackTypes c z order (order + n) startMigratetype startMigratetype.fallbacks).or
      (fallbackLoop c z order startMigratetype n)

/-- `__rmqueue_fallback` -/
def rmqueueFallback (startMigratetype : MigrateType) : Option (Nat × Zone) :=
  fallbackLoop c z order startMigratetype (c.maxOrder - order)

/-- `__rmqueue` -/
def rmqueue (migratetype : MigrateType) : Option (Nat × Zone) :=
  match rmqueueSmallest c z order migratetype with
  | some r => some r
  | none =>
    if migratetype = .reserve then none
    else
      match rmqueueFallback c z order migratetype with
      | some r => some r
      | none => rmqueueSmallest c z order .reserve

end Zone

end AndroidKernel.PageAlloc
