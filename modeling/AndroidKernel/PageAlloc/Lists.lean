import AndroidKernel.Lib.Blocks
import AndroidKernel.PageAlloc.Zone

/-!
# The free lists

The lists, the counters and the flags in the pages say the same (`Listed`): the blocks on the lists
of an order are those that the flags show, each on one list and once, and `nr_free` is their number.
The functions of the allocator change them by three moves, which keep this: a block is taken out
(`Listed.takeOut`), put in (`Listed.putIn`), or put on the list of another type (`Listed.move`).
-/

namespace AndroidKernel.PageAlloc

open Function List

namespace Zone

open Blocks

variable {z : Zone} {p q o n endPage fuel page : Nat} {t : MigrateType} {l : List Nat} {c : Config}
  {d : Int}

/-- The blocks of one order, on the lists of all types. -/
def blocks (z : Zone) (o : Nat) : List Nat := MigrateType.all.flatMap (z.freeList o)

/-- The free blocks, by the flags. -/
def Free (z : Zone) : Family := fun p o => z.pageBuddy p = true ∧ z.pageOrder p = o

structure Listed (z : Zone) : Prop where
  nodup : ∀ o, (z.blocks o).Nodup
  mem : ∀ o p, p ∈ z.blocks o ↔ z.Free p o
  count : ∀ o, z.nrFree o = (z.blocks o).length

theorem mem_all : t ∈ MigrateType.all := by
  cases t <;> decide

theorem mem_blocks : p ∈ z.blocks o ↔ ∃ t, p ∈ z.freeList o t := by
  simp only [blocks, mem_flatMap, mem_all, true_and]

theorem blocks_listDel : (z.listDel p).blocks o = (z.blocks o).filter (· ≠ p) := by
  unfold blocks
  rw [filter_flatMap]
  rfl

theorem blocks_listAdd : ((z.listAdd p o t).blocks o).Perm (p :: z.blocks o) := by
  have hlist : (z.listAdd p o t).freeList o =
      update (z.freeList o) t (p :: z.freeList o t) := update_self ..
  unfold blocks
  rw [hlist]
  refine perm_iff_count.mpr fun a => ?_
  cases t <;> simp [MigrateType.all, count_cons] <;> omega

theorem blocks_listAdd_of_ne (hn : n ≠ o) : (z.listAdd p o t).blocks n = z.blocks n := by
  have hlist : (z.listAdd p o t).freeList n = z.freeList n := update_of_ne hn ..
  unfold blocks
  rw [hlist]

theorem perm_filter_ne (hnd : l.Nodup) (hp : p ∈ l) : (p :: l.filter (· ≠ p)).Perm l := by
  have herase : l.erase p = l.filter (· ≠ p) := by
    rw [hnd.erase_eq_filter]
    exact filter_congr fun x _ => by rw [Bool.eq_iff_iff, bne_iff_ne, decide_eq_true_iff]
  rw [← herase]
  exact (perm_cons_erase hp).symm

theorem filter_ne_of_notMem (hp : p ∉ l) : l.filter (· ≠ p) = l := by
  refine filter_eq_self.mpr fun x hx => ?_
  rw [decide_eq_true_iff]
  rintro rfl
  exact hp hx

/-- A block is on the lists of one order only. -/
theorem Listed.notMem (h : Listed z) (hp : z.Free p o) (hn : n ≠ o) : p ∉ z.blocks n := by
  intro hmem
  exact hn (((h.mem n p).mp hmem).2.symm.trans hp.2)

/-! ## Taking out -/

def takeOut (z : Zone) (p o : Nat) : Zone := ((z.listDel p).addNrFree o (-1)).rmvPageOrder p

/-- Of the flags only those of the block change. -/
theorem free_takeOut : (z.takeOut p o).Free = erase z.Free p := by
  funext q n
  refine propext ?_
  show update z.pageBuddy p false q = true ∧ update z.pageOrder p 0 q = n ↔ _
  by_cases hq : q = p
  · subst hq
    rw [update_self]
    exact iff_of_false (fun h => Bool.false_ne_true h.1) fun h => h.2 rfl
  · rw [update_of_ne hq, update_of_ne hq]
    exact (and_iff_left hq).symm

theorem Listed.takeOut (h : Listed z) (hp : z.Free p o) : Listed (z.takeOut p o) := by
  have hblocks : ∀ n, (z.takeOut p o).blocks n = (z.blocks n).filter (· ≠ p) :=
    fun n => blocks_listDel
  refine ⟨fun n => ?_, fun n q => ?_, fun n => ?_⟩
  · rw [hblocks]
    exact (h.nodup n).filter _
  · rw [hblocks, free_takeOut, mem_filter, h.mem, decide_eq_true_iff]
    rfl
  rw [hblocks]
  show update z.nrFree o (z.nrFree o + -1) n = _
  by_cases hn : n = o
  · subst hn
    rw [update_self, h.count, ← (perm_filter_ne (h.nodup n) ((h.mem n p).mpr hp)).length_eq,
      length_cons]
    omega
  · rw [update_of_ne hn, h.count, filter_ne_of_notMem (h.notMem hp hn)]

/-! ## Putting in -/

def putIn (z : Zone) (p o : Nat) (t : MigrateType) : Zone :=
  ((z.listAdd p o t).addNrFree o 1).setPageOrder p o

theorem free_putIn (hp : z.pageBuddy p = false) : (z.putIn p o t).Free = insert z.Free p o := by
  funext q n
  refine propext ?_
  show update z.pageBuddy p true q = true ∧ update z.pageOrder p o q = n ↔
    q = p ∧ n = o ∨ z.Free q n
  by_cases hq : q = p
  · subst hq
    have hfree : ¬z.Free q n := fun h => Bool.false_ne_true (hp.symm.trans h.1)
    rw [update_self, update_self, or_iff_left hfree]
    exact ⟨fun h => ⟨rfl, h.2.symm⟩, fun h => ⟨rfl, h.2.symm⟩⟩
  · rw [update_of_ne hq, update_of_ne hq]
    exact (or_iff_right fun h => hq h.1).symm

theorem Listed.putIn (h : Listed z) (hp : z.pageBuddy p = false) : Listed (z.putIn p o t) := by
  have hblocks : ((z.putIn p o t).blocks o).Perm (p :: z.blocks o) := blocks_listAdd
  have hother : ∀ n, n ≠ o → (z.putIn p o t).blocks n = z.blocks n :=
    fun n hn => blocks_listAdd_of_ne hn
  have hnot : ∀ n, p ∉ z.blocks n := fun n hmem =>
    Bool.false_ne_true (hp.symm.trans ((h.mem n p).mp hmem).1)
  refine ⟨fun n => ?_, fun n q => ?_, fun n => ?_⟩
  · by_cases hn : n = o
    · subst hn
      exact hblocks.nodup_iff.mpr (nodup_cons.mpr ⟨hnot n, h.nodup n⟩)
    · rw [hother n hn]
      exact h.nodup n
  · rw [free_putIn hp]
    by_cases hn : n = o
    · subst hn
      rw [hblocks.mem_iff, mem_cons, h.mem]
      exact or_congr_left (and_iff_left rfl).symm
    · rw [hother n hn, h.mem]
      exact (or_iff_right fun hq => hn hq.2).symm
  · show update z.nrFree o (z.nrFree o + 1) n = _
    by_cases hn : n = o
    · subst hn
      rw [update_self, h.count, hblocks.length_eq, length_cons]
      omega
    · rw [update_of_ne hn, h.count, hother n hn]

/-! ## Moving -/

theorem Listed.move (h : Listed z) (hp : z.Free p o) : Listed ((z.listDel p).listAdd p o t) := by
  have hperm : ∀ n, (((z.listDel p).listAdd p o t).blocks n).Perm (z.blocks n) := fun n => by
    by_cases hn : n = o
    · subst hn
      refine blocks_listAdd.trans ?_
      rw [blocks_listDel]
      exact perm_filter_ne (h.nodup n) ((h.mem n p).mpr hp)
    · rw [blocks_listAdd_of_ne hn, blocks_listDel, filter_ne_of_notMem (h.notMem hp hn)]
  refine ⟨fun n => (hperm n).nodup_iff.mpr (h.nodup n),
    fun n q => (hperm n).mem_iff.trans (h.mem n q), fun n => ?_⟩
  rw [(hperm n).length_eq]
  exact h.count n

/-- What `move_freepages` leaves of the lists. -/
structure Moved (z z' : Zone) : Prop where
  listed : Listed z'
  buddy : z'.pageBuddy = z.pageBuddy
  order : z'.pageOrder = z.pageOrder

theorem Moved.free {z' : Zone} (h : Moved z z') : z'.Free = z.Free := by
  unfold Free
  rw [h.buddy, h.order]

theorem Listed.moveFreepages (h : Listed z) : Moved z (moveFreepages endPage t fuel z page) := by
  induction fuel generalizing z page with
  | zero => exact ⟨h, rfl, rfl⟩
  | succ fuel ih =>
    unfold Zone.moveFreepages
    by_cases hend : page ≤ endPage
    swap
    · rw [if_neg hend]
      exact ⟨h, rfl, rfl⟩
    rw [if_pos hend]
    by_cases hbuddy : z.pageBuddy page = true
    · rw [if_neg (by rw [hbuddy]; decide)]
      obtain ⟨hlisted, hflags, horders⟩ :=
        @ih _ (page + 2 ^ z.pageOrder page) (h.move ⟨hbuddy, rfl⟩)
      exact ⟨hlisted, hflags, horders⟩
    · rw [if_pos (by rw [Bool.not_eq_true] at hbuddy; rw [hbuddy]; decide)]
      exact ih h

theorem Listed.moveFreepagesBlock (h : Listed z) : Moved z (moveFreepagesBlock c z p t) := by
  unfold Zone.moveFreepagesBlock
  by_cases hend : c.zoneStartPfn + c.spannedPages ≤ p - p % 2 ^ c.pageblockOrder +
    2 ^ c.pageblockOrder - 1
  · simp only [if_pos hend]
    exact ⟨h, rfl, rfl⟩
  · simp only [if_neg hend]
    exact h.moveFreepages

/-- The counters do not matter to `move_freepages`. -/
theorem moveFreepages_addNrFree : moveFreepages endPage t fuel (z.addNrFree o d) page =
      (moveFreepages endPage t fuel z page).addNrFree o d := by
  induction fuel generalizing z page with
  | zero => rfl
  | succ fuel ih =>
    unfold moveFreepages
    by_cases hend : page ≤ endPage
    swap
    · rw [if_neg hend, if_neg hend]
    rw [if_pos hend, if_pos hend]
    by_cases hbuddy : (!z.pageBuddy page) = true
    · rw [if_pos hbuddy, if_pos (show (!(z.addNrFree o d).pageBuddy page) = true from hbuddy)]
      exact ih
    · rw [if_neg hbuddy, if_neg (show ¬(!(z.addNrFree o d).pageBuddy page) = true from hbuddy)]
      exact @ih ((z.listDel page).listAdd page (z.pageOrder page) t) (page + 2 ^ z.pageOrder page)

theorem moveFreepagesBlock_addNrFree :
    moveFreepagesBlock c (z.addNrFree o d) p t = (moveFreepagesBlock c z p t).addNrFree o d := by
  unfold moveFreepagesBlock
  simp only [moveFreepages_addNrFree]
  split <;> rfl

end Zone

end AndroidKernel.PageAlloc
