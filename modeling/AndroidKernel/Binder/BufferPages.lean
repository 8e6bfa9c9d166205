import AndroidKernel.Binder.BufferLayout

/-!
# The pages behind the buffers

`used fin l q` computes whether page `q` of the address space holds a byte of a
header of `l` or of the data of an allocated buffer of `l`. The page array of
an area is right (`PagesOK`) when it agrees with `used` on every page of the
area. Each change of the list comes with one range of pages that is mapped or
freed; the lemmas of the last section say that this range is exactly what the
change adds to, or takes from, the used pages.
-/

namespace AndroidKernel.Binder

open List Bool

/-- The end of the bytes of a buffer that need memory: the header, and the data
up to `e` when the buffer is allocated. -/
def BinderBuffer.usedEnd (x : BinderBuffer) (e : Nat) : Nat :=
  if x.free then x.addr + headerSize else e

/-- Page `q` holds a byte that needs memory. -/
def used (fin : Nat) : List BinderBuffer → Nat → Bool
  | [], _ => false
  | x :: l, q =>
    (decide (x.addr < (q + 1) * 4096) && decide (q * 4096 < x.usedEnd (endOf fin l)))
      || used fin l q

theorem used_append (fin : Nat) (l₁ l₂ : List BinderBuffer) (q : Nat) :
    used fin (l₁ ++ l₂) q = (used (endOf fin l₂) l₁ q || used fin l₂ q) := by
  induction l₁ with
  | nil => simp [used]
  | cons x l₁ ih => simp [used, endOf_append, ih, Bool.or_assoc]

/-- Used pages of a tiling meet the tiled bytes. -/
theorem used_bounds {fin start q : Nat} {l : List BinderBuffer} (h : Layout fin start l)
    (hu : used fin l q = true) : start < (q + 1) * 4096 ∧ q * 4096 < fin := by
  induction l generalizing start with
  | nil => simp [used] at hu
  | cons x l ih =>
    obtain ⟨h1, h2, h3⟩ := h
    have hle := h3.le
    simp only [used, or_eq_true, and_eq_true, decide_eq_true_eq] at hu
    rcases hu with ⟨hu1, hu2⟩ | hu
    · rw [BinderBuffer.usedEnd] at hu2
      split at hu2 <;> omega
    · have := ih h3 hu
      omega

/-- The page of the first header of a tiling is used. -/
theorem used_head {fin start q : Nat} {l : List BinderBuffer} (h : Layout fin start l)
    (hlt : start < fin) (hq : q = start / 4096) : used fin l q = true := by
  cases l with
  | nil => exact absurd h hlt.ne
  | cons x l =>
    obtain ⟨h1, h2, h3⟩ := h
    simp only [used, or_eq_true, and_eq_true, decide_eq_true_eq]
    left
    refine ⟨by omega, ?_⟩
    rw [BinderBuffer.usedEnd]
    simp only [headerSize] at h2 ⊢
    split <;> omega

/-! ## The two loops of `binder_update_page_range` -/

/-- `pages'` is `pages` with `b` at the `n` pages from `i` on. -/
def Ranged (b : Bool) (i n : Nat) (pages pages' : List Bool) : Prop :=
  ∀ j, pages'[j]? = if i ≤ j ∧ j < i + n then some b else pages[j]?

theorem freePages_spec {i n : Nat} (pages : List Bool)
    (h : ∀ j, i ≤ j → j < i + n → pages[j]? = some true) :
    ∃ pages', freePages i n pages = .ok pages' ∧ Ranged false i n pages pages' := by
  induction n generalizing pages with
  | zero => exact ⟨pages, rfl, fun j => (if_neg (by omega)).symm⟩
  | succ n ih =>
    have hlast := h (i + n) (by omega) (by omega)
    obtain ⟨hlt, -⟩ := List.getElem?_eq_some_iff.mp hlast
    obtain ⟨pages', h1, h2⟩ := ih (pages.set (i + n) false) (by
      intro j hj1 hj2
      rw [getElem?_set_ne (by omega)]
      exact h j hj1 (by omega))
    refine ⟨pages', by simp [freePages, hlast, h1], fun j => ?_⟩
    rw [h2 j, getElem?_set]
    split_ifs <;> first | rfl | omega

/-- Freeing the pages that have been mapped restores the array. -/
theorem freePages_undo {i m : Nat} {pages orig : List Bool} (h : Ranged true i m orig pages)
    (horig : ∀ j, i ≤ j → j < i + m → orig[j]? = some false) : freePages i m pages = .ok orig := by
  obtain ⟨pages', h1, h2⟩ := freePages_spec pages fun j hj1 hj2 =>
    (h j).trans (if_pos ⟨hj1, hj2⟩)
  rw [h1]
  refine congrArg Except.ok (ext_getElem? fun j => ?_)
  rw [h2 j, h j]
  split
  next hin =>
    exact (horig j hin.1 hin.2).symm
  · rfl

/-- The mapping loop maps its whole range if every page can be mapped, and leaves every page
as it was otherwise. -/
theorem mapPages_spec (env : PageEnv) {i n : Nat} (done : Nat) (pages orig : List Bool)
    (hdone : Ranged true i done orig pages)
    (horig : ∀ j, i ≤ j → j < i + done + n → orig[j]? = some false) :
    ∃ pages' r, mapPages env i done n pages = .ok (pages', r) ∧
      (r = true ↔ ∀ j, i + done ≤ j → j < i + done + n → env.page j = .mapped) ∧
      if r then Ranged true i (done + n) orig pages' else pages' = orig := by
  induction n generalizing done pages with
  | zero => exact ⟨pages, true, rfl, iff_of_true rfl fun j _ _ => by omega, hdone⟩
  | succ n ih =>
    have hcur : pages[i + done]? = some false := by
      rw [hdone, if_neg (by omega)]
      exact horig _ (by omega) (by omega)
    obtain ⟨hlt, -⟩ := List.getElem?_eq_some_iff.mp hcur
    have hset : Ranged true i (done + 1) orig (pages.set (i + done) true) := by
      intro j
      rw [getElem?_set, hdone]
      split_ifs <;> first | rfl | omega
    have hfails (r : Bool) (hr : r = false) (hpage : env.page (i + done) ≠ .mapped) :
        r = true ↔ ∀ j, i + done ≤ j → j < i + done + (n + 1) → env.page j = .mapped :=
      iff_of_false (by simp [hr]) fun hall => hpage (hall _ (by omega) (by omega))
    rw [mapPages, hcur]
    cases henv : env.page (i + done) with
    | mapped =>
      obtain ⟨pages', r, h1, h2, h3⟩ := ih (done + 1) _ hset fun j hj1 hj2 =>
        horig j hj1 (by omega)
      refine ⟨pages', r, h1, h2.trans ⟨fun hall j hj1 hj2 => ?_, fun hall j hj1 hj2 => ?_⟩, ?_⟩
      · by_cases hj : j = i + done
        · rw [hj, henv]
        · exact hall j (by omega) (by omega)
      · exact hall j (by omega) (by omega)
      · rwa [add_assoc, add_comm 1] at h3
    | allocPageFailed =>
      rw [freePages_undo hdone fun j hj1 hj2 => horig j hj1 (by omega)]
      exact ⟨orig, false, rfl, hfails _ rfl (by simp [henv]), rfl⟩
    | mapKernelFailed | insertPageFailed =>
      rw [freePages_undo hset fun j hj1 hj2 => horig j hj1 (by omega)]
      exact ⟨orig, false, rfl, hfails _ rfl (by simp [henv]), rfl⟩

/-! ## Right page arrays -/

/-- The page array of an area agrees with the list `l`. -/
structure PagesOK (a : BufferArea) (l : List BinderBuffer) : Prop where
  length : a.pages.length = a.bufferSize / 4096
  page : ∀ i, i < a.pages.length → a.pages[i]? = some (used a.fin l (a.buffer / 4096 + i))

/-- The area is made of whole pages. -/
structure PageAligned (a : BufferArea) : Prop where
  base : a.buffer % 4096 = 0
  size : a.bufferSize % 4096 = 0

/-- The pages from `start` up to `stop` are used by `l'` and not by `l`, which use the same
pages besides. -/
def Gains (fin : Nat) (l l' : List BinderBuffer) (start stop : Nat) : Prop :=
  ∀ q, (start / 4096 ≤ q ∧ q < stop / 4096 → ¬used fin l q = true) ∧
    (used fin l' q = true ↔ used fin l q = true ∨ start / 4096 ≤ q ∧ q < stop / 4096)

/-- A range of whole pages of an area. -/
structure PageRange (a : BufferArea) (start stop : Nat) : Prop where
  start_mod : start % 4096 = 0
  stop_mod : stop % 4096 = 0
  base_le : a.buffer ≤ start
  le_fin : stop ≤ a.fin

/-- `binder_update_page_range` can map the range: there is nothing to map, or the task has its
`mm` and every page is there. -/
def BufferArea.CanMap (a : BufferArea) (env : PageEnv) (start stop : Nat) (vma : Bool) : Prop :=
  stop ≤ start ∨ (vma || (env.mm && a.vma)) = true ∧ ∀ j, a.pageIndex start ≤ j →
    j < a.pageIndex start + (stop - start + 4095) / 4096 → env.page j = .mapped

section Ranges

variable {a : BufferArea} {l l' : List BinderBuffer} {start stop : Nat}

theorem PageAligned.fin_mod (h : PageAligned a) : a.fin % 4096 = 0 := by
  have hbase := h.base
  have hsize := h.size
  unfold BufferArea.fin
  omega

theorem pagesOK_iff : PagesOK a l ↔ ∀ i, a.pages[i]? =
    if i < a.bufferSize / 4096 then some (used a.fin l (a.buffer / 4096 + i)) else none := by
  constructor
  · intro h i
    rw [← h.length]
    split
    next hi =>
      exact h.page i hi
    · exact getElem?_eq_none (by omega)
  · intro h
    have hlen : a.pages.length = a.bufferSize / 4096 := by
      refine Nat.le_antisymm (getElem?_eq_none_iff.mp ((h _).trans (if_neg (by omega)))) ?_
      by_contra hlt
      have hnone := h a.pages.length
      rw [getElem?_eq_none le_rfl, if_pos (by omega)] at hnone
      cases hnone
    exact ⟨hlen, fun i hi => (h i).trans (if_pos (by omega))⟩

variable (ha : PageAligned a) (hr : PageRange a start stop)

include ha hr

/-- The indices of a range are those of its pages. -/
theorem PageRange.index (j : Nat) :
    (a.pageIndex start ≤ j ∧ j < a.pageIndex start + (stop - start + 4095) / 4096) ↔
      start / 4096 ≤ a.buffer / 4096 + j ∧ a.buffer / 4096 + j < stop / 4096 := by
  obtain ⟨hstart, hstop, hlo, -⟩ := hr
  have hbase := ha.base
  unfold BufferArea.pageIndex
  omega

/-- The page of an index of a range. -/
theorem PagesOK.page_of_range (hp : PagesOK a l) {j : Nat} (hj1 : a.pageIndex start ≤ j)
    (hj2 : j < a.pageIndex start + (stop - start + 4095) / 4096) :
    (start / 4096 ≤ a.buffer / 4096 + j ∧ a.buffer / 4096 + j < stop / 4096) ∧
      a.pages[j]? = some (used a.fin l (a.buffer / 4096 + j)) := by
  have hin := (hr.index ha j).mp ⟨hj1, hj2⟩
  have hfin := hr.le_fin
  have hbase := ha.base
  unfold BufferArea.fin at hfin
  exact ⟨hin, hp.page j (by rw [hp.length]; omega)⟩

/-- When the range is set, the array is right for the list that differs in the range. -/
theorem PagesOK.ranged {b : Bool} {pages : List Bool} (hp : PagesOK a l)
    (hset : Ranged b (a.pageIndex start) ((stop - start + 4095) / 4096) a.pages pages)
    (hused : ∀ q, used a.fin l' q =
      if start / 4096 ≤ q ∧ q < stop / 4096 then b else used a.fin l q) :
    PagesOK { a with pages := pages } l' := by
  refine pagesOK_iff.mpr fun i => ?_
  show pages[i]? = if i < a.bufferSize / 4096 then some (used a.fin l' _) else none
  rw [hset i, hused]
  by_cases hin : a.pageIndex start ≤ i ∧ i < a.pageIndex start + (stop - start + 4095) / 4096
  · obtain ⟨hpage, hsome⟩ := hp.page_of_range ha hr hin.1 hin.2
    obtain ⟨hlt, -⟩ := List.getElem?_eq_some_iff.mp hsome
    rw [if_pos hin, if_pos (hp.length ▸ hlt), if_pos hpage]
  · rw [if_neg hin, if_neg (mt (hr.index ha i).mpr hin)]
    exact pagesOK_iff.mp hp i

theorem updatePageRange_alloc (env : PageEnv) (vma : Bool) (hp : PagesOK a l)
    (hg : Gains a.fin l l' start stop) :
    ∃ pages r, a.binderUpdatePageRange env true start stop vma =
        .ok ({ a with pages := pages }, r) ∧ (r = true ↔ a.CanMap env start stop vma) ∧
      if r then PagesOK { a with pages := pages } l' else pages = a.pages := by
  have hused (q : Nat) : used a.fin l' q =
      if start / 4096 ≤ q ∧ q < stop / 4096 then true else used a.fin l q := by
    rw [Bool.eq_iff_iff, (hg q).2]
    split <;> simp [*]
  rw [BufferArea.binderUpdatePageRange]
  split
  next hle =>
    refine ⟨a.pages, true, rfl, iff_of_true rfl (.inl hle), hp.ranged ha hr ?_ hused⟩
    exact fun j => (if_neg (by omega)).symm
  next hlt =>
    simp only [if_true]
    split
    next hvma =>
      have hfresh (j : Nat) (hj1 : a.pageIndex start ≤ j)
          (hj2 : j < a.pageIndex start + 0 + (stop - start + 4095) / 4096) :
          a.pages[j]? = some false := by
        obtain ⟨hin, hpage⟩ := hp.page_of_range ha hr hj1 hj2
        rw [hpage, Bool.eq_false_of_not_eq_true ((hg _).1 hin)]
      obtain ⟨pages, r, h1, h2, h3⟩ := mapPages_spec env 0 a.pages a.pages
        (fun j => (if_neg (by omega)).symm) hfresh
      refine ⟨pages, r, by rw [h1]; rfl, h2.trans ?_, ?_⟩
      · exact ⟨fun hall => .inr ⟨hvma, hall⟩, fun hcan => (hcan.resolve_left hlt).2⟩
      · rw [zero_add] at h3
        split
        next hr' =>
          rw [if_pos hr'] at h3
          exact hp.ranged ha hr h3 hused
        next hr' =>
          rwa [if_neg hr'] at h3
    next hvma =>
      exact ⟨a.pages, false, rfl,
        iff_of_false nofun fun hcan => hvma (hcan.resolve_left hlt).1, rfl⟩

theorem updatePageRange_free (env : PageEnv) (hp : PagesOK a l) (hg : Gains a.fin l' l start stop) :
    ∃ pages r, a.binderUpdatePageRange env false start stop
        = .ok ({ a with pages := pages }, r) ∧ PagesOK { a with pages := pages } l' := by
  have hused (q : Nat) : used a.fin l' q =
      if start / 4096 ≤ q ∧ q < stop / 4096 then false else used a.fin l q := by
    obtain ⟨hfresh, hiff⟩ := hg q
    split
    next hin =>
      exact Bool.eq_false_of_not_eq_true (hfresh hin)
    next hout =>
      rw [Bool.eq_iff_iff, hiff, or_iff_left hout]
  rw [BufferArea.binderUpdatePageRange]
  split
  · exact ⟨a.pages, true, rfl, hp.ranged ha hr (fun j => (if_neg (by omega)).symm) hused⟩
  · obtain ⟨pages, h1, h2⟩ := freePages_spec
      a.pages (by
        intro j hj1 hj2
        obtain ⟨hin, hpage⟩ := hp.page_of_range ha hr hj1 hj2
        rw [hpage, ((hg _).2).mpr (.inr hin)])
    exact ⟨pages, false, by simp [h1, Except.map], hp.ranged ha hr h2 hused⟩

end Ranges

end AndroidKernel.Binder
