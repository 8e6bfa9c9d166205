import AndroidKernel.Ashmem.Basic
import AndroidKernel.Lib.Spans
import Mathlib.Data.Set.Lattice
import Mathlib.Order.CompletePartialOrder

/-!
# The ranges of one area

What `ashmem_pin`, `ashmem_unpin` and `ashmem_get_pin_status` do to the list of an
area and to the pages that it covers. A request for the pages from `lo` to `hi` may
be empty, with `lo` one past `hi`: this is what a length of 0 means at the end of
the area. The lemmas here allow for such requests and for the empty ranges that
they leave on the list.
-/

namespace AndroidKernel.Ashmem

open List Set

variable {a : AreaId} {alloc purged ret : Bool} {lo hi n p : Nat} {r r' : AshmemRange}
  {ranges ranges' : List AshmemRange} {lru : Lru} {f : Bool → Bool}

/-! ## Machine arithmetic -/

theorem ulong_succ (h : n + 1 < 2 ^ 32) : ulong ((n : Int) + 1) = n + 1 := by
  unfold ulong
  omega

theorem ulong_pred (h : n < 2 ^ 32) (hpos : 0 < n) : ulong ((n : Int) - 1) = n - 1 := by
  unfold ulong
  omega

/-! ## Requests -/

variable (pin : AshmemPin) (size : Nat)

/-- How many pages an area of `size` bytes has. -/
def pageCount : Nat := pageAlign size / pageSize

/-- The pages from `lo` to `hi` of an area with `n` pages. Where the size of an
area wraps to 0, the one request that passes the checks is for all page numbers. -/
def Fits (n lo hi : Nat) : Prop := lo ≤ hi + 1 ∧ (n = 0 ∧ lo = 0 ∧ hi = 2 ^ 32 - 1 ∨ hi < n)

/-- There is at least one page, and all are in the area. -/
def Proper (n lo hi : Nat) : Prop := lo ≤ hi ∧ hi < n

/-- A length of 0 that stands for no page: nothing is left of the area from
`offset` onward. -/
def AshmemPin.NothingOnward : Prop :=
  pin.len = 0 ∧ pin.offset.toNat = pageAlign size
  deriving Decidable

theorem pageAlign_lt : pageAlign size < 2 ^ 32 := by
  have := ulong_lt (size + 4095)
  simp only [pageAlign] at *
  omega

theorem pageAlign_eq : pageAlign size = pageCount size * pageSize := by
  simp only [pageCount, pageAlign, pageSize]
  omega

theorem pageCount_lt : pageCount size < 2 ^ 20 := by
  have := pageAlign_lt size
  simp only [pageCount, pageSize] at *
  omega

theorem Fits.lt (h : Fits n lo hi) (hn : n < 2 ^ 20) : lo < 2 ^ 32 ∧ hi < 2 ^ 32 := by
  unfold Fits at h
  omega

theorem Proper.fits (h : Proper n lo hi) : Fits n lo hi := ⟨by have := h.1; omega, Or.inr h.2⟩

/-- A bitwise or is aligned when both sides are. -/
theorem or_mod_pageSize {x y : Nat} (h : (x ||| y) % pageSize = 0) :
    x % pageSize = 0 ∧ y % pageSize = 0 := by
  have hor : (x % 2 ^ 12) ||| (y % 2 ^ 12) = 0 := by
    rw [← Nat.or_mod_two_pow]
    exact h
  exact Nat.or_eq_zero_iff.mp hor

section

variable {pin : AshmemPin} {size : Nat}

/-- What is left of a request without a page. -/
theorem AshmemPin.length_eq_zero (h : pin.length size = 0) : pin.NothingOnward size := by
  unfold AshmemPin.length at h
  split at h
  next hlen =>
    refine ⟨hlen, ?_⟩
    have hoff := pin.offset.toNat_lt
    have hsize := pageAlign_lt size
    unfold ulong at h
    omega
  next hlen =>
    exact absurd (UInt32.toNat_inj.mp h) hlen

variable (h : pin.pages size = some (lo, hi))

include h

/-- The checks let through what lies in the area, ... -/
theorem AshmemPin.pages_spec : ∃ k, pin.length size = k * pageSize ∧ lo + k ≤ pageCount size ∧
      (k = 0 → lo = pageCount size) ∧ hi = ulong (((lo + k : Nat) : Int) - 1) := by
  simp only [AshmemPin.pages] at h
  split at h
  · cases h
  rename_i halign
  split at h
  · cases h
  rename_i hwrap
  split at h
  · cases h
  rename_i hend
  cases h
  obtain ⟨hoff, hlen⟩ := or_mod_pageSize (not_not.mp halign)
  have hlt := pin.offset.toNat_lt
  -- the sum does not wrap, so that the last check is about the numbers themselves
  have hsum : pin.offset.toNat + pin.length size < 2 ^ 32 := by
    unfold ulong at hwrap
    omega
  have hend' : pin.offset.toNat + pin.length size ≤ pageCount size * pageSize := by
    rw [← pageAlign_eq]
    unfold ulong at hend
    omega
  refine ⟨pin.length size / pageSize, ?_, ?_, fun hzero => ?_, by push_cast; rfl⟩
  · simp only [pageSize] at *
    omega
  · simp only [pageSize] at *
    omega
  · have hzero : pin.length size = 0 := by
      simp only [pageSize] at *
      omega
    rw [(AshmemPin.length_eq_zero hzero).2, pageAlign_eq, Nat.mul_div_cancel _ (by decide)]

/-- ... if only a request for nothing at the end of the area. -/
theorem AshmemPin.fits_of_pages : Fits (pageCount size) lo hi := by
  obtain ⟨k, -, hend, hzero, rfl⟩ := AshmemPin.pages_spec h
  have := pageCount_lt size
  unfold Fits ulong
  omega

/-- A request without a page is at the end of the area. -/
theorem AshmemPin.onward_of_pages : lo ≤ hi ∨ pageCount size ≤ lo := by
  obtain ⟨k, -, hend, hzero, rfl⟩ := AshmemPin.pages_spec h
  have := pageCount_lt size
  unfold ulong
  omega

theorem AshmemPin.proper_of_pages (hpin : ¬ pin.NothingOnward size) :
    Proper (pageCount size) lo hi := by
  obtain ⟨k, hlen, hend, -, rfl⟩ := AshmemPin.pages_spec h
  have hpos : k ≠ 0 := by
    rintro rfl
    exact hpin (AshmemPin.length_eq_zero (by simpa using hlen))
  have := pageCount_lt size
  unfold Proper ulong
  omega

end

/-! ## How a range lies to a request -/

namespace AshmemRange

theorem before_iff : r.before lo = true ↔ r.pgend < lo := by
  simp [before]

theorem subsumed_iff : r.subsumed lo hi = true ↔ lo ≤ r.pgstart ∧ r.pgend ≤ hi := by
  simp [subsumed]

theorem subsumes_iff : r.subsumes lo hi = true ↔ r.pgstart ≤ lo ∧ hi ≤ r.pgend := by
  simp [subsumes]

theorem meets_iff : r.meets lo hi = true ↔
    (r.pgstart ≤ lo ∧ lo ≤ r.pgend) ∨ (r.pgstart ≤ hi ∧ hi ≤ r.pgend) ∨
      (lo ≤ r.pgstart ∧ r.pgend ≤ hi) := by
  simp [meets, contains, subsumed, or_assoc]

/-- The test of the three cases misses no range that shares a page. -/
theorem above_of_not_meets (hb : ¬ r.before lo = true) (hm : ¬ r.meets lo hi = true) :
    hi < r.pgstart := by
  rw [before_iff] at hb
  rw [meets_iff] at hm
  omega

/-- What the test lets through lies at most one page apart from the request. -/
theorem near_of_meets (hm : r.meets lo hi = true) (hlo : lo ≤ hi + 1)
    (hr : r.pgstart ≤ r.pgend + 1) : r.pgstart ≤ hi + 1 ∧ lo ≤ r.pgend + 1 := by
  rw [meets_iff] at hm
  omega

end AshmemRange

/-! ## The pages of a list -/

/-- The pages of the ranges whose flag meets `f`. -/
def pagesOf (f : Bool → Bool) (ranges : List AshmemRange) : Set Nat :=
  covered AshmemRange.pgstart AshmemRange.pgend (ranges.filter fun range => f range.purged)

/-- The unpinned pages of a list. -/
def unpinnedPages (ranges : List AshmemRange) : Set Nat :=
  covered AshmemRange.pgstart AshmemRange.pgend ranges

theorem mem_pagesOf : p ∈ pagesOf f ranges ↔
    ∃ r ∈ ranges, f r.purged = true ∧ r.pgstart ≤ p ∧ p ≤ r.pgend := by
  simp [pagesOf, covered, and_assoc]

@[simp] theorem not_mem_pagesOf_nil : p ∉ pagesOf f [] := by
  simp [mem_pagesOf]

@[simp] theorem mem_pagesOf_cons : p ∈ pagesOf f (r :: ranges) ↔
    (f r.purged = true ∧ r.pgstart ≤ p ∧ p ≤ r.pgend) ∨ p ∈ pagesOf f ranges := by
  simp [mem_pagesOf]

@[simp] theorem mem_pagesOf_append : p ∈ pagesOf f (ranges ++ ranges') ↔
    p ∈ pagesOf f ranges ∨ p ∈ pagesOf f ranges' := by
  simp [pagesOf]

theorem unpinnedPages_eq : unpinnedPages ranges = pagesOf (fun _ => true) ranges := by
  rw [unpinnedPages, pagesOf, filter_eq_self.mpr fun _ _ => rfl]

theorem pagesOf_subset : pagesOf f ranges ⊆ unpinnedPages ranges := by
  intro p hp
  obtain ⟨r, hr, -, hp⟩ := mem_pagesOf.mp hp
  exact ⟨r, hr, hp⟩

/-- The list of an area with `n` pages: the ranges lie in the area, the highest one
first. -/
structure Listed (n : Nat) (ranges : List AshmemRange) : Prop where
  fits : ∀ r ∈ ranges, Fits n r.pgstart r.pgend
  descending : Descending AshmemRange.pgstart AshmemRange.pgend ranges

namespace Listed

section

variable (h : Listed n (r :: ranges))

include h

theorem head : Fits n r.pgstart r.pgend := h.fits r (by simp)

theorem tail : Listed n ranges :=
  ⟨fun x hx => h.fits x (by simp [hx]), (descending_cons.mp h.descending).2⟩

theorem below (hr : r' ∈ ranges) : r'.pgend < r.pgstart :=
  (descending_cons.mp h.descending).1 r' hr

/-- No page from the start of a range on is covered behind it. -/
theorem not_mem_tail (hp : r.pgstart ≤ p) : p ∉ pagesOf f ranges := by
  intro hmem
  obtain ⟨y, hy, -, hle⟩ := pagesOf_subset hmem
  have := h.below hy
  omega

/-- Where the scan stops, no page of the request is covered any more. -/
theorem not_mem_of_before (hb : r.before lo = true) (hp : lo ≤ p) :
    p ∉ pagesOf f (r :: ranges) := by
  rw [AshmemRange.before_iff] at hb
  rw [mem_pagesOf_cons]
  rintro (⟨-, -, hle⟩ | hmem)
  · omega
  · exact h.not_mem_tail (by have := h.head.1; omega) hmem

end

end Listed

/-! ## Pinning -/

/-- `r'` is what a request for the pages from `lo` to `hi` leaves of `r`, or one of
the two parts that it leaves. -/
structure Piece (lo hi : Nat) (r r' : AshmemRange) : Prop where
  start_le : r.pgstart ≤ r'.pgstart
  end_le : r'.pgend ≤ r.pgend
  purged_eq : r'.purged = r.purged
  /-- A range that is cut keeps a page, and was not within the request. -/
  cut : (r'.pgstart = r.pgstart ∧ r'.pgend = r.pgend) ∨
    (r'.pgstart ≤ r'.pgend ∧ ¬ (lo ≤ r.pgstart ∧ r.pgend ≤ hi))

theorem Piece.refl : Piece lo hi r r := ⟨by rfl, by rfl, rfl, Or.inl ⟨rfl, rfl⟩⟩

theorem Piece.fits (h : Piece lo hi r r') (hreq : Fits n lo hi) (hr : Fits n r.pgstart r.pgend) :
    Fits n r'.pgstart r'.pgend := by
  have hend := h.end_le
  have hcut := h.cut
  unfold Fits at *
  omega

theorem Piece.proper (h : Piece lo hi r r') (hr : Proper n r.pgstart r.pgend) :
    Proper n r'.pgstart r'.pgend := by
  have hend := h.end_le
  have hcut := h.cut
  unfold Proper at *
  omega

/-- The request covers the front of the range. -/
theorem piece_front (hn : n < 2 ^ 20) (hreq : Fits n lo hi) (hr : Fits n r.pgstart r.pgend)
    (hm : r.meets lo hi = true) (hs : ¬ r.subsumed lo hi = true) (hstart : r.pgstart ≥ lo) :
    Piece lo hi r { r with pgstart := ulong ((hi : Int) + 1) } ∧
      ∀ p, ulong ((hi : Int) + 1) ≤ p ∧ p ≤ r.pgend ↔
        (r.pgstart ≤ p ∧ p ≤ r.pgend) ∧ ¬ (lo ≤ p ∧ p ≤ hi) := by
  have hr32 := hr.lt hn
  have hnear := AshmemRange.near_of_meets hm hreq.1 hr.1
  rw [AshmemRange.subsumed_iff] at hs
  rw [ulong_succ (by omega)]
  exact ⟨⟨by dsimp only; omega, by rfl, rfl, .inr ⟨by dsimp only; omega, hs⟩⟩, by omega⟩

/-- The request covers the rear of the range, or the middle. -/
theorem piece_rear (hn : n < 2 ^ 20) (hreq : Fits n lo hi) (hb : ¬ r.before lo = true)
    (hstart : ¬ r.pgstart ≥ lo) :
    Piece lo hi r { r with pgend := ulong ((lo : Int) - 1) } ∧ ulong ((lo : Int) - 1) = lo - 1 := by
  have hlo32 := hreq.lt hn
  rw [AshmemRange.before_iff] at hb
  rw [ulong_pred (by omega) (by omega)]
  exact ⟨⟨by rfl, by dsimp only; omega, rfl, .inr ⟨by dsimp only; omega, by omega⟩⟩, rfl⟩

/-- What a pin request does to the list and what it answers. -/
structure Pinned (alloc : Bool) (lo hi : Nat) (ranges ranges' : List AshmemRange)
    (ret ret' : Bool) : Prop where
  pieces : ∀ r' ∈ ranges', ∃ r ∈ ranges, Piece lo hi r r'
  descending : Descending AshmemRange.pgstart AshmemRange.pgend ranges'
  pages : alloc = true → ∀ f p, p ∈ pagesOf f ranges' ↔ p ∈ pagesOf f ranges ∧ ¬ (lo ≤ p ∧ p ≤ hi)
  kept : ret = true → ret' = true
  reported : ∀ p ∈ pagesOf id ranges, lo ≤ p → p ≤ hi → ret' = true

namespace Pinned

variable {ret' ret'' : Bool}

/-- The loop stops at a range below the request, or at the end of the list. -/
theorem stop (hd : Descending AshmemRange.pgstart AshmemRange.pgend ranges)
    (hp : ∀ f p, lo ≤ p → p ∉ pagesOf f ranges) : Pinned alloc lo hi ranges ranges ret ret where
  pieces r hr := ⟨r, hr, .refl⟩
  descending := hd
  pages _ f p := ⟨fun h => ⟨h, fun hle => hp f p hle.1 h⟩, And.left⟩
  kept := id
  reported p hmem hle _ := absurd hmem (hp id p hle)

/-- The range is deleted. -/
theorem drop (h : Pinned alloc lo hi ranges ranges' ret' ret'') (hret : ret' = (ret || r.purged))
    (hr : lo ≤ r.pgstart ∧ r.pgend ≤ hi) : Pinned alloc lo hi (r :: ranges) ranges' ret ret'' where
  pieces x hx := by
    obtain ⟨y, hy, hxy⟩ := h.pieces x hx
    exact ⟨y, by simp [hy], hxy⟩
  descending := h.descending
  pages halloc f p := by
    rw [h.pages halloc, mem_pagesOf_cons]
    constructor
    · rintro ⟨hmem, hp⟩
      exact ⟨.inr hmem, hp⟩
    · rintro ⟨⟨-, hp⟩ | hmem, hp'⟩
      · omega
      · exact ⟨hmem, hp'⟩
  kept hret' := h.kept (by simp [hret, hret'])
  reported p hp hle hge := by
    rcases mem_pagesOf_cons.mp hp with ⟨hpurged, -⟩ | hmem
    · exact h.kept (by simpa [hret] using .inr hpurged)
    · exact h.reported p hmem hle hge

/-- One piece of the range stays on the list, the loop goes on. -/
theorem keep (h : Pinned alloc lo hi ranges ranges' ret' ret'') (hl : Listed n (r :: ranges))
    (hpiece : Piece lo hi r r') (hp : ∀ p, r'.pgstart ≤ p ∧ p ≤ r'.pgend ↔
      (r.pgstart ≤ p ∧ p ≤ r.pgend) ∧ ¬ (lo ≤ p ∧ p ≤ hi)) (hret : ret = true → ret' = true)
    (hpurged : ∀ p, lo ≤ p → p ≤ hi → r.pgstart ≤ p → p ≤ r.pgend → r.purged = true → ret' = true) :
    Pinned alloc lo hi (r :: ranges) (r' :: ranges') ret ret'' where
  pieces x hx := by
    rcases mem_cons.mp hx with rfl | hx
    · exact ⟨r, by simp, hpiece⟩
    · obtain ⟨y, hy, hxy⟩ := h.pieces x hx
      exact ⟨y, by simp [hy], hxy⟩
  descending := by
    refine descending_cons.mpr ⟨fun x hx => ?_, h.descending⟩
    obtain ⟨y, hy, hxy⟩ := h.pieces x hx
    exact lt_of_le_of_lt hxy.end_le (lt_of_lt_of_le (hl.below hy) hpiece.start_le)
  pages halloc f p := by
    rw [mem_pagesOf_cons, mem_pagesOf_cons, h.pages halloc, hpiece.purged_eq]
    grind
  kept h0 := h.kept (hret h0)
  reported p hmem hle hge := by
    rcases mem_pagesOf_cons.mp hmem with ⟨hflag, hstart, hend⟩ | hmem
    · exact h.kept (hpurged p hle hge hstart hend hflag)
    · exact h.reported p hmem hle hge

/-- The request punches a hole: a new range above it, the old one below. -/
theorem split {new : Option AshmemRange} (hl : Listed n (r :: ranges)) (hlo : lo ≤ hi + 1)
    (hr : r.pgstart < lo ∧ hi < r.pgend)
    (hr' : r'.pgstart = r.pgstart ∧ r'.pgend = lo - 1 ∧ r'.purged = r.purged)
    (hnew : ∀ x ∈ new, x.pgstart = hi + 1 ∧ x.pgend = r.pgend ∧ x.purged = r.purged)
    (halloc : alloc = true → new.isSome = true) (hret : ret' = (ret || r.purged)) :
    Pinned alloc lo hi (r :: ranges) (new.toList ++ r' :: ranges) ret ret' where
  pieces x hx := by
    simp only [mem_append, Option.mem_toList, mem_cons] at hx
    rcases hx with hx | rfl | hx
    · have := hnew x hx
      exact ⟨r, by simp, by omega, by omega, this.2.2, .inr (by omega)⟩
    · exact ⟨r, by simp, by omega, by omega, hr'.2.2, .inr (by omega)⟩
    · exact ⟨x, by simp [hx], .refl⟩
  descending := by
    have htail : Descending AshmemRange.pgstart AshmemRange.pgend (r' :: ranges) := by
      refine descending_cons.mpr ⟨fun x hx => ?_, hl.tail.descending⟩
      have := hl.below hx
      omega
    cases new with
    | none => exact htail
    | some x =>
      refine descending_cons.mpr ⟨fun y hy => ?_, htail⟩
      have hx := hnew x rfl
      rcases mem_cons.mp hy with rfl | hy
      · omega
      · have := hl.below hy
        omega
  pages h f p := by
    obtain ⟨x, rfl⟩ := Option.isSome_iff_exists.mp (halloc h)
    obtain ⟨hx1, hx2, hx3⟩ := hnew x rfl
    obtain ⟨h1, h2, h3⟩ := hr'
    -- what is behind the range lies below the request
    have hbelow : p ∈ pagesOf f ranges → ¬ (lo ≤ p ∧ p ≤ hi) := fun hmem hp =>
      hl.not_mem_tail (by omega) hmem
    simp only [Option.toList_some, singleton_append, mem_pagesOf_cons, hx3, h3]
    constructor
    · rintro (⟨hf, hp⟩ | ⟨hf, hp⟩ | hmem)
      · exact ⟨.inl ⟨hf, by omega⟩, by omega⟩
      · exact ⟨.inl ⟨hf, by omega⟩, by omega⟩
      · exact ⟨.inr hmem, hbelow hmem⟩
    · rintro ⟨⟨hf, hp⟩ | hmem, hnot⟩
      · by_cases hlt : p < lo
        · exact .inr (.inl ⟨hf, by omega⟩)
        · exact .inl ⟨hf, by omega⟩
      · exact .inr (.inr hmem)
  kept h := by simp [hret, h]
  reported p hmem hle _ := by
    rcases mem_pagesOf_cons.mp hmem with ⟨hflag, -⟩ | hmem
    · simpa [hret] using .inr hflag
    · exact absurd hmem (hl.not_mem_tail (by omega))

end Pinned

/-- The loop of `ashmem_pin`, along the list. -/
theorem pinLoop_spec (hn : n < 2 ^ 20) (hreq : Fits n lo hi) (hl : Listed n ranges) (lru : Lru)
    (ret : Bool) : Pinned alloc lo hi ranges (pinLoop a alloc lo hi ranges lru ret).1 ret
      (pinLoop a alloc lo hi ranges lru ret).2.2 := by
  induction ranges generalizing lru ret with
  | nil => exact .stop descending_nil fun f p _ => not_mem_pagesOf_nil
  | cons r ranges ih =>
    unfold pinLoop
    split
    next hb =>
      exact .stop hl.descending fun f p hp => hl.not_mem_of_before hb hp
    rename_i hb
    split
    next hm =>
      split
      next hs =>
        exact (ih hl.tail _ _).drop rfl (AshmemRange.subsumed_iff.mp hs)
      rename_i hs
      split
      next hstart =>
        obtain ⟨hpiece, hpages⟩ := piece_front hn hreq hl.head hm hs hstart
        exact (ih hl.tail _ _).keep hl hpiece hpages (by simp +contextual) (by simp +contextual)
      rename_i hstart
      obtain ⟨hpiece, hpred⟩ := piece_rear hn hreq hb hstart
      rw [AshmemRange.before_iff] at hb
      split
      · refine (ih hl.tail _ _).keep hl hpiece (fun p => ?_) (by simp +contextual)
          (by simp +contextual)
        simp only [Lru.rangeShrink]
        omega
      · have hr32 := hl.head.lt hn
        refine .split hl hreq.1 (by omega) ⟨rfl, hpred, rfl⟩ (fun x hx => ?_) (fun h => ?_) rfl
        · simp only [Lru.rangeAlloc] at hx
          split at hx
          · cases hx
            exact ⟨ulong_succ (by omega), rfl, rfl⟩
          · cases hx
        · subst h
          rfl
    next hm =>
      have habove := AshmemRange.above_of_not_meets hb hm
      exact (ih hl.tail _ _).keep hl .refl (by omega) id (by omega)

/-! ## Unpinning -/

/-- What the scan of `ashmem_unpin` finds. -/
def UnpinScan.Finds (lo hi : Nat) (ranges : List AshmemRange) : UnpinScan → Prop
  | .covered => ∃ r ∈ ranges, r.pgstart ≤ lo ∧ hi ≤ r.pgend
  | .merge r rest => ∃ above below, ranges = above ++ r :: below ∧ rest = above ++ below ∧
      r.meets lo hi = true
  | .insert above below => ranges = above ++ below ∧ (∀ r ∈ above, hi < r.pgstart) ∧
      ∀ r ∈ below, r.pgend < lo

/-- A range that the scan passes lies above the request. -/
theorem UnpinScan.Finds.cons {scan : UnpinScan} (h : scan.Finds lo hi ranges)
    (hr : hi < r.pgstart) : (scan.cons r).Finds lo hi (r :: ranges) := by
  cases scan with
  | covered =>
    obtain ⟨x, hx, hcov⟩ := h
    exact ⟨x, by simp [hx], hcov⟩
  | merge x rest =>
    obtain ⟨above, below, rfl, rfl, hx⟩ := h
    exact ⟨r :: above, below, rfl, rfl, hx⟩
  | insert above below =>
    obtain ⟨rfl, habove, hbelow⟩ := h
    exact ⟨rfl, forall_mem_cons.mpr ⟨hr, habove⟩, hbelow⟩

theorem unpinScan_spec (hl : Listed n ranges) (lo hi : Nat) :
    (unpinScan lo hi ranges).Finds lo hi ranges := by
  induction ranges with
  | nil => exact ⟨rfl, by simp, by simp⟩
  | cons r ranges ih =>
    unfold unpinScan
    split
    next hb =>
      rw [AshmemRange.before_iff] at hb
      exact ⟨rfl, by simp,
        forall_mem_cons.mpr ⟨hb, fun _ hx => hl.descending.below hl.head.1 hb hx⟩⟩
    rename_i hb
    split
    next hs =>
      exact ⟨r, by simp, AshmemRange.subsumes_iff.mp hs⟩
    split
    next hm =>
      exact ⟨[], ranges, rfl, rfl, hm⟩
    next hm =>
      exact (ih hl.tail).cons (AshmemRange.above_of_not_meets hb hm)

/-- Merging two spans keeps `Q`. -/
def MergeClosed (Q : Nat → Nat → Prop) : Prop :=
  ∀ lo hi lo' hi', Q lo hi → Q lo' hi' → Q (min lo' lo) (max hi' hi)

theorem mergeClosed_fits : MergeClosed (Fits n) := by
  intro lo hi lo' hi' h h'
  unfold Fits at *
  omega

theorem mergeClosed_proper : MergeClosed (Proper n) := by
  intro lo hi lo' hi' h h'
  unfold Proper at *
  omega

/-- What an unpin request does to the list. `merged` are purged pages of ranges that
have left the list to be merged with the request. -/
structure Unpinned (alloc : Bool) (lo hi : Nat) (merged : Set Nat)
    (ranges ranges' : List AshmemRange) : Prop where
  spans : ∀ Q, MergeClosed Q → Q lo hi → (∀ r ∈ ranges, Q r.pgstart r.pgend) →
    ∀ r ∈ ranges', Q r.pgstart r.pgend
  descending : Descending AshmemRange.pgstart AshmemRange.pgend ranges'
  pages : alloc = true → unpinnedPages ranges' = unpinnedPages ranges ∪ Set.Icc lo hi
  flagged : alloc = true → pagesOf id ranges ∪ merged ⊆ pagesOf id ranges'

namespace Unpinned

variable {merged : Set Nat} {above below : List AshmemRange}

/-- One range holds the whole request. Merged pages are not covered by the list, so
that there cannot be any. -/
theorem covered (hl : Listed n ranges) (hr : ∃ r ∈ ranges, r.pgstart ≤ lo ∧ hi ≤ r.pgend)
    (hsub : merged ⊆ Set.Icc lo hi) (hdisj : Disjoint merged (unpinnedPages ranges)) :
    Unpinned alloc lo hi merged ranges ranges := by
  obtain ⟨r, hr, hcov⟩ := hr
  have hin : Set.Icc lo hi ⊆ unpinnedPages ranges := by
    rintro p ⟨hlo, hhi⟩
    exact ⟨r, hr, by omega, by omega⟩
  refine ⟨fun Q _ _ h => h, hl.descending, fun _ => ?_, fun _ => ?_⟩
  · exact (union_eq_self_of_subset_right hin).symm
  · rw [hdisj.eq_bot_of_le (hsub.trans hin)]
    simp

/-- The new range goes between two parts of the list. -/
theorem insert (hl : Listed n (above ++ below)) (habove : ∀ x ∈ above, hi < x.pgstart)
    (hbelow : ∀ x ∈ below, x.pgend < lo) (hr : r.pgstart = lo ∧ r.pgend = hi)
    (hsub : merged ⊆ Set.Icc lo hi) (hpurged : ∀ p ∈ merged, r.purged = true) :
    Unpinned alloc lo hi merged (above ++ below) (above ++ r :: below) where
  spans Q _ hreq h := by
    obtain ⟨ha, hb⟩ := forall_mem_append.mp h
    exact forall_mem_append.mpr ⟨ha, forall_mem_cons.mpr ⟨by rwa [hr.1, hr.2], hb⟩⟩
  descending := by
    obtain ⟨h1, h2, h3⟩ := pairwise_append.mp hl.descending
    refine pairwise_append.mpr ⟨h1, descending_cons.mpr ⟨fun y hy => ?_, h2⟩, fun x hx => ?_⟩
    · exact hr.1 ▸ hbelow y hy
    · exact forall_mem_cons.mpr ⟨hr.2 ▸ habove x hx, h3 x hx⟩
  pages _ := by
    ext p
    simp only [unpinnedPages_eq, mem_union, mem_pagesOf_append, mem_pagesOf_cons]
    grind
  flagged _ := by
    rintro p (hp | hp)
    · simp only [mem_pagesOf_append, mem_pagesOf_cons] at hp ⊢
      grind
    · have := hsub hp
      simp only [mem_pagesOf_append, mem_pagesOf_cons, hr.1, hr.2]
      exact .inr (.inl ⟨hpurged p hp, this.1, this.2⟩)

/-- Without memory for the new range nothing is put there. -/
theorem noMemory (hl : Listed n ranges) : Unpinned false lo hi merged ranges ranges :=
  ⟨fun _ _ _ h => h, hl.descending, by simp, by simp⟩

/-- A range is taken off the list and merged with the request. -/
theorem merge (h : Unpinned alloc (min r.pgstart lo) (max r.pgend hi)
      (merged ∪ { p | r.purged = true ∧ r.pgstart ≤ p ∧ p ≤ r.pgend }) (above ++ below) ranges')
    (hlo : lo ≤ hi + 1) (hrr : r.pgstart ≤ r.pgend + 1) (hm : r.meets lo hi = true) :
    Unpinned alloc lo hi merged (above ++ r :: below) ranges' where
  spans Q hQ hreq hall := by
    refine h.spans Q hQ (hQ _ _ _ _ hreq (hall r (by simp))) fun x hx => hall x ?_
    rcases mem_append.mp hx with hx | hx <;> simp [hx]
  descending := h.descending
  pages halloc := by
    have hnear := AshmemRange.near_of_meets hm hlo hrr
    ext p
    -- the two spans touch, so that together they are one
    have hspan : min r.pgstart lo ≤ p ∧ p ≤ max r.pgend hi ↔
        (r.pgstart ≤ p ∧ p ≤ r.pgend) ∨ (lo ≤ p ∧ p ≤ hi) := by omega
    rw [h.pages halloc]
    simp only [unpinnedPages_eq, mem_union, mem_pagesOf_append, mem_pagesOf_cons]
    grind
  flagged halloc p hp := by
    refine h.flagged halloc ?_
    simp only [mem_union, mem_pagesOf_append, mem_pagesOf_cons] at hp ⊢
    grind

end Unpinned

theorem Listed.remove {above below : List AshmemRange} (h : Listed n (above ++ r :: below)) :
    Listed n (above ++ below) ∧ Disjoint { p | r.pgstart ≤ p ∧ p ≤ r.pgend }
      (unpinnedPages (above ++ below)) := by
  have hsub : (above ++ below).Sublist (above ++ r :: below) :=
    (Sublist.refl above).append (sublist_cons_self r below)
  refine ⟨⟨fun x hx => h.fits x (hsub.subset hx), h.descending.sublist hsub⟩, ?_⟩
  obtain ⟨-, hr, hcross⟩ := pairwise_append.mp h.descending
  rw [Set.disjoint_left]
  rintro p ⟨hlo, hhi⟩ ⟨x, hx, hlo', hhi'⟩
  rcases mem_append.mp hx with hx | hx
  · have := hcross x hx r (by simp)
    omega
  · have := (descending_cons.mp hr).1 x hx
    omega

/-- `ashmem_unpin` from `restart` on, by the number of ranges on the list. -/
theorem unpinLoop_spec {fuel : Nat} {merged : Set Nat} (hfuel : ranges.length < fuel)
    (hreq : Fits n lo hi) (hl : Listed n ranges) (hsub : merged ⊆ Set.Icc lo hi)
    (hdisj : Disjoint merged (unpinnedPages ranges)) (hpurged : ∀ p ∈ merged, purged = true)
    (lru : Lru) : Unpinned alloc lo hi merged ranges
      (unpinLoop a alloc fuel lo hi purged ranges lru).1 := by
  induction fuel generalizing lo hi purged ranges lru merged with
  | zero => omega
  | succ fuel ih =>
    have hscan := unpinScan_spec hl lo hi
    unfold unpinLoop
    revert hscan
    cases unpinScan lo hi ranges with
    | covered => exact fun hcov => .covered hl hcov hsub hdisj
    | insert above below =>
      rintro ⟨rfl, habove, hbelow⟩
      cases alloc with
      | true => exact .insert hl habove hbelow ⟨rfl, rfl⟩ hsub hpurged
      | false => exact .noMemory hl
    | merge r rest =>
      rintro ⟨above, below, rfl, rfl, hm⟩
      obtain ⟨hl', hout⟩ := hl.remove
      have hr := hl.fits r (by simp)
      have hrest : unpinnedPages (above ++ below) ⊆ unpinnedPages (above ++ r :: below) := by
        intro p hp
        simp only [unpinnedPages_eq, mem_pagesOf_append, mem_pagesOf_cons] at hp ⊢
        grind
      refine (ih ?_ (mergeClosed_fits _ _ _ _ hreq hr) hl' ?_ ?_ ?_ _).merge hreq.1 hr.1 hm
      · simp only [length_append, length_cons] at hfuel ⊢
        omega
      · rintro p (hp | ⟨-, hp⟩)
        · have := hsub hp
          simp only [mem_Icc] at this ⊢
          omega
        · simp only [mem_Icc]
          omega
      · refine disjoint_union_left.mpr ⟨hdisj.mono_right hrest, hout.mono_left ?_⟩
        exact fun p hp => hp.2
      · rintro p (hp | ⟨hp, -⟩)
        · simp [hpurged p hp]
        · simp [hp]

/-! ## The requests as a whole -/

section

variable {pin : AshmemPin} {size : Nat} (hpages : pin.pages size = some (lo, hi))

include hpages

theorem ashmemPin_spec (hl : Listed (pageCount size) ranges) (a : AreaId) (alloc : Bool)
    (lru : Lru) : Pinned alloc lo hi ranges (ashmemPin a alloc lo hi ranges lru).1 false
      (ashmemPin a alloc lo hi ranges lru).2.2 :=
  pinLoop_spec (pageCount_lt size) (AshmemPin.fits_of_pages hpages) hl lru false

theorem ashmemUnpin_spec (hl : Listed (pageCount size) ranges) (a : AreaId) (alloc : Bool)
    (lru : Lru) : Unpinned alloc lo hi ∅ ranges (ashmemUnpin a alloc lo hi ranges lru).1 :=
  unpinLoop_spec (Nat.lt_succ_self _) (AshmemPin.fits_of_pages hpages) hl (by simp) (by simp)
    (by simp) lru

end

/-- `ashmem_get_pin_status` is right about lists without empty ranges. -/
theorem ashmemGetPinStatus_iff (hreq : lo ≤ hi ∨ n ≤ lo) (hl : Listed n ranges)
    (hne : ∀ r ∈ ranges, Proper n r.pgstart r.pgend) :
    ashmemGetPinStatus lo hi ranges = true ↔ (Set.Icc lo hi ∩ unpinnedPages ranges).Nonempty := by
  induction ranges with
  | nil => simp [ashmemGetPinStatus, unpinnedPages_eq, Set.Nonempty]
  | cons r ranges ih =>
    have hr := hne r (by simp)
    unfold ashmemGetPinStatus
    rw [unpinnedPages_eq]
    split
    next hb =>
      refine iff_of_false (by simp) ?_
      rintro ⟨p, hp, hmem⟩
      exact hl.not_mem_of_before hb hp.1 hmem
    rename_i hb
    split
    next hm =>
      refine iff_of_true rfl ⟨max lo r.pgstart, ?_⟩
      rw [AshmemRange.before_iff] at hb
      rw [AshmemRange.meets_iff] at hm
      simp only [mem_inter_iff, mem_Icc, mem_pagesOf_cons, true_and]
      unfold Proper at hr
      omega
    next hm =>
      have habove := AshmemRange.above_of_not_meets hb hm
      rw [ih hl.tail fun x hx => hne x (by simp [hx]), unpinnedPages_eq]
      simp only [Set.Nonempty, mem_inter_iff, mem_Icc, mem_pagesOf_cons]
      refine exists_congr fun p => and_congr_right fun hp => ?_
      exact ⟨.inr, fun h => h.resolve_left (by omega)⟩

end AndroidKernel.Ashmem
