import AndroidKernel.Ashmem.Areas
import AndroidKernel.Lib.HeapSum

/-!
# The list of the least recently unpinned

`ashmem_lru_list` and `lru_count` against the ranges of all areas. `Lru.Holds` says
that the list has just the ranges of a multiset `M`, each once, and that the count is
the number of their pages in 32 bits. The functions that add, delete and shrink a
range change `M` by that range; the loops of the driver work on the ranges of one
area, with the ranges of all others as a frame `R`.

`k` asks for more: that the count never went below zero. This needs room, since
`lru_count` wraps when more than 4 GiB of pages are on the list.
-/

namespace AndroidKernel.Ashmem

open List

variable {k : Prop} {s s' : State} {a b : AreaId} {area : AshmemArea} {alloc purged ret : Bool}
  {lo hi n : Nat} {r r' : AshmemRange} {ranges ranges' : List AshmemRange} {lru lru' : Lru}
  {M R : Multiset (AreaId × AshmemRange)}

/-! ## Sizes -/

theorem AshmemRange.size_lt (h : Fits n r.pgstart r.pgend) (hn : n < 2 ^ 20) : r.size < 2 ^ 20 := by
  unfold AshmemRange.size ulong
  unfold Fits at h
  omega

theorem sizeT_size_sub (h : r'.size ≤ r.size) :
    ulong ((r.size : Int) - r'.size) = r.size - r'.size := by
  have hlt : r.size < 2 ^ 32 := ulong_lt _
  unfold ulong
  omega

theorem Piece.size_le (h : Piece lo hi r r') (hreq : Fits n lo hi)
    (hr : Fits n r.pgstart r.pgend) (hn : n < 2 ^ 20) : r'.size ≤ r.size := by
  have h1 := h.start_le
  have h2 := h.end_le
  have h3 := h.cut
  unfold AshmemRange.size ulong
  unfold Fits at hreq hr
  omega

/-! ## The accounts -/

/-- How a range is named on the list. -/
def lruKey (x : AreaId × AshmemRange) : AreaId × RangeId := (x.1, x.2.id)

/-- The pages of a collection of ranges. -/
def lruPages (M : Multiset (AreaId × AshmemRange)) : Nat := (M.map fun x => x.2.size).sum

@[simp] theorem lruPages_cons : lruPages ((a, r) ::ₘ M) = r.size + lruPages M := by
  simp [lruPages]

@[simp] theorem lruPages_add : lruPages (R + M) = lruPages R + lruPages M := by
  simp [lruPages]

/-- The ranges of an area that belong on the list. -/
def unpurged (a : AreaId) (ranges : List AshmemRange) : Multiset (AreaId × AshmemRange) :=
  ((ranges.filter AshmemRange.onLru).map fun range => (a, range) : List _)

@[simp] theorem unpurged_nil : unpurged a [] = 0 := rfl

theorem unpurged_cons (r : AshmemRange) (ranges : List AshmemRange) :
    unpurged a (r :: ranges) = unpurged a [r] + unpurged a ranges := by
  unfold unpurged
  by_cases h : r.onLru = true <;> simp [h]

theorem unpurged_perm (h : ranges.Perm ranges') : unpurged a ranges = unpurged a ranges' :=
  Multiset.coe_eq_coe.mpr ((h.filter _).map _)

theorem unpurged_single_of_onLru (h : r.onLru = true) : unpurged a [r] = {(a, r)} := by
  simp [unpurged, h]

/-- A range that is cut has fewer pages on the list. -/
theorem lruPages_unpurged_single_le (hon : r'.onLru = r.onLru) (h : r'.size ≤ r.size) :
    lruPages (unpurged a [r']) ≤ lruPages (unpurged a [r]) := by
  by_cases hr : r.onLru = true <;> simp [unpurged, lruPages, hon, hr, h]

theorem unpurged_single_of_not (h : ¬ r.onLru = true) : unpurged a [r] = 0 := by
  simp [unpurged, h]

/-- The list and the count are those of `M`. -/
structure Lru.Holds (k : Prop) (lru : Lru) (M : Multiset (AreaId × AshmemRange)) : Prop where
  list : (lru.ashmemLruList : Multiset (AreaId × RangeId)) = M.map lruKey
  nodup : lru.ashmemLruList.Nodup
  fresh : ∀ x ∈ lru.ashmemLruList, x.2 < lru.nextRange
  count : lru.lruCount = lruPages M % 2 ^ 32
  exact : k → lru.belowZero = false ∧ lruPages M < 2 ^ 32

namespace Lru.Holds

/-- `lru_del`. -/
theorem del (h : lru.Holds k ((a, r) ::ₘ M)) : (lru.del a r).Holds k M where
  list := by
    have hlist := h.list
    rw [Multiset.map_cons] at hlist
    have hmem : (a, r.id) ∈ lru.ashmemLruList := by
      rw [← Multiset.mem_coe, hlist]
      exact Multiset.mem_cons_self _ _
    rw [Multiset.coe_eq_coe.mpr (perm_cons_erase hmem)] at hlist
    exact (Multiset.cons_inj_right _).mp hlist
  nodup := h.nodup.erase _
  fresh x hx := h.fresh x (mem_of_mem_erase hx)
  count := by
    have hcount := h.count
    rw [lruPages_cons] at hcount
    simp only [Lru.del, Lru.sub, ulong]
    omega
  exact hk := by
    obtain ⟨hz, hlt⟩ := h.exact hk
    have hcount := h.count
    rw [lruPages_cons] at hcount hlt
    refine ⟨?_, by omega⟩
    simp only [Lru.del, Lru.sub, hz, Bool.false_or, decide_eq_false_iff_not]
    omega

/-- `lru_add`, for a range that has just got its name. -/
theorem add (h : lru.Holds k M) (hr : r.id = lru.nextRange)
    (hroom : k → lruPages M + r.size < 2 ^ 32) :
    (Lru.add { lru with nextRange := lru.nextRange + 1 } a r).Holds k ((a, r) ::ₘ M) where
  list := by
    show (↑(lru.ashmemLruList ++ [(a, r.id)]) : Multiset (AreaId × RangeId)) = _
    rw [← Multiset.coe_add, h.list, Multiset.map_cons, add_comm]
    rfl
  nodup := by
    refine nodup_append.mpr ⟨h.nodup, nodup_singleton _, fun x hx y hy => ?_⟩
    rintro rfl
    have hlt := h.fresh x hx
    rw [mem_singleton.mp hy, hr] at hlt
    exact absurd hlt (Nat.lt_irrefl _)
  fresh x hx := by
    rcases mem_append.mp hx with hx | hx
    · exact Nat.lt_succ_of_lt (h.fresh x hx)
    · rw [mem_singleton.mp hx, hr]
      exact Nat.lt_succ_self _
  count := by
    have hcount := h.count
    rw [lruPages_cons]
    simp only [Lru.add, ulong]
    omega
  exact hk := by
    have hroom := hroom hk
    rw [lruPages_cons]
    exact ⟨(h.exact hk).1, by omega⟩

/-- `range_shrink` of a range on the list. -/
theorem shrink (h : lru.Holds k ((a, r) ::ₘ M)) (hid : r'.id = r.id) (hle : r'.size ≤ r.size) :
    (lru.sub (ulong ((r.size : Int) - r'.size))).Holds k ((a, r') ::ₘ M) where
  list := by
    show (lru.ashmemLruList : Multiset (AreaId × RangeId)) = _
    rw [h.list]
    simp [lruKey, hid]
  nodup := h.nodup
  fresh := h.fresh
  count := by
    have hcount := h.count
    rw [lruPages_cons] at hcount ⊢
    simp only [Lru.sub, ulong]
    omega
  exact hk := by
    obtain ⟨hz, hlt⟩ := h.exact hk
    have hcount := h.count
    rw [lruPages_cons] at hcount hlt ⊢
    refine ⟨?_, by omega⟩
    rw [sizeT_size_sub hle]
    simp only [Lru.sub, hz, Bool.false_or, decide_eq_false_iff_not]
    omega

/-- `range_del`. -/
theorem rangeDel (h : lru.Holds k (R + unpurged a (r :: ranges))) :
    (lru.rangeDel a r).Holds k (R + unpurged a ranges) := by
  rw [unpurged_cons] at h
  unfold Lru.rangeDel
  split
  next hr =>
    rw [unpurged_single_of_onLru hr, Multiset.singleton_add, Multiset.add_cons] at h
    exact h.del
  next hr =>
    rwa [unpurged_single_of_not hr] at h

/-- `range_shrink`. -/
theorem rangeShrink (h : lru.Holds k (R + unpurged a (r :: ranges)))
    (hr' : (lru.rangeShrink r lo hi).1.size ≤ r.size) : (lru.rangeShrink r lo hi).2.Holds k
      (R + unpurged a ((lru.rangeShrink r lo hi).1 :: ranges)) := by
  rw [unpurged_cons] at h ⊢
  unfold Lru.rangeShrink at *
  split
  next hr =>
    have hr2 : AshmemRange.onLru { r with pgstart := lo, pgend := hi } = true := hr
    rw [unpurged_single_of_onLru hr, Multiset.singleton_add, Multiset.add_cons] at h
    rw [unpurged_single_of_onLru hr2, Multiset.singleton_add, Multiset.add_cons]
    exact h.shrink rfl hr'
  next hr =>
    have hr2 : ¬ AshmemRange.onLru { r with pgstart := lo, pgend := hi } = true := hr
    rw [unpurged_single_of_not hr] at h
    rwa [unpurged_single_of_not hr2]

/-- `range_alloc`, if there is memory. -/
theorem rangeAlloc (h : lru.Holds k (R + unpurged a ranges))
    (hroom : k → ∀ x ∈ (lru.rangeAlloc a alloc purged lo hi).1,
      lruPages (R + unpurged a ranges) + x.size < 2 ^ 32) :
    (lru.rangeAlloc a alloc purged lo hi).2.Holds k
      (R + unpurged a ((lru.rangeAlloc a alloc purged lo hi).1.toList ++ ranges)) := by
  cases alloc with
  | false => exact h
  | true =>
    have hroom : k → lruPages (R + unpurged a ranges) +
        AshmemRange.size ⟨lru.nextRange, lo, hi, purged⟩ < 2 ^ 32 := fun hk => hroom hk _ rfl
    show Lru.Holds k (if _ then _ else _)
      (R + unpurged a (⟨lru.nextRange, lo, hi, purged⟩ :: ranges))
    rw [unpurged_cons]
    split
    next hr =>
      rw [unpurged_single_of_onLru hr, Multiset.singleton_add, Multiset.add_cons]
      exact h.add rfl hroom
    next hr =>
      rw [unpurged_single_of_not hr]
      exact ⟨h.list, h.nodup, fun x hx => Nat.lt_succ_of_lt (h.fresh x hx), h.count, h.exact⟩

end Lru.Holds

/-! ## The ranges of one area -/

/-- The accounts with the ranges of one area and a frame, and the names of these
ranges. -/
structure Lru.Good (k : Prop) (a : AreaId) (R : Multiset (AreaId × AshmemRange)) (lru : Lru)
    (ranges : List AshmemRange) : Prop where
  holds : lru.Holds k (R + unpurged a ranges)
  nodup : (ranges.map AshmemRange.id).Nodup
  named : ∀ r ∈ ranges, r.id < lru.nextRange

/-- New names are fresh ones. -/
structure Lru.Follows (lru : Lru) (ranges : List AshmemRange) (lru' : Lru)
    (ranges' : List AshmemRange) : Prop where
  le : lru.nextRange ≤ lru'.nextRange
  ids : ∀ r ∈ ranges', r.id ∈ ranges.map AshmemRange.id ∨ lru.nextRange ≤ r.id

/-- The accounts are kept, and so are the names. -/
def Lru.Goes (k : Prop) (a : AreaId) (R : Multiset (AreaId × AshmemRange)) (lru : Lru)
    (ranges : List AshmemRange) (lru' : Lru) (ranges' : List AshmemRange) : Prop :=
  lru'.Good k a R ranges' ∧ lru.Follows ranges lru' ranges'

theorem Lru.Follows.refl : lru.Follows ranges lru ranges :=
  ⟨le_rfl, fun _ hr => .inl (mem_map_of_mem hr)⟩

theorem Lru.Follows.trans {lru₁ : Lru} {ranges₁ : List AshmemRange}
    (h : lru.Follows ranges lru₁ ranges₁) (h' : lru₁.Follows ranges₁ lru' ranges') :
    lru.Follows ranges lru' ranges' where
  le := h.le.trans h'.le
  ids x hx := by
    rcases h'.ids x hx with hold | hnew
    · obtain ⟨y, hy, hid⟩ := mem_map.mp hold
      exact hid ▸ h.ids y hy
    · exact .inr (h.le.trans hnew)

/-- Behind a range that keeps its name. -/
theorem Lru.Follows.cons (h : lru.Follows ranges lru' ranges') (hid : r'.id = r.id) :
    lru.Follows (r :: ranges) lru' (r' :: ranges') where
  le := h.le
  ids x hx := by
    rcases mem_cons.mp hx with rfl | hx
    · exact .inl (by simp [hid])
    · exact (h.ids x hx).imp_left (mem_cons_of_mem _)

@[simp] theorem nextRange_rangeDel : (lru.rangeDel a r).nextRange = lru.nextRange := by
  unfold Lru.rangeDel
  split <;> rfl

@[simp] theorem nextRange_rangeShrink : (lru.rangeShrink r lo hi).2.nextRange = lru.nextRange := by
  unfold Lru.rangeShrink
  split <;> rfl

theorem nextRange_rangeAlloc :
    (lru.rangeAlloc a alloc purged lo hi).2.nextRange = lru.nextRange + alloc.toNat := by
  unfold Lru.rangeAlloc
  split
  · dsimp only
    split <;> simp_all [Lru.add]
  · simp_all

namespace Lru.Good

/-- It comes back when the rest of the list is done. -/
theorem back (h : lru'.Good k a (R + unpurged a [r]) ranges') (hf : lru.Follows ranges lru' ranges')
    (h₀ : lru.Good k a R (r :: ranges)) : lru'.Good k a R (r :: ranges') where
  holds := by
    rw [unpurged_cons, ← add_assoc]
    exact h.holds
  nodup := by
    refine nodup_cons.mpr ⟨fun hmem => ?_, h.nodup⟩
    obtain ⟨x, hx, hid⟩ := mem_map.mp hmem
    have hr := h₀.named r (by simp)
    rcases hf.ids x hx with hold | hnew
    · exact (nodup_cons.mp h₀.nodup).1 (hid ▸ hold)
    · exact absurd (hid ▸ hnew) (Nat.not_le.mpr hr)
  named := forall_mem_cons.mpr ⟨lt_of_lt_of_le (h₀.named r (by simp)) hf.le, h.named⟩

section

variable (h : lru.Good k a R (r :: ranges))

include h

/-- A range joins the frame. -/
theorem pass : lru.Good k a (R + unpurged a [r]) ranges where
  holds := by
    rw [add_assoc, ← unpurged_cons]
    exact h.holds
  nodup := (nodup_cons.mp h.nodup).2
  named x hx := h.named x (by simp [hx])

theorem rangeDel : (lru.rangeDel a r).Good k a R ranges where
  holds := h.holds.rangeDel
  nodup := (nodup_cons.mp h.nodup).2
  named := by
    rw [nextRange_rangeDel]
    exact (forall_mem_cons.mp h.named).2

theorem rangeShrink (hr' : (lru.rangeShrink r lo hi).1.size ≤ r.size) :
    (lru.rangeShrink r lo hi).2.Good k a R ((lru.rangeShrink r lo hi).1 :: ranges) where
  holds := h.holds.rangeShrink hr'
  nodup := h.nodup
  named := by
    rw [nextRange_rangeShrink]
    exact forall_mem_cons.mpr (forall_mem_cons.mp h.named)

end

theorem perm (h : lru.Good k a R ranges) (hp : ranges.Perm ranges') : lru.Good k a R ranges' where
  holds := unpurged_perm hp ▸ h.holds
  nodup := (hp.map _).nodup_iff.mp h.nodup
  named x hx := h.named x (hp.mem_iff.mpr hx)

theorem rangeAlloc (h : lru.Good k a R ranges) (alloc purged : Bool) (lo hi : Nat)
    (hroom : k → ∀ x ∈ (lru.rangeAlloc a alloc purged lo hi).1,
      lruPages (R + unpurged a ranges) + x.size < 2 ^ 32) :
    lru.Goes k a R ranges (lru.rangeAlloc a alloc purged lo hi).2
      ((lru.rangeAlloc a alloc purged lo hi).1.toList ++ ranges) := by
  have hholds := h.holds.rangeAlloc hroom
  cases alloc with
  | false => exact ⟨h, .refl⟩
  | true =>
    have hnext : (lru.rangeAlloc a true purged lo hi).2.nextRange = lru.nextRange + 1 :=
      nextRange_rangeAlloc
    refine ⟨⟨hholds, ?_, ?_⟩, hnext ▸ Nat.le_succ _, ?_⟩
    · refine nodup_cons.mpr ⟨fun hmem => ?_, h.nodup⟩
      obtain ⟨x, hx, hxid⟩ := mem_map.mp hmem
      exact absurd hxid (Nat.ne_of_lt (h.named x hx))
    · rw [hnext]
      exact forall_mem_cons.mpr ⟨Nat.lt_succ_self _, fun x hx => Nat.lt_succ_of_lt (h.named x hx)⟩
    · exact forall_mem_cons.mpr ⟨.inr le_rfl, fun x hx => .inl (mem_map_of_mem hx)⟩

end Lru.Good

theorem rangeAlloc_size (h : r ∈ (lru.rangeAlloc a alloc purged lo hi).1) (hfits : Fits n lo hi)
    (hn : n < 2 ^ 20) : r.size < 2 ^ 20 := by
  cases alloc with
  | false => cases h
  | true =>
    cases h
    exact AshmemRange.size_lt hfits hn

/-- A hole is punched: the new range is there before the old one shrinks. -/
theorem punch_good {new : Option AshmemRange} {lo' hi' : Nat}
    (h : lru.Good k a R (new.toList ++ r :: ranges))
    (hr' : (lru.rangeShrink r lo' hi').1.size ≤ r.size) : lru.Goes k a R (new.toList ++ r :: ranges)
      (lru.rangeShrink r lo' hi').2 (new.toList ++ (lru.rangeShrink r lo' hi').1 :: ranges) := by
  have hcut : lru.Follows (r :: ranges) (lru.rangeShrink r lo' hi').2
      ((lru.rangeShrink r lo' hi').1 :: ranges) := by
    refine Lru.Follows.cons ⟨nextRange_rangeShrink.ge, fun x hx => ?_⟩ rfl
    exact .inl (mem_map_of_mem hx)
  cases new with
  | none => exact ⟨h.rangeShrink hr', hcut⟩
  | some x => exact ⟨(h.pass.rangeShrink hr').back hcut h, hcut.cons rfl⟩

/-- The loop of `ashmem_pin` keeps the accounts. -/
theorem pinLoop_good (hn : n < 2 ^ 20) (hreq : Fits n lo hi) (hl : Listed n ranges)
    (h : lru.Good k a R ranges) (hroom : k → lruPages (R + unpurged a ranges) + 2 ^ 20 ≤ 2 ^ 32) :
    lru.Goes k a R ranges (pinLoop a alloc lo hi ranges lru ret).2.1
      (pinLoop a alloc lo hi ranges lru ret).1 := by
  induction ranges generalizing lru ret R with
  | nil => exact ⟨h, .refl⟩
  | cons r ranges ih =>
    -- a range stays on the list, maybe cut, and the loop goes on behind it
    have hkeep : ∀ {lru₁ : Lru} {r' : AshmemRange} {ret' : Bool}, lru₁.Good k a R (r' :: ranges) →
        r'.id = r.id → r'.size ≤ r.size → r'.onLru = r.onLru → lru₁.nextRange = lru.nextRange →
        lru.Goes k a R (r :: ranges) (pinLoop a alloc lo hi ranges lru₁ ret').2.1
          (r' :: (pinLoop a alloc lo hi ranges lru₁ ret').1) := by
      intro lru₁ r' ret' h₁ hid hsize hon hnext
      have hle := lruPages_unpurged_single_le (a := a) hon hsize
      obtain ⟨hgood, hfollows⟩ := ih hl.tail h₁.pass fun hk => by
        have hr := hroom hk
        rw [unpurged_cons] at hr
        simp only [lruPages_add] at hr ⊢
        omega
      have hfirst : lru.Follows ranges lru₁ ranges :=
        ⟨hnext.ge, fun x hx => .inl (mem_map_of_mem hx)⟩
      exact ⟨hgood.back hfollows h₁, (hfirst.trans hfollows).cons hid⟩
    unfold pinLoop
    split
    · exact ⟨h, .refl⟩
    rename_i hb
    split
    next hm =>
      split
      · obtain ⟨hgood, hfollows⟩ := ih hl.tail h.rangeDel fun hk => by
          have hr := hroom hk
          rw [unpurged_cons] at hr
          simp only [lruPages_add] at hr ⊢
          omega
        have hfirst : lru.Follows (r :: ranges) (lru.rangeDel a r) ranges :=
          ⟨nextRange_rangeDel.ge, fun x hx => .inl (mem_map_of_mem (by simp [hx]))⟩
        exact ⟨hgood, hfirst.trans hfollows⟩
      rename_i hs
      split
      next hstart =>
        have hsize := (piece_front hn hreq hl.head hm hs hstart).1.size_le hreq hl.head hn
        exact hkeep (h.rangeShrink hsize) rfl hsize rfl nextRange_rangeShrink
      rename_i hstart
      have hsize := (piece_rear hn hreq hb hstart).1.size_le hreq hl.head hn
      split
      · exact hkeep (h.rangeShrink hsize) rfl hsize rfl nextRange_rangeShrink
      have hr32 := hl.head.lt hn
      have hfits : Fits n (ulong ((hi : Int) + 1)) r.pgend := by
        have hr := hl.head
        rw [ulong_succ (by omega)]
        unfold Fits at hr hreq ⊢
        omega
      obtain ⟨hgood, hfollows⟩ := h.rangeAlloc alloc r.purged _ _ fun hk x hx => by
        have hxsize := rangeAlloc_size hx hfits hn
        have hr := hroom hk
        omega
      obtain ⟨hgood', hfollows'⟩ := punch_good hgood hsize
      exact ⟨hgood', hfollows.trans hfollows'⟩
    · exact hkeep h rfl le_rfl rfl rfl

/-- `ashmem_unpin` keeps the accounts. -/
theorem unpinLoop_good {fuel : Nat} (hn : n < 2 ^ 20) (hreq : Fits n lo hi) (hl : Listed n ranges)
    (h : lru.Good k a R ranges) (hroom : k → lruPages (R + unpurged a ranges) + 2 ^ 20 ≤ 2 ^ 32) :
    lru.Goes k a R ranges (unpinLoop a alloc fuel lo hi purged ranges lru).2.1
      (unpinLoop a alloc fuel lo hi purged ranges lru).1 := by
  induction fuel generalizing lo hi purged ranges lru with
  | zero => exact ⟨h, .refl⟩
  | succ fuel ih =>
    have hscan := unpinScan_spec hl lo hi
    unfold unpinLoop
    revert hscan
    cases unpinScan lo hi ranges with
    | covered => exact fun _ => ⟨h, .refl⟩
    | insert above below =>
      rintro ⟨rfl, -, -⟩
      obtain ⟨hgood, hfollows⟩ := h.rangeAlloc alloc purged lo hi fun hk x hx => by
        have hxsize := rangeAlloc_size hx hreq hn
        have hr := hroom hk
        omega
      cases alloc with
      | false => exact ⟨hgood, hfollows⟩
      | true =>
        have hperm : (⟨lru.nextRange, lo, hi, purged⟩ :: (above ++ below)).Perm
            (above ++ ⟨lru.nextRange, lo, hi, purged⟩ :: below) := perm_middle.symm
        exact ⟨hgood.perm hperm, hfollows.le, fun x hx => hfollows.ids x (hperm.mem_iff.mpr hx)⟩
    | merge r rest =>
      rintro ⟨above, below, rfl, rfl, -⟩
      have hperm : (above ++ r :: below).Perm (r :: (above ++ below)) := perm_middle
      have hr := hl.fits r (by simp)
      obtain ⟨hgood, hfollows⟩ := ih (mergeClosed_fits _ _ _ _ hreq hr) hl.remove.1
        (h.perm hperm).rangeDel fun hk => by
          have hr := hroom hk
          rw [unpurged_perm hperm, unpurged_cons] at hr
          simp only [lruPages_add] at hr ⊢
          omega
      have hfirst : lru.Follows (above ++ r :: below) (lru.rangeDel a r) (above ++ below) := by
        refine ⟨nextRange_rangeDel.ge, fun x hx => .inl (mem_map_of_mem ?_)⟩
        exact hperm.mem_iff.mpr (mem_cons_of_mem _ hx)
      exact ⟨hgood, hfirst.trans hfollows⟩

/-- `ashmem_release`. -/
theorem release_holds (h : lru.Holds k (R + unpurged a ranges)) :
    (ranges.foldl (fun lru range => lru.rangeDel a range) lru).Holds k R ∧
    (ranges.foldl (fun lru range => lru.rangeDel a range) lru).nextRange = lru.nextRange := by
  induction ranges generalizing lru with
  | nil => exact ⟨by simpa using h, rfl⟩
  | cons r ranges ih =>
    obtain ⟨hholds, hnext⟩ := ih h.rangeDel
    exact ⟨hholds, hnext.trans nextRange_rangeDel⟩

/-! ## All areas -/

/-- The ranges of all areas that have not been purged. -/
def State.unpurgedRanges (s : State) : Multiset (AreaId × AshmemRange) :=
  s.areas.sum fun a area => unpurged a area.unpinnedList

/-- The accounts, and the names that each area uses. -/
structure State.LruOk (k : Prop) (s : State) : Prop where
  holds : s.lru.Holds k s.unpurgedRanges
  nodup : ∀ a area, s.areas.get a = some area → (area.unpinnedList.map AshmemRange.id).Nodup
  named : ∀ a area, s.areas.get a = some area → ∀ r ∈ area.unpinnedList, r.id < s.lru.nextRange
  areas : s.Areas (AshmemArea.Ok Fits)

theorem mem_unpurged : (b, r) ∈ unpurged a ranges ↔ b = a ∧ r ∈ ranges ∧ r.onLru = true := by
  simp only [unpurged, Multiset.mem_coe, mem_map, mem_filter, Prod.mk.injEq]
  constructor
  · rintro ⟨x, hx, rfl, rfl⟩
    exact ⟨rfl, hx⟩
  · rintro ⟨rfl, hr⟩
    exact ⟨r, hr, rfl, rfl⟩

theorem State.mem_unpurgedRanges : (a, r) ∈ s.unpurgedRanges ↔
    ∃ area, s.areas.get a = some area ∧ r ∈ area.unpinnedList ∧ r.onLru = true := by
  unfold State.unpurgedRanges Heap.sum
  rw [Multiset.mem_sum]
  constructor
  · rintro ⟨b, -, hmem⟩
    cases hb : s.areas.get b with
    | none => simp [hb] at hmem
    | some area =>
      rw [hb] at hmem
      obtain ⟨rfl, hr⟩ := mem_unpurged.mp hmem
      exact ⟨area, hb, hr⟩
  · rintro ⟨area, ha, hr⟩
    refine ⟨a, Finset.mem_range.mpr (Heap.lt_next_of_get ha), ?_⟩
    rw [ha]
    exact mem_unpurged.mpr ⟨rfl, hr⟩

namespace State.LruOk

/-- One area before a frame of all others. -/
theorem split (h : s.LruOk k) (harea : s.areas.get a = some area) :
    ∃ R, s.lru.Good k a R area.unpinnedList ∧ s.unpurgedRanges = R + unpurged a area.unpinnedList ∧
      (∀ area', (s.areas.set a area').sum (fun a area => unpurged a area.unpinnedList) =
        R + unpurged a area'.unpinnedList) ∧
      (s.areas.free a).sum (fun a area => unpurged a area.unpinnedList) = R := by
  obtain ⟨R, hsum, hset, hfree⟩ :=
    Heap.sum_split (f := fun a area => unpurged a (AshmemArea.unpinnedList area)) harea
  refine ⟨R, ⟨?_, h.nodup a area harea, h.named a area harea⟩, hsum, hset, hfree⟩
  rw [← hsum]
  exact h.holds

/-- One area and the accounts are changed together, with the ranges of all others as a frame. -/
theorem update {area' : AshmemArea} {history : List Event} (h : s.LruOk k)
    (harea : s.areas.get a = some area)
    (hgood : ∀ R, s.unpurgedRanges = R + unpurged a area.unpinnedList →
      s.lru.Good k a R area.unpinnedList →
      lru.Good k a R area'.unpinnedList ∧ s.lru.nextRange ≤ lru.nextRange)
    (hareas : ({ areas := s.areas.set a area', lru, history } : State).Areas (AshmemArea.Ok Fits)) :
    ({ areas := s.areas.set a area', lru, history } : State).LruOk k := by
  obtain ⟨R, hgood₀, hsum, hset, -⟩ := h.split harea
  obtain ⟨hgood, hle⟩ := hgood R hsum hgood₀
  refine ⟨?_, Heap.forall_get_set hgood.nodup h.nodup, Heap.forall_get_set hgood.named ?_, hareas⟩
  · show lru.Holds k (Heap.sum _ _)
    rw [hset]
    exact hgood.holds
  · exact fun b area₂ hb r hr => lt_of_lt_of_le (h.named b area₂ hb r hr) hle

end State.LruOk

/-! ## The shrinker -/

theorem map_id_markPurged {id : RangeId} :
    (State.markPurged id ranges).map AshmemRange.id = ranges.map AshmemRange.id := by
  unfold State.markPurged
  rw [map_map]
  refine map_congr_left fun x _ => ?_
  simp only [Function.comp]
  split <;> rfl

/-- Marking an unpurged range takes just this one out. -/
theorem unpurged_markPurged (hnodup : (ranges.map AshmemRange.id).Nodup) (hr : r ∈ ranges)
    (hlru : r.onLru = true) :
    unpurged a ranges = (a, r) ::ₘ unpurged a (State.markPurged r.id ranges) := by
  induction ranges with
  | nil => cases hr
  | cons x ranges ih =>
    obtain ⟨hx, hnodup⟩ := nodup_cons.mp hnodup
    show unpurged a (x :: ranges) = (a, r) ::ₘ unpurged a
      ((if x.id = r.id then { x with purged := true } else x) :: State.markPurged r.id ranges)
    rw [unpurged_cons x]
    by_cases hxr : x.id = r.id
    · have hmem : r ∉ ranges := fun hmem => hx (hxr ▸ mem_map_of_mem hmem)
      obtain rfl : r = x := (mem_cons.mp hr).resolve_right hmem
      have hrest : State.markPurged r.id ranges = ranges := by
        refine (map_congr_left fun y hy => if_neg fun hid => hx ?_).trans (map_id _)
        exact hid ▸ mem_map_of_mem hy
      have hoff : unpurged a [{ r with purged := true }] =
        0 := by simp [unpurged, AshmemRange.onLru]
      rw [hrest, if_pos rfl, unpurged_cons _ ranges, hoff, unpurged_single_of_onLru hlru, zero_add,
        Multiset.singleton_add]
    · have hmem : r ∈ ranges := (mem_cons.mp hr).resolve_left fun h => hxr (h ▸ rfl)
      rw [if_neg hxr, unpurged_cons x (State.markPurged r.id ranges), ih hnodup hmem,
        Multiset.add_cons]

namespace State.LruOk

/-- What is on the list can be found in its area. -/
theorem findRange (h : s.LruOk k) {id : RangeId} (hmem : (a, id) ∈ s.lru.ashmemLruList) :
    ∃ area r, s.findRange a id = some (area, r) ∧ s.areas.get a = some area ∧
      r ∈ area.unpinnedList ∧ r.onLru = true ∧ r.id = id := by
  rw [← Multiset.mem_coe, h.holds.list, Multiset.mem_map] at hmem
  obtain ⟨⟨b, r⟩, hr, hkey⟩ := hmem
  cases hkey
  obtain ⟨area, harea, hr, hlru⟩ := State.mem_unpurgedRanges.mp hr
  refine ⟨area, r, ?_, harea, hr, hlru, rfl⟩
  have hfind : area.unpinnedList.find? (fun range => range.id == r.id) = some r := by
    cases hf : area.unpinnedList.find? (fun range => range.id == r.id) with
    | none => exact absurd (find?_eq_none.mp hf r hr) (by simp)
    | some x =>
      have hid : x.id = r.id := by simpa using find?_some hf
      exact congrArg some (inj_on_of_nodup_map (h.nodup _ area harea)
        (mem_of_find?_eq_some hf) hr hid)
  unfold State.findRange
  simp only [harea, Option.bind_some, hfind, Option.map_some]

section

variable (h : s.LruOk k) (harea : s.areas.get a = some area) (hr : r ∈ area.unpinnedList)
  (hlru : r.onLru = true)

include h harea hr hlru

theorem purge : (s.purge a area r).LruOk k := by
  refine h.update harea (fun R _ hgood => ?_) (h.areas.set ((h.areas a area harea).markPurged _))
  have hholds := hgood.holds
  rw [unpurged_markPurged hgood.nodup hr hlru, Multiset.add_cons] at hholds
  refine ⟨⟨hholds.del, map_id_markPurged.symm ▸ hgood.nodup, fun x hx => ?_⟩, le_rfl⟩
  have hx' : x.id ∈ area.unpinnedList.map AshmemRange.id := map_id_markPurged ▸ mem_map_of_mem hx
  obtain ⟨y, hy, hid⟩ := mem_map.mp hx'
  exact hid ▸ hgood.named y hy

theorem unpurgedRanges_purge : s.unpurgedRanges = (a, r) ::ₘ (s.purge a area r).unpurgedRanges := by
  obtain ⟨R, hgood, hsum, hset, -⟩ := h.split harea
  rw [hsum, unpurged_markPurged hgood.nodup hr hlru, Multiset.add_cons]
  exact congrArg ((a, r) ::ₘ ·)
    (hset { area with unpinnedList := State.markPurged r.id area.unpinnedList }).symm

end

/-- The loop of the shrinker takes the ranges off the list one by one, so that the
rest of the list it goes through is the list at any time. It keeps what purging one
range keeps; and a count of all pages on the list leaves no page on it. -/
theorem shrinkLoop_spec {P : State → Prop} (h : s.LruOk k) (hs : P s)
    (hpurge : ∀ s a area r, s.LruOk k → P s → s.areas.get a = some area → r ∈ area.unpinnedList →
      r.onLru = true → P (s.purge a area r)) (nrToScan : Int) :
    (s.shrinkLoop s.lru.ashmemLruList nrToScan).LruOk k ∧
      P (s.shrinkLoop s.lru.ashmemLruList nrToScan) ∧
      (nrToScan = lruPages s.unpurgedRanges → nrToScan < 2 ^ 31 →
        lruPages (s.shrinkLoop s.lru.ashmemLruList nrToScan).unpurgedRanges = 0) := by
  generalize hl : s.lru.ashmemLruList = l
  induction l generalizing s nrToScan with
  | nil =>
    refine ⟨h, hs, fun _ _ => ?_⟩
    have hlist := h.holds.list
    rw [hl] at hlist
    show lruPages s.unpurgedRanges = 0
    rw [Multiset.map_eq_zero.mp hlist.symm]
    rfl
  | cons x l ih =>
    obtain ⟨a, id⟩ := x
    obtain ⟨area, r, hfind, harea, hr, hlru, rfl⟩ := h.findRange (hl ▸ mem_cons_self)
    have hcount := congrArg lruPages (h.unpurgedRanges_purge harea hr hlru)
    rw [lruPages_cons] at hcount
    have hnr : nrToScan = lruPages s.unpurgedRanges → nrToScan < 2 ^ 31 →
        long (nrToScan - r.size) = lruPages (s.purge a area r).unpurgedRanges := by
      intro heq hlt
      rw [long_of_mem] <;> omega
    have hok := h.purge harea hr hlru
    have hP := hpurge s a area r h hs harea hr hlru
    unfold State.shrinkLoop
    rw [hfind]
    dsimp only
    split
    · exact ⟨hok, hP, fun heq hlt => by have := hnr heq hlt; omega⟩
    · have hrest : (s.purge a area r).lru.ashmemLruList = l := by
        show s.lru.ashmemLruList.erase (a, r.id) = l
        rw [hl, erase_cons_head]
      obtain ⟨h₁, h₂, h₃⟩ := ih hok hP (long (nrToScan - r.size)) hrest
      refine ⟨h₁, h₂, fun heq hlt => h₃ (hnr heq hlt) ?_⟩
      omega

end State.LruOk

/-! ## Runs -/

/-- There is room in `lru_count` for all the pages of one more area. -/
def LruRoom (s : State) : Op → Prop
  | .pinUnpin .. => lruPages s.unpurgedRanges + 2 ^ 20 ≤ 2 ^ 32
  | _ => True

instance decidableLruRoom (s : State) : DecidablePred (LruRoom s)
  | .pinUnpin .. => inferInstanceAs (Decidable (_ ≤ _))
  | .openFile _ | .release _ | .setSize .. | .mmap .. | .purgeAllCaches _ | .shrink .. =>
    instDecidableTrue

theorem lruOk_kept {ok : State → Op → Prop} (hroom : k → ∀ s op, ok s op → LruRoom s op) :
    Kept ok (State.LruOk k) where
  openFile s h := by
    refine ⟨?_, Heap.forall_get_alloc nodup_nil h.nodup, Heap.forall_get_alloc nofun h.named,
      (areasOk_kept ok).openFile s h.areas⟩
    show s.lru.Holds k (Heap.sum _ _)
    rw [Heap.sum_alloc]
    exact (add_zero s.unpurgedRanges).symm ▸ h.holds
  release s a area h harea := by
    obtain ⟨R, hgood, -, -, hfree⟩ := h.split harea
    obtain ⟨hholds, hnext⟩ := release_holds hgood.holds
    refine ⟨?_, fun b area' hb => ?_, fun b area' hb => ?_,
      (areasOk_kept ok).release s a area h.areas harea⟩
    · show Lru.Holds k _ (Heap.sum _ _)
      rw [State.ashmemRelease, hfree]
      exact hholds
    · exact h.nodup b area' (Heap.get_free_eq_some.mp hb).2
    · rw [State.ashmemRelease, hnext]
      exact h.named b area' (Heap.get_free_eq_some.mp hb).2
  setSize s a area size h harea hfile := h.update harea (fun _ _ hgood => ⟨hgood, le_rfl⟩)
    ((areasOk_kept ok).setSize s a area size h.areas harea hfile)
  mmap s a area h harea := h.update harea (fun _ _ hgood => ⟨hgood, le_rfl⟩)
    ((areasOk_kept ok).mmap s a area h.areas harea)
  pin s a area pin alloc lo hi h harea hfile hpages hok := by
    have hl := (h.areas a area harea).listed fun _ _ _ h => h
    refine h.update harea (fun R hsum hgood => ?_)
      ((areasOk_kept ok).pin s a area pin alloc lo hi h.areas harea hfile hpages hok)
    exact (pinLoop_good (pageCount_lt _) (AshmemPin.fits_of_pages hpages) hl hgood
      fun hk => hsum ▸ hroom hk s _ hok).imp_right (·.le)
  unpin s a area pin alloc lo hi h harea hfile hpages hok := by
    have hl := (h.areas a area harea).listed fun _ _ _ h => h
    have hareas := (areasOk_kept ok).unpin s a area pin alloc lo hi h.areas harea hfile hpages hok
    rw [State.unpinPages_eq] at hareas ⊢
    refine h.update harea (fun R hsum hgood => ?_) hareas
    exact (unpinLoop_good (pageCount_lt _) (AshmemPin.fits_of_pages hpages) hl hgood
      fun hk => hsum ▸ hroom hk s _ hok).imp_right (·.le)
  shrink s nrToScan h :=
    (h.shrinkLoop_spec (P := fun _ => True) trivial (fun _ _ _ _ _ _ _ _ _ => trivial) nrToScan).1

theorem State.LruOk.init : State.init.LruOk k where
  holds := ⟨rfl, nodup_nil, (fun _ hx => nomatch hx), rfl, fun _ => ⟨rfl, by decide⟩⟩
  nodup a area h := by cases h
  named a area h := by cases h
  areas := .init

/-- As long as there is room in `lru_count`, the list has just the ranges that have
not been purged, each once, and the count is the sum of their sizes and never went
below zero. -/
theorem lru_counts_unpurged (hs : Reached State.step LruRoom State.init s) :
    s.lru.ashmemLruList.Nodup ∧
    (s.lru.ashmemLruList : Multiset (AreaId × RangeId)) = s.unpurgedRanges.map lruKey ∧
    (∀ a r, (a, r) ∈ s.unpurgedRanges ↔
      ∃ area, s.areas.get a = some area ∧ r ∈ area.unpinnedList ∧ r.purged = false) ∧
    s.lru.lruCount = lruPages s.unpurgedRanges ∧ s.lru.belowZero = false := by
  have hok : s.LruOk True := (lruOk_kept fun _ _ _ h => h).reached .init hs
  obtain ⟨hzero, hlt⟩ := hok.holds.exact trivial
  refine ⟨hok.holds.nodup, hok.holds.list, fun a r => ?_, ?_, hzero⟩
  · simp only [State.mem_unpurgedRanges, AshmemRange.onLru, Bool.not_eq_true']
  · rw [hok.holds.count, Nat.mod_eq_of_lt hlt]

theorem lru_counts_unpurged_severalRanges : ∃ s, Reached State.step LruRoom State.init s ∧
    (s.areas.get 0 = some severalRanges ∧ s.lru.ashmemLruList = [(0, 2), (0, 3)]) ∧
    (s.lru.ashmemLruList : Multiset (AreaId × RangeId)) = s.unpurgedRanges.map lruKey ∧
    s.lru.lruCount = lruPages s.unpurgedRanges ∧ s.lru.belowZero = false :=
  Reached.exists_of_checked_and severalRequests (by decide +kernel) fun _ hs _ =>
    ⟨(lru_counts_unpurged hs).2.1, (lru_counts_unpurged hs).2.2.2⟩

/-- One more area, made and mapped. -/
theorem reached_mapped (hs : Reached State.step (fun _ _ => True) State.init s)
    (size : UInt32) (hsize : size.toNat ≠ 0) :
    ∃ s', Reached State.step (fun _ _ => True) State.init s' ∧ s'.areas.next = s.areas.next + 1 ∧
      s'.areas.get s.areas.next = some { file := true, size := size.toNat } ∧
      ∀ a ≠ s.areas.next, s'.areas.get a = s.areas.get a := by
  have hstep₁ : s.step (.openFile true) = some { s with areas := s.areas.alloc {} } := rfl
  have h₁ : (s.areas.alloc {}).get s.areas.next = some {} := Heap.get_alloc_next
  generalize hareas : s.areas.alloc {} = areas at hstep₁ h₁
  have hstep₂ : State.step { s with areas := areas } (.setSize s.areas.next size) =
      some { s with areas := areas.set s.areas.next { size := size.toNat } } := by
    simp [State.step, State.call, h₁, State.setSize]
  have h₂ := Heap.get_set_self (x := { size := size.toNat }) h₁
  generalize hareas' : areas.set s.areas.next { size := size.toNat } = areas' at hstep₂ h₂
  have hstep₃ : State.step { s with areas := areas' } (.mmap s.areas.next true 0) =
      some { s with areas := areas'.set s.areas.next { file := true, size := size.toNat } } := by
    simp [State.step, State.call, h₂, State.ashmemMmap, hsize]
  have hs₁ := hs.step trivial hstep₁
  have hs₂ := hs₁.step trivial hstep₂
  refine ⟨_, hs₂.step trivial hstep₃, ?_, Heap.get_set_self h₂, fun a ha => ?_⟩
  · rw [← hareas', ← hareas]
    rfl
  · rw [← hareas', ← hareas]
    simp only [Heap.get_set_of_ne ha, Heap.get_alloc, if_neg ha]

/-- One more area as large as can be, all unpinned. -/
theorem reached_unpinAll (hs : Reached State.step (fun _ _ => True) State.init s) :
    ∃ s', Reached State.step (fun _ _ => True) State.init s' ∧
      lruPages s'.unpurgedRanges = lruPages s.unpurgedRanges + 1048575 := by
  obtain ⟨s₁, hs₁, hnext, harea, hothers⟩ := reached_mapped hs 0xFFFFF000 (by decide)
  have hsame : s₁.unpurgedRanges = s.unpurgedRanges := by
    unfold State.unpurgedRanges Heap.sum
    rw [hnext, Finset.sum_range_succ, harea]
    refine (add_zero _).trans (Finset.sum_congr rfl fun a ha => ?_)
    rw [hothers a (Nat.ne_of_lt (Finset.mem_range.mp ha))]
  have hpages : AshmemPin.pages ⟨0, 0⟩ 0xFFFFF000 = some (0, 1048574) := by decide
  have hcall := State.call_pinUnpin harea rfl hpages .unpin true
  refine ⟨_, hs₁.step trivial (congrArg (Option.map Prod.fst) hcall), ?_⟩
  obtain ⟨R, hsum, hset, -⟩ :=
    Heap.sum_split (f := fun a area => unpurged a (AshmemArea.unpinnedList area)) harea
  have hzero : s₁.unpurgedRanges = R := hsum.trans (add_zero R)
  rw [← hsame, hzero]
  refine (congrArg lruPages (hset _)).trans ?_
  rw [lruPages_add]
  rfl

/-- With more than 4096 such areas the count has wrapped. -/
theorem lruCount_wraps : ∃ s, Reached State.step (fun _ _ => True) State.init s ∧
    s.lru.lruCount ≠ lruPages s.unpurgedRanges := by
  have hmany : ∀ m, ∃ s, Reached State.step (fun _ _ => True) State.init s ∧
      lruPages s.unpurgedRanges = m * 1048575 := by
    intro m
    induction m with
    | zero => exact ⟨_, .init, rfl⟩
    | succ m ih =>
      obtain ⟨s, hs, hpages⟩ := ih
      obtain ⟨s', hs', hpages'⟩ := reached_unpinAll hs
      exact ⟨s', hs', by rw [hpages', hpages, Nat.succ_mul]⟩
  obtain ⟨s, hs, hpages⟩ := hmany 4097
  have hok : s.LruOk False := (lruOk_kept fun h => h.elim).reached .init hs
  have hcount := hok.holds.count
  exact ⟨s, hs, by omega⟩

end AndroidKernel.Ashmem
