import AndroidKernel.Ashmem.Lru
import AndroidKernel.Ashmem.Purge

/-!
# Merging ranges

`ashmem_unpin` takes the ranges that overlap a request off the list one by one, and
then allocates one range for all of them. Two things follow. Where the allocation
fails, these ranges stay off the list. And as the new range is purged if one of the
others was, pages that were not truncated can end up in a range that the shrinker
leaves alone. `Watched` records for one page whether it has been truncated since it
was last unpinned.
-/

namespace AndroidKernel.Ashmem

open List Set

variable {s s' s₀ : State} {a b : AreaId} {area : AshmemArea} {pin : AshmemPin}
  {alloc purged copied : Bool} {lo hi n p fuel : Nat} {r : AshmemRange} {ranges : List AshmemRange}
  {lru : Lru} {f : Bool → Bool} {ok : State → Op → Prop} {op : Op} {w : Watched}

/-! ## Without memory -/

/-- A range that holds the whole request is not merged with it. -/
theorem not_subsumes_of_merge {rest : List AshmemRange}
    (h : unpinScan lo hi ranges = .merge r rest) : ¬ (r.pgstart ≤ lo ∧ hi ≤ r.pgend) := by
  induction ranges generalizing rest with
  | nil => cases h
  | cons x ranges ih =>
    unfold unpinScan at h
    split at h
    · cases h
    split at h
    · cases h
    split at h
    · cases h
      rwa [← AshmemRange.subsumes_iff]
    · cases hscan : unpinScan lo hi ranges with
      | covered | insert above below => rw [hscan] at h; cases h
      | merge y rest' =>
        rw [hscan] at h
        cases h
        exact ih hscan

/-- If there is no memory, the ranges that are left are those that share no page with
the request. -/
theorem unpinLoop_noMemory (hfuel : ranges.length < fuel) (hreq : Fits n lo hi)
    (hl : Listed n ranges) (hret : (unpinLoop a alloc fuel lo hi purged ranges lru).2.2 = eNoMem) :
    p ∈ pagesOf f (unpinLoop a alloc fuel lo hi purged ranges lru).1 ↔
      ∃ x ∈ ranges, f x.purged = true ∧ (x.pgstart ≤ p ∧ p ≤ x.pgend) ∧
        ∀ q, x.pgstart ≤ q → q ≤ x.pgend → ¬ (lo ≤ q ∧ q ≤ hi) := by
  have hzero : (0 : Int) ≠ eNoMem := by decide
  induction fuel generalizing lo hi purged ranges lru with
  | zero => omega
  | succ fuel ih =>
    have hscan := unpinScan_spec hl lo hi
    unfold unpinLoop at hret ⊢
    cases hfound : unpinScan lo hi ranges with
    | covered =>
      rw [hfound] at hret
      exact absurd hret hzero
    | insert above below =>
      rw [hfound] at hret hscan
      obtain ⟨rfl, habove, hbelow⟩ := hscan
      cases alloc with
      | true => exact absurd hret hzero
      | false =>
        refine mem_pagesOf.trans (exists_congr fun x => and_congr_right fun hx => ?_)
        refine and_congr_right fun _ => (and_iff_left fun q hq hq' => ?_).symm
        rcases mem_append.mp hx with hx | hx
        · have := habove x hx
          omega
        · have := hbelow x hx
          omega
    | merge r rest =>
      have hnot := not_subsumes_of_merge hfound
      rw [hfound] at hret hscan
      obtain ⟨above, below, rfl, rfl, hm⟩ := hscan
      obtain ⟨hl', hout⟩ := hl.remove
      have hr := hl.fits r (by simp)
      rw [AshmemRange.meets_iff] at hm
      refine (ih ?_ (mergeClosed_fits _ _ _ _ hreq hr) hl' hret).trans ?_
      · simp only [length_append, length_cons] at hfuel ⊢
        omega
      constructor
      · rintro ⟨x, hx, hf, hp, hapart⟩
        refine ⟨x, ?_, hf, hp, fun q hq hq' hin => hapart q hq hq' (by omega)⟩
        rcases mem_append.mp hx with hx | hx <;> simp [hx]
      · rintro ⟨x, hx, hf, hp, hapart⟩
        have hx' : x = r ∨ x ∈ above ++ below := by
          simp only [mem_append, mem_cons] at hx ⊢
          tauto
        rcases hx' with rfl | hx'
        · -- a range that is merged shares a page with the request
          have := hapart (max lo x.pgstart)
          omega
        · refine ⟨x, hx', hf, hp, fun q hq hq' hin => ?_⟩
          by_cases hqr : r.pgstart ≤ q ∧ q ≤ r.pgend
          · exact disjoint_left.mp hout hqr ⟨x, hx', hq, hq'⟩
          · exact hapart q hq hq' (by omega)

theorem ashmemUnpin_noMemory (hreq : Fits n lo hi) (hl : Listed n ranges)
    (hret : (ashmemUnpin a alloc lo hi ranges lru).2.2 = eNoMem) :
    (∀ f, pagesOf f (ashmemUnpin a alloc lo hi ranges lru).1 = pagesOf f ranges) ↔
      Disjoint (Set.Icc lo hi) (unpinnedPages ranges) := by
  have hpages := fun f p => unpinLoop_noMemory (f := f) (p := p) (Nat.lt_succ_self _) hreq hl hret
  rw [Set.disjoint_left]
  constructor
  · intro hsame p hp hmem
    rw [unpinnedPages_eq, ← hsame] at hmem
    obtain ⟨x, -, -, hx, hapart⟩ := (hpages _ p).mp hmem
    exact hapart p hx.1 hx.2 hp
  · intro hdisj f
    ext p
    refine (hpages f p).trans ⟨?_, fun hp => ?_⟩
    · rintro ⟨x, hx, hf, hp, -⟩
      exact mem_pagesOf.mpr ⟨x, hx, hf, hp⟩
    · obtain ⟨x, hx, hf, hp⟩ := mem_pagesOf.mp hp
      exact ⟨x, hx, hf, hp, fun q hq hq' hin => hdisj hin ⟨x, hx, hq, hq'⟩⟩

/-- A request that fails for want of memory has passed the checks. -/
theorem State.unpinPages_of_noMemory (harea : s.areas.get a = some area)
    (hcall : s.call (.pinUnpin a .unpin pin copied alloc) = some (s', eNoMem)) :
    ∃ lo hi, pin.pages area.size = some (lo, hi) ∧
      s.unpinPages a area alloc lo hi = (s', eNoMem) := by
  simp only [State.call, harea, Option.map_some, Option.some.injEq, State.ashmemPinUnpin] at hcall
  split at hcall
  · exact absurd (congrArg Prod.snd hcall) (show eInval ≠ eNoMem by decide)
  split at hcall
  · exact absurd (congrArg Prod.snd hcall) (show eFault ≠ eNoMem by decide)
  split at hcall
  · exact absurd (congrArg Prod.snd hcall) (show eInval ≠ eNoMem by decide)
  · exact ⟨_, _, ‹_›, hcall⟩

/-- Where an unpin request fails for want of memory, the pages of the area and their
flags are what they were just if no page of the request was unpinned. -/
theorem unpin_noMemory_unchanged_iff (hs : Reached State.step ok State.init s)
    (harea : s.areas.get a = some area)
    (hcall : s.call (.pinUnpin a .unpin pin copied alloc) = some (s', eNoMem)) :
    ∃ area' lo hi, s'.areas.get a = some area' ∧ pin.pages area.size = some (lo, hi) ∧
      ((∀ f, pagesOf f area'.unpinnedList = pagesOf f area.unpinnedList) ↔
        Disjoint (Set.Icc lo hi) (unpinnedPages area.unpinnedList)) := by
  obtain ⟨lo, hi, hpages, hunpin⟩ := State.unpinPages_of_noMemory harea hcall
  obtain ⟨rfl, hret⟩ := Prod.mk.inj hunpin
  exact ⟨_, lo, hi, Heap.get_set_self harea, hpages, ashmemUnpin_noMemory
    (AshmemPin.fits_of_pages hpages) ((areasOk_reached hs a area harea).listed fun _ _ _ h => h)
      hret⟩

/-- Two of the pages between the ranges. -/
theorem unpin_noMemory_unchanged_iff_severalRanges : ∃ s s' area',
    Reached State.step (fun _ _ => True) State.init s ∧ s.areas.get 0 = some severalRanges ∧
    s.call (.pinUnpin 0 .unpin ⟨16384, 8192⟩ true false) = some (s', eNoMem) ∧
    s'.areas.get 0 = some area' ∧
    ∀ f, pagesOf f area'.unpinnedList = pagesOf f severalRanges.unpinnedList := by
  obtain ⟨s, hs, harea⟩ : ∃ s, Reached State.step (fun _ _ => True) State.init s ∧
      s.areas.get 0 = some severalRanges :=
    Reached.exists_of_checked severalRequests (by decide +kernel)
  have hpages : AshmemPin.pages ⟨16384, 8192⟩ severalRanges.size = some (4, 5) := by decide
  have hcall := State.call_pinUnpin harea rfl hpages .unpin false
  obtain ⟨area', lo, hi, harea', hpages', hiff⟩ := unpin_noMemory_unchanged_iff hs harea hcall
  cases hpages.symm.trans hpages'
  refine ⟨s, _, area', hs, harea, hcall, harea', hiff.mpr (disjoint_left.mpr ?_)⟩
  rintro p ⟨hlo, hhi⟩ ⟨r, hr, hp⟩
  simp only [severalRanges, mem_cons, not_mem_nil, or_false] at hr
  rcases hr with rfl | rfl | rfl <;> simp only at hp <;> omega

/-- The first of two pages is unpinned, then both, without memory: no page is
unpinned any more. -/
theorem unpin_noMemory_loses_page : ∃ s s' area area',
    Reached State.step (fun _ _ => True) State.init s ∧
    s.call (.pinUnpin 0 .unpin ⟨0, 8192⟩ true false) = some (s', eNoMem) ∧
    s.areas.get 0 = some area ∧ s'.areas.get 0 = some area' ∧
    0 ∈ unpinnedPages area.unpinnedList ∧ 0 ∉ unpinnedPages area'.unpinnedList := by
  obtain ⟨s, hs, ⟨s', _⟩, hcall, rfl, harea, harea'⟩ :
      ∃ s, Reached State.step (fun _ _ => True) State.init s ∧
      ∃ res ∈ s.call (.pinUnpin 0 .unpin ⟨0, 8192⟩ true false), res.2 = eNoMem ∧
        s.areas.get 0 = some ⟨true, 8192, [⟨0, 0, 0, false⟩]⟩ ∧
        res.1.areas.get 0 = some ⟨true, 8192, []⟩ :=
    Reached.exists_of_checked [.openFile true, .setSize 0 8192, .mmap 0 true 0,
      .pinUnpin 0 .unpin ⟨0, 4096⟩ true true] (by decide +kernel)
  refine ⟨s, s', _, _, hs, hcall, harea, harea', ⟨_, mem_singleton_self _, by simp⟩, ?_⟩
  rw [unpinnedPages_eq]
  exact not_mem_pagesOf_nil

/-! ## Purging -/

/-- The request is for at least one page, and its pages are all purged or none of them
is. -/
def UniformUnpin (s : State) : Op → Prop
  | .pinUnpin a .unpin pin _ _ => ∀ area, s.areas.get a = some area →
      ¬ pin.NothingOnward area.size ∧ ∀ lo hi, pin.pages area.size = some (lo, hi) →
        Set.Icc lo hi ⊆ pagesOf id area.unpinnedList ∨
          Disjoint (Set.Icc lo hi) (pagesOf id area.unpinnedList)
  | _ => True

instance decidableMemPagesOf : DecidablePred (· ∈ pagesOf f ranges) :=
  fun _ => decidable_of_iff' _ mem_pagesOf

instance decidableIccSubset {S : Set Nat} [DecidablePred (· ∈ S)] :
    Decidable (Set.Icc lo hi ⊆ S) :=
  decidable_of_iff (∀ p < hi + 1, lo ≤ p → p ∈ S)
    ⟨fun h p hp => h p (Nat.lt_succ_of_le hp.2) hp.1, fun h p hlt hle => h ⟨hle, by omega⟩⟩

instance decidableUniformUnpin (s : State) : DecidablePred (UniformUnpin s)
  | .pinUnpin a .unpin pin .. =>
    decidable_of_iff (∀ area ∈ s.areas.get a, ¬ pin.NothingOnward area.size ∧
      ∀ x ∈ pin.pages area.size, Set.Icc x.1 x.2 ⊆ pagesOf id area.unpinnedList ∨
        Set.Icc x.1 x.2 ⊆ (pagesOf id area.unpinnedList)ᶜ) (by
      simp only [UniformUnpin, Option.mem_def, Prod.forall, subset_compl_iff_disjoint_right])
  | .pinUnpin _ .pin .. | .pinUnpin _ .getPinStatus .. | .openFile _ | .release _ | .setSize ..
  | .mmap .. | .purgeAllCaches _ | .shrink .. => instDecidableTrue

/-- Where every range has all its pages in `G` or none, and so has the request, only
pages in `G` are purged afterwards. -/
theorem unpinLoop_purged {G : Set Nat} (hreq : lo ≤ hi) (hl : Listed n ranges)
    (hne : ∀ x ∈ ranges, x.pgstart ≤ x.pgend)
    (hwhole : ∀ x ∈ ranges, Set.Icc x.pgstart x.pgend ⊆ G ∨
      Disjoint (Set.Icc x.pgstart x.pgend) G ∧ x.purged = false)
    (huni : Set.Icc lo hi ⊆ G ∨ Disjoint (Set.Icc lo hi) G ∧ purged = false) :
    pagesOf id (unpinLoop a alloc fuel lo hi purged ranges lru).1 ⊆ G := by
  have hsub : pagesOf id ranges ⊆ G := by
    intro p hp
    obtain ⟨x, hx, hflag, hp⟩ := mem_pagesOf.mp hp
    rcases hwhole x hx with hG | ⟨-, hnot⟩
    · exact hG hp
    · simp [hnot] at hflag
  induction fuel generalizing lo hi purged ranges lru with
  | zero => exact hsub
  | succ fuel ih =>
    have hscan := unpinScan_spec hl lo hi
    unfold unpinLoop
    revert hscan
    cases unpinScan lo hi ranges with
    | covered => exact fun _ => hsub
    | insert above below =>
      rintro ⟨rfl, -, -⟩
      cases alloc with
      | false => exact hsub
      | true =>
        intro p hp
        simp only [Lru.rangeAlloc, if_true, mem_pagesOf_append, mem_pagesOf_cons] at hp
        rcases hp with hp | ⟨hflag, hp⟩ | hp
        · exact hsub (mem_pagesOf_append.mpr (.inl hp))
        · rcases huni with hG | ⟨-, hnot⟩
          · exact hG hp
          · simp [hnot] at hflag
        · exact hsub (mem_pagesOf_append.mpr (.inr hp))
    | merge r rest =>
      rintro ⟨above, below, rfl, rfl, hm⟩
      have hmem : r ∈ above ++ r :: below := by simp
      have hr := hne r hmem
      rw [AshmemRange.meets_iff] at hm
      have hrest : ∀ x ∈ above ++ below, x ∈ above ++ r :: below := by
        intro x hx
        rcases mem_append.mp hx with hx | hx <;> simp [hx]
      -- the range shares a page with the request, so that both are in `G` or none
      have hin : max lo r.pgstart ∈ Set.Icc lo hi := by
        simp only [mem_Icc]
        omega
      have hin' : max lo r.pgstart ∈ Set.Icc r.pgstart r.pgend := by
        simp only [mem_Icc]
        omega
      have hspan : ∀ q ∈ Set.Icc (min r.pgstart lo) (max r.pgend hi),
          q ∈ Set.Icc r.pgstart r.pgend ∨ q ∈ Set.Icc lo hi := by
        intro q hq
        simp only [mem_Icc] at hq ⊢
        omega
      refine ih (by omega) hl.remove.1 (fun x hx => hne x (hrest x hx))
        (fun x hx => hwhole x (hrest x hx)) ?_ fun p hp => hsub ?_
      · rcases huni with hG | ⟨hG, hnot⟩ <;> rcases hwhole r hmem with hG' | ⟨hG', hnot'⟩
        · exact .inl fun q hq => (hspan q hq).elim (@hG' q) (@hG q)
        · exact absurd (hG hin) (disjoint_left.mp hG' hin')
        · exact absurd (hG' hin') (disjoint_left.mp hG hin)
        · refine .inr ⟨disjoint_left.mpr fun q hq => ?_, by simp [hnot, hnot']⟩
          exact (hspan q hq).elim (disjoint_left.mp hG' ·) (disjoint_left.mp hG ·)
      · simp only [mem_pagesOf_append, mem_pagesOf_cons] at hp ⊢
        tauto

/-- Then no page becomes purged. -/
theorem ashmemUnpin_purged (hreq : lo ≤ hi) (hl : Listed n ranges)
    (hne : ∀ x ∈ ranges, x.pgstart ≤ x.pgend)
    (huni : Set.Icc lo hi ⊆ pagesOf id ranges ∨ Disjoint (Set.Icc lo hi) (pagesOf id ranges)) :
    pagesOf id (ashmemUnpin a alloc lo hi ranges lru).1 ⊆ pagesOf id ranges := by
  refine unpinLoop_purged hreq hl hne (fun x hx => ?_) (huni.imp id fun h => ⟨h, rfl⟩)
  cases hx' : x.purged with
  | true => exact .inl fun p hp => mem_pagesOf.mpr ⟨x, hx, hx', hp⟩
  | false =>
    refine .inr ⟨disjoint_left.mpr fun p hp hmem => ?_, rfl⟩
    obtain ⟨above, below, rfl⟩ := append_of_mem hx
    obtain ⟨y, hy, hflag, hpy⟩ := mem_pagesOf.mp hmem
    have hyx : y = x ∨ y ∈ above ++ below := by
      simp only [mem_append, mem_cons] at hy ⊢
      tauto
    rcases hyx with rfl | hy
    · simp [hx'] at hflag
    · exact disjoint_left.mp hl.remove.2 hp ⟨y, hy, hpy⟩

/-- The purged pages of an area. -/
def State.purgedPages (s : State) (a : AreaId) : Set Nat :=
  { p | ∃ area, s.areas.get a = some area ∧ p ∈ pagesOf id area.unpinnedList }

/-- What purging needs to be known at any time. -/
def State.Base (s : State) : Prop := s.LruOk False ∧ s.Areas (AshmemArea.Ok Proper)

theorem base_kept : Kept UniformUnpin State.Base :=
  (lruOk_kept fun h => h.elim).and <|
    areas_kept (fun _ _ _ h => h.fits) (fun _ => mergeClosed_proper)
      (fun _ _ _ _ _ _ hr' hr => hr'.proper hr)
      fun _ _ area _ _ _ _ harea hpages hok => AshmemPin.proper_of_pages hpages (hok area harea).1

/-- `s` comes after `s₀`, and a page of `a` that is purged in it was so before or has been
truncated in between. -/
structure PurgedSince (a : AreaId) (p : Nat) (s₀ s : State) : Prop where
  base : s.Base
  purged : ∃ new, s.history = s₀.history ++ new ∧
    (p ∈ s.purgedPages a → p ∈ s₀.purgedPages a ∨ ∃ e ∈ new, e.Truncates a p)

/-- The purged pages stay the same or get fewer, but for one that is truncated. -/
theorem PurgedSince.trans (h : PurgedSince a p s₀ s) (hbase : s'.Base)
    {new : List Event} (hnew : s'.history = s.history ++ new)
    (hp : p ∈ s'.purgedPages a → p ∈ s.purgedPages a ∨ ∃ e ∈ new, e.Truncates a p) :
    PurgedSince a p s₀ s' := by
  obtain ⟨old, hold, hpurged⟩ := h.purged
  refine ⟨hbase, old ++ new, by rw [hnew, hold, append_assoc], fun hmem => ?_⟩
  rcases hp hmem with hmem | ⟨e, he, htrunc⟩
  · refine (hpurged hmem).imp id ?_
    rintro ⟨e, he, htrunc⟩
    exact ⟨e, mem_append_left _ he, htrunc⟩
  · exact .inr ⟨e, mem_append_right _ he, htrunc⟩

/-- A change to one area after which no other page is purged in it. -/
theorem PurgedSince.set {area' : AshmemArea} (h : PurgedSince a p s₀ s) (hbase : s'.Base)
    {new : List Event} (hnew : s'.history = s.history ++ new) (harea : s.areas.get b = some area)
    (hareas : s'.areas = s.areas.set b area')
    (hsub : pagesOf id area'.unpinnedList ⊆ pagesOf id area.unpinnedList) :
    PurgedSince a p s₀ s' := by
  refine h.trans hbase hnew (.inl ∘ ?_)
  rintro ⟨area₂, h, hp⟩
  rw [hareas] at h
  rcases Heap.get_set_eq_some.mp h with ⟨rfl, rfl, -⟩ | ⟨-, h⟩
  · exact ⟨area, harea, hsub hp⟩
  · exact ⟨area₂, h, hp⟩

theorem purgedSince_purge (h : PurgedSince a p s₀ s) (harea : s.areas.get b = some area)
    (hr : r ∈ area.unpinnedList) (hlru : r.onLru = true) :
    PurgedSince a p s₀ (s.purge b area r) := by
  obtain ⟨hok, hareas⟩ := h.base
  refine h.trans ⟨hok.purge harea hr hlru, hareas.set ((hareas b area harea).markPurged _)⟩ rfl ?_
  rintro ⟨area', harea', hp⟩
  rcases Heap.get_set_eq_some.mp harea' with ⟨rfl, rfl, -⟩ | ⟨-, harea'⟩
  · obtain ⟨x, hx, hflag, hp⟩ := mem_pagesOf.mp hp
    obtain ⟨y, hy, rfl⟩ := mem_map.mp hx
    by_cases hid : y.id = r.id
    · -- names are used once, so that this is the range that was truncated
      obtain rfl := inj_on_of_nodup_map (hok.nodup a area harea) hy hr hid
      rw [if_pos rfl] at hp
      refine .inr ⟨_, mem_singleton_self _, ?_⟩
      have hspan := (hareas a area harea).spans y hy
      have hn := pageCount_lt area.size
      unfold Proper at hspan
      simp only [Event.Truncates, pageSize, ulong, true_and] at hp ⊢
      omega
    · rw [if_neg hid] at hflag hp
      exact .inl ⟨area, harea, mem_pagesOf.mpr ⟨y, hy, hflag, hp⟩⟩
  · exact .inl ⟨area', harea', hp⟩

theorem purgedSince_kept (s₀ : State) : Kept UniformUnpin (PurgedSince a p s₀) where
  openFile s h := by
    refine h.trans (base_kept.openFile s h.base) (append_nil _).symm (.inl ∘ ?_)
    rintro ⟨area, harea, hp⟩
    rcases Heap.get_alloc_eq_some.mp harea with ⟨-, rfl⟩ | ⟨-, harea⟩
    · exact absurd hp not_mem_pagesOf_nil
    · exact ⟨area, harea, hp⟩
  release s b area h harea := by
    refine h.trans (base_kept.release s b area h.base harea) (append_nil _).symm (.inl ∘ ?_)
    rintro ⟨area', harea', hp⟩
    exact ⟨area', (Heap.get_free_eq_some.mp harea').2, hp⟩
  setSize s b area size h harea hfile :=
    h.set (base_kept.setSize s b area size h.base harea hfile) (append_nil _).symm harea rfl
      (by exact fun _ h => h)
  mmap s b area h harea :=
    h.set (base_kept.mmap s b area h.base harea) (append_nil _).symm harea rfl
      (by exact fun _ h => h)
  pin s b area pin alloc lo hi h harea hfile hpages hok := by
    have hpin := ashmemPin_spec hpages
      ((h.base.2 b area harea).listed fun _ _ _ h => h.fits) b alloc s.lru
    refine h.set (base_kept.pin s b area pin alloc lo hi h.base harea hfile hpages hok) rfl harea
      rfl fun q hq => ?_
    -- a piece of a range has the flag of the range
    obtain ⟨r', hr', hflag, hq⟩ := mem_pagesOf.mp hq
    obtain ⟨r, hr, hpiece⟩ := hpin.pieces r' hr'
    have := hpiece.start_le
    have := hpiece.end_le
    exact mem_pagesOf.mpr ⟨r, hr, hpiece.purged_eq ▸ hflag, by omega⟩
  unpin s b area pin alloc lo hi h harea hfile hpages hok := by
    have hareas := h.base.2 b area harea
    refine h.set (base_kept.unpin s b area pin alloc lo hi h.base harea hfile hpages hok)
      (append_nil _).symm harea rfl ?_
    exact ashmemUnpin_purged (AshmemPin.proper_of_pages hpages (hok area harea).1).1
      (hareas.listed fun _ _ _ h => h.fits) (fun x hx => (hareas.spans x hx).1)
      ((hok area harea).2 lo hi hpages)
  shrink s nrToScan h :=
    (h.base.1.shrinkLoop_spec h (fun _ _ _ _ _ h harea hr hlru => purgedSince_purge h harea hr hlru)
      nrToScan).2.1

/-! ## A page along a run -/

/-- Whether a page is unpinned. -/
def State.isUnpinned (s : State) (a : AreaId) (p : Nat) : Bool :=
  (s.areas.get a).any fun area => area.unpinnedList.any fun range => range.contains p

instance (a : AreaId) (p : Nat) : DecidablePred (Event.Truncates a p)
  | .truncated .. => inferInstanceAs (Decidable (_ ∧ _))
  | .pinned .. => instDecidableFalse

/-- The driver, and whether a page has been truncated since it was last unpinned. -/
structure Watched where
  state : State
  truncated : Bool

/-- The next state. The events of the step are those behind the history so far. -/
def Watched.advance (a : AreaId) (p : Nat) (w : Watched) (s : State) : Watched where
  state := s
  truncated := s.isUnpinned a p && (w.truncated ||
    (s.history.drop w.state.history.length).any fun e => e.Truncates a p)

def Watched.step (a : AreaId) (p : Nat) (w : Watched) (op : Op) : Option Watched :=
  (w.state.step op).map (w.advance a p)

/-- What is watched does not change the run. -/
theorem Watched.step_of_step (h : w.state.step op = some s) :
    ∃ w', w.step a p op = some w' ∧ w'.state = s :=
  ⟨_, congrArg (Option.map (w.advance a p)) h, rfl⟩

def Watched.init : Watched := ⟨State.init, false⟩

theorem State.isUnpinned_iff : s.isUnpinned a p = true ↔
    ∃ area, s.areas.get a = some area ∧ p ∈ unpinnedPages area.unpinnedList := by
  simp only [State.isUnpinned, Option.any_eq_true, any_eq_true, AshmemRange.contains,
    Bool.and_eq_true, decide_eq_true_eq]
  rfl

/-- A page that is purged has been truncated since it was last unpinned. -/
structure Watched.Ok (a : AreaId) (p : Nat) (w : Watched) : Prop where
  base : w.state.Base
  truncated : p ∈ w.state.purgedPages a → w.truncated = true

theorem Watched.Ok.step {w' : Watched} (h : w.Ok a p) (hok : UniformUnpin w.state op)
    (hstep : w.step a p op = some w') : w'.Ok a p := by
  obtain ⟨s, hs, rfl⟩ := Option.map_eq_some_iff.mp hstep
  obtain ⟨hbase, new, hnew, hpurged⟩ := (purgedSince_kept w.state).step
    ⟨h.base, [], (append_nil _).symm, .inl⟩ hok hs
  refine ⟨hbase, fun hp => ?_⟩
  obtain ⟨area, harea, hmem⟩ := hp
  have hun : s.isUnpinned a p = true := State.isUnpinned_iff.mpr ⟨area, harea, pagesOf_subset hmem⟩
  simp only [Watched.advance, hun, hnew, drop_left, Bool.true_and, Bool.or_eq_true, any_eq_true,
    decide_eq_true_eq]
  exact (hpurged ⟨area, harea, hmem⟩).imp h.truncated id

/-- After all pages on the list have been purged, every unpinned page is. -/
theorem State.Base.purgeAll (h : s.Base) (hzero : lruPages s.unpurgedRanges = 0)
    (hp : s.isUnpinned a p = true) : p ∈ s.purgedPages a := by
  obtain ⟨area, harea, r, hr, hp⟩ := State.isUnpinned_iff.mp hp
  refine ⟨area, harea, mem_pagesOf.mpr ⟨r, hr, ?_, hp⟩⟩
  by_contra hpurged
  have hmem : (a, r) ∈ s.unpurgedRanges :=
    State.mem_unpurgedRanges.mpr ⟨area, harea, hr, by simpa [AshmemRange.onLru] using hpurged⟩
  obtain ⟨M, hM⟩ := Multiset.exists_cons_of_mem hmem
  rw [hM, lruPages_cons] at hzero
  have hspan := (h.2 a area harea).spans r hr
  have := pageCount_lt area.size
  unfold Proper at hspan
  unfold AshmemRange.size ulong at hzero
  omega

theorem State.purgeAllCaches_fst {ret : Int} (h : s.ashmemShrink 0 true = (s, ret)) :
    (s.purgeAllCaches true).1 = (s.ashmemShrink ret true).1 := by
  unfold State.purgeAllCaches
  rw [if_pos rfl, h]

/-- The two calls of the shrinker leave no page on the list. -/
theorem State.Base.purgeAllCaches (h : s.Base) (hroom : lruPages s.unpurgedRanges < 2 ^ 31) :
    lruPages (s.purgeAllCaches true).1.unpurgedRanges = 0 := by
  have hcount : long s.lru.lruCount = lruPages s.unpurgedRanges := by
    rw [h.1.holds.count, long_of_mem] <;> omega
  have hspec := (h.1.shrinkLoop_spec (P := fun _ => True) trivial
    (fun _ _ _ _ _ _ _ _ _ => trivial) _).2.2 hcount (by omega)
  have hquery : s.ashmemShrink 0 true = (s, long s.lru.lruCount) := by simp [State.ashmemShrink]
  rw [State.purgeAllCaches_fst hquery, State.ashmemShrink, if_neg (by simp)]
  split
  next hnone =>
    rw [hcount] at hnone
    exact Int.ofNat_eq_zero.mp hnone
  · exact hspec

/-- In a run whose unpin requests are uniform, `ASHMEM_PURGE_ALL_CACHES` leaves only pages
unpinned that have been truncated since they were unpinned, if `lru_count` is not negative as
an `int`. -/
theorem purgeAllCaches_truncates
    (hs : Reached (Watched.step a p) (fun w => UniformUnpin w.state) .init w)
    (hroom : lruPages w.state.unpurgedRanges < 2 ^ 31) :
    ∃ w', w.step a p (.purgeAllCaches true) = some w' ∧
      (w'.state.isUnpinned a p = true → w'.truncated = true) := by
  have hinit : Watched.init.Ok a p := ⟨⟨.init, .init⟩, fun ⟨_, h, _⟩ => nomatch h⟩
  have hok := hs.invariant hinit fun _ _ _ h hok hstep => h.step hok hstep
  have hcall : w.state.step (.purgeAllCaches true) = some (w.state.purgeAllCaches true).1 := rfl
  obtain ⟨w', hstep, hstate⟩ := Watched.step_of_step hcall
  have huni : UniformUnpin w.state (.purgeAllCaches true) := trivial
  have hok' := hok.step huni hstep
  have hzero := hok.base.purgeAllCaches hroom
  rw [← hstate] at hzero
  exact ⟨w', hstep, fun hp => hok'.truncated (hok'.base.purgeAll hzero hp)⟩

theorem purgeAllCaches_truncates_severalRanges : ∃ w w' : Watched,
    Reached (Watched.step 0 3) (fun w => UniformUnpin w.state) .init w ∧
    w.state.areas.get 0 = some severalRanges ∧ w.truncated = false ∧
    w.step 0 3 (.purgeAllCaches true) = some w' ∧ w'.state.isUnpinned 0 3 = true ∧
    w'.truncated = true := by
  obtain ⟨w, hw, ⟨harea, hnot, hroom⟩, w', hstep, hun⟩ : ∃ w,
      Reached (Watched.step 0 3) (fun w => UniformUnpin w.state) .init w ∧
      (w.state.areas.get 0 = some severalRanges ∧ w.truncated = false ∧
        lruPages w.state.unpurgedRanges < 2 ^ 31) ∧
      ∃ w' ∈ w.step 0 3 (.purgeAllCaches true), w'.state.isUnpinned 0 3 = true :=
    Reached.exists_of_checked severalRequests (by decide +kernel)
  obtain ⟨w₁, hstep₁, htruncated⟩ := purgeAllCaches_truncates hw hroom
  cases hstep₁.symm.trans hstep
  exact ⟨w, w', hw, harea, hnot, hstep, hun, htruncated hun⟩

/-- The first of two pages is unpinned and purged; when both are unpinned, the second one is
never truncated. -/
theorem purgeAllCaches_skips_page : ∃ w w', Reached (Watched.step 0 1) (fun _ _ => True) .init w ∧
    w.step 0 1 (.purgeAllCaches true) = some w' ∧ w'.state.isUnpinned 0 1 = true ∧
    w'.truncated = false := by
  obtain ⟨w, hw, w', h⟩ : ∃ w, Reached (Watched.step 0 1) (fun _ _ => True) .init w ∧
      ∃ w' ∈ w.step 0 1 (.purgeAllCaches true),
        w'.state.isUnpinned 0 1 = true ∧ w'.truncated = false :=
    Reached.exists_of_checked [.openFile true, .setSize 0 8192, .mmap 0 true 0,
      .pinUnpin 0 .unpin ⟨0, 4096⟩ true true, .purgeAllCaches true,
      .pinUnpin 0 .unpin ⟨0, 8192⟩ true true] (by decide +kernel)
  exact ⟨w, w', hw, h⟩

end AndroidKernel.Ashmem
