import AndroidKernel.PageAlloc.Lists

/-!
# What the allocator does to the free blocks

- `expand_left`: of a block that has been taken out, all but the first `2 ^ low` pages go back.
- `rmqueue_taken`: a block of exactly the requested order is gone, and no other page.
- `mergeLoop_merged`, `freeOnePage_freed`: the pages that are given back are free, and no others
  that were not.

After each of them the free blocks are canonical: no two of them are buddies.
-/

namespace AndroidKernel.PageAlloc

namespace Zone

open Blocks

variable {c : Config} {z z' : Zone} {page order low n o p x top : Nat} {t start : MigrateType}
  {r : Nat × Zone}

/-- The lists agree with the flags, and the free blocks are canonical. -/
structure Tidy (top : Nat) (z : Zone) : Prop where
  listed : Listed z
  canonical : Canonical top z.Free

theorem Tidy.takeOut (h : Tidy top z) (hp : z.Free p o) :
    Tidy top (z.takeOut p o) ∧ Region (z.takeOut p o).Free p o := by
  refine ⟨⟨h.listed.takeOut hp, ?_⟩, ?_⟩
  · rw [free_takeOut]
    exact h.canonical.erase
  · rw [free_takeOut]
    exact ⟨h.canonical.aligned hp, fun _ _ hq => h.canonical.apart hq.1 hp fun heq => hq.2 heq.1⟩

/-- In a region that is apart from the free blocks no page is marked. -/
theorem pageBuddy_of_region (h : Region z.Free p n) (hlo : p ≤ x) (hhi : x < p + 2 ^ n) :
    z.pageBuddy x = false := by
  rw [← Bool.not_eq_true]
  intro hbuddy
  have hpos := Nat.two_pow_pos (z.pageOrder x)
  exact h.not_covers ⟨hlo, hhi⟩ ⟨x, _, ⟨hbuddy, rfl⟩, le_rfl, by omega⟩

/-! ## Expanding -/

/-- The upper halves go back, from the largest on, and the pages before them stay out. -/
theorem expand_left (h : Tidy top z) (hregion : Region z.Free page (low + n)) (hn : low + n ≤ top) :
    Tidy top (expand page low t n z) ∧ Region (expand page low t n z).Free page low ∧
      ∀ x, Covers (expand page low t n z).Free x ↔
        Covers z.Free x ∨ page + 2 ^ low ≤ x ∧ x < page + 2 ^ (low + n) := by
  induction n generalizing z with
  | zero =>
    refine ⟨h, hregion, fun x => ?_⟩
    rw [add_zero]
    exact (or_iff_left (by omega)).symm
  | succ n ih =>
    have hpos := Nat.two_pow_pos (low + n)
    have hlow : 2 ^ low ≤ 2 ^ (low + n) := Nat.pow_le_pow_right Nat.two_pos (Nat.le_add_right ..)
    have hpow : 2 ^ (low + (n + 1)) = 2 ^ (low + n) + 2 ^ (low + n) := by
      rw [← add_assoc, pow_succ, Nat.mul_two]
    have hbuddy : z.pageBuddy (page + 2 ^ (low + n)) = false :=
      pageBuddy_of_region hregion (Nat.le_add_right ..) (by omega)
    have hfree : (z.putIn (page + 2 ^ (low + n)) (low + n) t).Free = _ := free_putIn hbuddy
    have htidy : Tidy top (z.putIn (page + 2 ^ (low + n)) (low + n) t) := by
      refine ⟨h.listed.putIn hbuddy, ?_⟩
      rw [hfree]
      exact hregion.canonical_upper h.canonical (show low + n ≤ top by omega)
    have hregion' : Region (z.putIn (page + 2 ^ (low + n)) (low + n) t).Free page (low + n) := by
      rw [hfree]
      exact hregion.lower
    obtain ⟨htidy', hleft, hcovers⟩ := ih htidy hregion' (by omega)
    refine ⟨htidy', hleft, fun x => (hcovers x).trans ?_⟩
    rw [hfree, covers_insert]
    constructor
    · rintro ((hx | hx) | hx)
      · exact .inr (by omega)
      · exact .inl hx
      · exact .inr (by omega)
    · rintro (hx | hx)
      · exact .inl (.inr hx)
      · by_cases hlt : x < page + 2 ^ (low + n)
        · exact .inr ⟨hx.1, hlt⟩
        · exact .inl (.inl (by omega))

/-! ## Taking a block -/

/-- `z'` is `z` without the `2 ^ order` pages from `page` on. -/
structure Taken (top : Nat) (z z' : Zone) (page order : Nat) : Prop where
  tidy : Tidy top z'
  le_top : order ≤ top
  region : Region z'.Free page order
  covers : ∀ x, Covers z.Free x ↔ page ≤ x ∧ x < page + 2 ^ order ∨ Covers z'.Free x

theorem free_of_head {l : List Nat} (h : Listed z) (hl : z.freeList o t = page :: l) :
    z.Free page o := by
  refine (h.mem o page).mp (mem_blocks.mpr ⟨t, ?_⟩)
  rw [hl]
  exact List.mem_cons_self

section

variable (h : Tidy top z)

include h

/-- A free block is taken out, and what is not needed of it goes back. -/
theorem taken_expand (hp : z.Free page o) (horder : order ≤ o) :
    Taken top z (expand page order t (o - order) (z.takeOut page o)) page order := by
  obtain ⟨htidy, hregion⟩ := h.takeOut hp
  have hsum : order + (o - order) = o := Nat.add_sub_cancel' horder
  have hpos := Nat.two_pow_pos order
  have hpow : 2 ^ order ≤ 2 ^ o := Nat.pow_le_pow_right Nat.two_pos horder
  obtain ⟨htidy', hleft, hcovers⟩ := @expand_left _ page order (o - order) top t htidy
    (by rw [hsum]; exact hregion) (by rw [hsum]; exact h.canonical.le_top hp)
  refine ⟨htidy', horder.trans (h.canonical.le_top hp), hleft, fun x => ?_⟩
  rw [hcovers, hsum, free_takeOut, h.canonical.covers_erase hp]
  constructor
  · rintro (hx | hx)
    · by_cases hlt : x < page + 2 ^ order
      · exact .inl ⟨hx.1, hlt⟩
      · exact .inr (.inr (by omega))
    · exact .inr (.inl hx)
  · rintro (hx | hx | hx)
    · exact .inl (by omega)
    · exact .inr hx
    · exact .inl (by omega)

theorem smallestLoop_taken {current : Nat} (horder : order ≤ current)
    (hr : z.smallestLoop order t n current = some r) : Taken top z r.2 r.1 order := by
  induction n generalizing current with
  | zero => cases hr
  | succ n ih =>
    rw [smallestLoop] at hr
    split at hr
    · exact ih (Nat.le_succ_of_le horder) hr
    next page l hl =>
      cases hr
      exact taken_expand h (free_of_head h.listed hl) horder

/-- The block is on a list of another type. -/
theorem steal_taken (hp : z.Free page o) (horder : order ≤ o) :
    Taken top z (steal c z order o page start t) page order := by
  unfold steal
  split
  · -- The blocks around the page have been moved to other lists, which leaves the same free blocks.
    simp only [moveFreepagesBlock_addNrFree]
    have hmoved : Moved z (moveFreepagesBlock c z page start) := h.listed.moveFreepagesBlock
    have htidy : Tidy top (moveFreepagesBlock c z page start) :=
      ⟨hmoved.listed, hmoved.free ▸ h.canonical⟩
    have htaken := taken_expand (t := start) htidy (by rw [hmoved.free]; exact hp) horder
    refine ⟨htaken.tidy, htaken.le_top, htaken.region, fun x => ?_⟩
    rw [← hmoved.free]
    exact htaken.covers x
  · exact taken_expand h hp horder

theorem fallbackTypes_taken {types : List MigrateType} (horder : order ≤ o)
    (hr : fallbackTypes c z order o start types = some r) : Taken top z r.2 r.1 order := by
  induction types with
  | nil => cases hr
  | cons t types ih =>
    rw [fallbackTypes] at hr
    split at hr
    · exact ih hr
    · split at hr
      · exact ih hr
      next page l hl =>
        cases hr
        exact steal_taken h (free_of_head h.listed hl) horder

theorem fallbackLoop_taken (hr : fallbackLoop c z order start n = some r) :
    Taken top z r.2 r.1 order := by
  induction n with
  | zero => cases hr
  | succ n ih =>
    rw [fallbackLoop, Option.or_eq_some_iff] at hr
    rcases hr with hr | ⟨-, hr⟩
    · exact fallbackTypes_taken h (Nat.le_add_right ..) hr
    · exact ih hr

/-- Whichever list the block comes from, its pages are gone and no others. -/
theorem rmqueue_taken (hr : rmqueue c z order t = some r) : Taken top z r.2 r.1 order := by
  unfold rmqueue at hr
  split at hr
  next r' hs =>
    cases hr
    exact smallestLoop_taken h le_rfl hs
  · split at hr
    · cases hr
    · split at hr
      next r' hf =>
        cases hr
        exact fallbackLoop_taken h hf
      · exact smallestLoop_taken h le_rfl hr

end

/-! ## Giving a block back -/

/-- The index of a page within the largest block and a half finds the same buddy, and the same first
page of both, as its number. -/
theorem index_spec {m : Nat} (ho : o < m) (hp : 2 ^ o ∣ page) :
    pageFindBuddy page (page % 2 ^ m) o = page ^^^ 2 ^ o ∧
      page + findCombinedIndex (page % 2 ^ m) o - page % 2 ^ m = min page (page ^^^ 2 ^ o) ∧
      findCombinedIndex (page % 2 ^ m) o = min page (page ^^^ 2 ^ o) % 2 ^ m := by
  have hpow : 2 ^ (o + 1) ∣ 2 ^ m := pow_dvd_pow 2 ho
  have hdiv := Nat.div_add_mod page (2 ^ m)
  have hidx : 2 ^ o ∣ page % 2 ^ m := (Nat.dvd_mod_iff ((Buddy.dvd_left hpow))).mpr hp
  unfold pageFindBuddy findCombinedIndex
  dsimp only
  rw [Nat.and_two_pow]
  rcases buddy_cases hidx with ⟨hdvd, heq⟩ | ⟨b, hdvd, heq, hxor⟩
  -- The page is the first of the two buddies, or the second.
  · have hpage : 2 ^ (o + 1) ∣ page := (Nat.dvd_mod_iff hpow).mp hdvd
    have hbit : (page % 2 ^ m).testBit o = false := by
      obtain ⟨k, hk⟩ := hdvd
      rw [hk, Nat.testBit_two_pow_mul]
      simp
    rw [hbit, Buddy.xor_of_dvd hpage, min_eq_left (Nat.le_add_right ..)]
    rw [Bool.toNat_false, zero_mul]
    exact ⟨by omega, by omega, rfl⟩
  · have hbit : (page % 2 ^ m).testBit o = true := by
      obtain ⟨k, rfl⟩ := hdvd
      rw [heq, add_comm, Nat.testBit_two_pow_add_eq, Nat.testBit_two_pow_mul]
      simp
    have hbpage : 2 ^ (o + 1) ∣ page - 2 ^ o := by
      have : page - 2 ^ o = 2 ^ m * (page / 2 ^ m) + b := by omega
      rw [this]
      exact Nat.dvd_add (Dvd.dvd.mul_right hpow _) hdvd
    have hmod : (page - 2 ^ o) % 2 ^ m = b := by
      have : page - 2 ^ o = 2 ^ m * (page / 2 ^ m) + b := by omega
      rw [this, Nat.mul_add_mod, Nat.mod_eq_of_lt (by omega)]
    have hpx : page ^^^ 2 ^ o = page - 2 ^ o := by
      have hsum : page = page - 2 ^ o + 2 ^ o := by omega
      have := Buddy.xor_add_of_dvd hbpage
      rwa [← hsum] at this
    rw [hbit, hpx, min_eq_right (Nat.sub_le ..)]
    rw [Bool.toNat_true]
    exact ⟨by omega, by omega, by omega⟩

/-- What the loop of `__free_one_page` leaves: a region that has no free buddy. -/
structure Merged (top : Nat) (z : Zone) (page order : Nat) (z' : Zone) (page' order' : Nat) :
    Prop where
  tidy : Tidy top z'
  region : Region z'.Free page' order'
  le_top : order' ≤ top
  alone : order' < top → ¬z'.Free (page' ^^^ 2 ^ order') order'
  covers : ∀ x, page ≤ x ∧ x < page + 2 ^ order ∨ Covers z.Free x ↔
    page' ≤ x ∧ x < page' + 2 ^ order' ∨ Covers z'.Free x

/-- The pages in the free blocks are those of the zone. -/
def InZone (c : Config) (z : Zone) : Prop :=
  ∀ x, Covers z.Free x → c.zoneStartPfn ≤ x ∧ x < c.zoneStartPfn + c.spannedPages

theorem pageIsBuddy_iff (h : InZone c z) : pageIsBuddy c z p o = true ↔ z.Free p o := by
  unfold pageIsBuddy
  rw [Bool.and_eq_true, Bool.and_eq_true, decide_eq_true_iff, decide_eq_true_iff, and_assoc]
  refine and_iff_right_of_imp fun hfree => h p ⟨p, o, hfree, le_rfl, ?_⟩
  exact Nat.lt_add_of_pos_right (Nat.two_pow_pos o)

/-- A region and its free buddy cover together what the joined region covers. -/
theorem covers_join (h : Tidy top z) (hregion : Region z.Free page order)
    (hb : z.Free (page ^^^ 2 ^ order) order) : page ≤ x ∧ x < page + 2 ^ order ∨ Covers z.Free x ↔
      min page (page ^^^ 2 ^ order) ≤ x ∧ x < min page (page ^^^ 2 ^ order) + 2 ^ (order + 1) ∨
        Covers (erase z.Free (page ^^^ 2 ^ order)) x := by
  rw [h.canonical.covers_erase hb, ← or_assoc]
  refine or_congr_left ?_
  rcases buddy_cases hregion.aligned with ⟨-, heq⟩ | ⟨b, -, rfl, heq⟩
  · omega
  · omega

theorem mergeLoop_merged (htop : top + 1 = c.maxOrder) (h : Tidy top z) (hzone : InZone c z)
    (hregion : Region z.Free page order) (hn : order + n = top) :
    Merged top z page order (mergeLoop c n z page (page % 2 ^ c.maxOrder) order).1
      (mergeLoop c n z page (page % 2 ^ c.maxOrder) order).2.1
      (mergeLoop c n z page (page % 2 ^ c.maxOrder) order).2.2 := by
  induction n generalizing z page order with
  | zero => exact ⟨h, hregion, hn.le, fun hlt => absurd hn hlt.ne,
      fun _ => Iff.rfl⟩
  | succ n ih =>
    obtain ⟨hbuddy, hfirst, hindex⟩ := index_spec (show order < c.maxOrder by omega) hregion.aligned
    have his : pageIsBuddy c z (pageFindBuddy page (page % 2 ^ c.maxOrder) order) order = true ↔
        z.Free (page ^^^ 2 ^ order) order := by
      rw [hbuddy]
      exact pageIsBuddy_iff hzone
    by_cases hfree : z.Free (page ^^^ 2 ^ order) order
    -- A free buddy is taken out, and the loop goes on with both as one region.
    · have hstep : mergeLoop c (n + 1) z page (page % 2 ^ c.maxOrder) order =
          mergeLoop c n (z.takeOut (page ^^^ 2 ^ order) order) (min page (page ^^^ 2 ^ order))
            (min page (page ^^^ 2 ^ order) % 2 ^ c.maxOrder) (order + 1) := by
        rw [mergeLoop]
        simp only [if_pos (his.mpr hfree)]
        rw [hfirst, hindex, hbuddy]
        rfl
      have hjoin := hregion.join h.canonical hfree
      rw [← free_takeOut] at hjoin
      have hcovers : ∀ x, page ≤ x ∧ x < page + 2 ^ order ∨ Covers z.Free x ↔ _ := fun x =>
        @covers_join z page order x top h hregion hfree
      simp only [← free_takeOut (o := order)] at hcovers
      have hzone' : InZone c (z.takeOut (page ^^^ 2 ^ order) order) := by
        intro x hx
        rw [free_takeOut] at hx
        exact hzone x ((h.canonical.covers_erase hfree).mpr (.inr hx))
      rw [hstep]
      obtain ⟨htidy, hregion', hle, halone, hcovers'⟩ :=
        ih (h.takeOut hfree).1 hzone' hjoin (by omega)
      exact ⟨htidy, hregion', hle, halone, fun x => (hcovers x).trans (hcovers' x)⟩
    · have hstep : mergeLoop c (n + 1) z page (page % 2 ^ c.maxOrder) order = (z, page, order) := by
        rw [mergeLoop]
        simp only [if_neg (mt his.mp hfree)]
      rw [hstep]
      exact ⟨h, hregion, show order ≤ top by omega, fun _ => hfree, fun _ => Iff.rfl⟩

/-- `z'` is `z` with the `2 ^ order` pages from `page` on. -/
structure Freed (top : Nat) (z z' : Zone) (page order : Nat) : Prop where
  tidy : Tidy top z'
  covers : ∀ x, Covers z'.Free x ↔ page ≤ x ∧ x < page + 2 ^ order ∨ Covers z.Free x

/-- The merged region has no free buddy, so that the blocks are canonical with it. -/
theorem freeOnePage_freed (htop : top + 1 = c.maxOrder) (h : Tidy top z) (hzone : InZone c z)
    (hregion : Region z.Free page order) (horder : order ≤ top) :
    Freed top z (freeOnePage c z page order t) page order := by
  have hn : c.maxOrder - 1 - order = top - order := by omega
  have hmerged := @mergeLoop_merged c z page order (top - order) top htop h hzone hregion (by omega)
  have heq : freeOnePage c z page order t =
      (mergeLoop c (top - order) z page (page % 2 ^ c.maxOrder) order).1.putIn
        (mergeLoop c (top - order) z page (page % 2 ^ c.maxOrder) order).2.1
        (mergeLoop c (top - order) z page (page % 2 ^ c.maxOrder) order).2.2 t := by
    unfold freeOnePage
    rw [hn]
    rfl
  rw [heq]
  generalize mergeLoop c (top - order) z page (page % 2 ^ c.maxOrder) order = r at hmerged
  obtain ⟨htidy, hregion', hle, halone, hcovers⟩ := hmerged
  have hpos := Nat.two_pow_pos r.2.2
  have hbuddy := pageBuddy_of_region hregion' le_rfl (by omega)
  refine ⟨⟨htidy.listed.putIn hbuddy, ?_⟩, fun x => ?_⟩
  · rw [free_putIn hbuddy]
    exact htidy.canonical.insert hregion' hle halone
  · rw [free_putIn hbuddy, covers_insert, hcovers]

end Zone

end AndroidKernel.PageAlloc
