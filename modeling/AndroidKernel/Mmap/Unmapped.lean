import AndroidKernel.Mmap.Munmap

/-!
# Free ranges (`arch/arm/mm/mmap.c`)

`arch_get_unmapped_area` without `MAP_FIXED`, where the caches do not alias. The search starts at
`free_area_cache`, which is only a hint, and once more from `TASK_UNMAPPED_BASE`; so what the caches
hold decides which range is found, but not whether one is.
-/

namespace AndroidKernel.Mmap

open List Option

namespace Mm

/-- The loop, which ends with no address if it comes too close to `TASK_SIZE`. -/
def areaLoop (len : Nat) : Nat → Mm → Option Nat → Nat → Option (Option Nat × Mm)
  | 0, _, _, _ => none
  | fuel + 1, m, vma, addr =>
    if taskSize - len < addr then some (none, m)
    else
      let found := some (some addr, { m with freeAreaCache := ulong (addr + len) })
      match vma with
      | none => found
      | some v =>
        let start := (m.vma v).start
        if ulong (addr + len) ≤ start then found
        else
          let m :=
            if ulong (addr + m.cachedHoleSize) < start then
              { m with cachedHoleSize := ulong ((start : Int) - addr) }
            else m
          areaLoop len fuel m (m.vmNext v) (m.vma v).end_

/-- From the label `full_search` on. -/
def fullSearch (m : Mm) (len addr : Nat) : Option (Option Nat × Mm) :=
  let addr := pageAlign addr
  let (vma, m) := m.findVma addr
  areaLoop len (m.mapCount + 1) m vma addr

/-- The search from an address and, if that is not enough, from the base. -/
def searchFrom (m : Mm) (len startAddr : Nat) : Option (Option Nat × Mm) :=
  (m.fullSearch len startAddr).bind fun p =>
    if p.1 = none ∧ startAddr ≠ taskUnmappedBase then
      ({ p.2 with cachedHoleSize := 0 } : Mm).fullSearch len taskUnmappedBase
    else some p

/-- The search, if there is no hint or it is of no use. -/
def searchArea (m : Mm) (len : Nat) : Option (Option Nat × Mm) :=
  if m.cachedHoleSize < len then m.searchFrom len m.freeAreaCache
  else ({ m with cachedHoleSize := 0 } : Mm).searchFrom len taskUnmappedBase

/-- `arch_get_unmapped_area`, where `none` stands for `-ENOMEM`. -/
def archGetUnmappedArea (m : Mm) (addr len : Nat) : Option (Option Nat × Mm) :=
  if taskSize < len then some (none, m)
  else if addr = 0 then m.searchArea len
  else
    let addr := pageAlign addr
    let (vma, m) := m.findVma addr
    if addr ≤ taskSize - len ∧ ∀ v ∈ vma, ulong (addr + len) ≤ (m.vma v).start then
      some (some addr, m)
    else m.searchArea len

end Mm

/-- Nothing is mapped in a range. -/
def Free (l : Space) (addr len : Nat) : Prop := ∀ x, addr ≤ x → x < addr + len → lookup l x = none

/-- What a search from an address returns: a range for the request if there is one from there on. -/
structure Finds (l : Space) (len from_ : Nat) (result : Option (Option Nat × Mm)) (r : Option Nat)
    (m' : Mm) : Prop where
  eq : result = some (r, m')
  holds : Holds m' l
  sound : ∀ a ∈ r, a % 4096 = 0 ∧ a + len ≤ taskSize ∧ Free l a len
  complete : r = none → ∀ g, from_ ≤ g → g + len ≤ taskSize → ¬Free l g len

variable {m : Mm} {l a b : Space} {addr len fuel : Nat}

theorem free_of_split (ht : Tidy (a ++ b)) (ha : ∀ p ∈ a, p.2.end_ ≤ addr)
    (hb : ∀ p ∈ b.head?, addr + len ≤ p.2.start) : Free (a ++ b) addr len := by
  intro x hlo hhi
  refine lookup_eq_none (@not_contains _ _ (fun p => p.2.end_ ≤ addr ∨ addr + len ≤ p.2.start)
    (forall_mem_append.mpr ⟨fun p hp => .inl (ha p hp), ?_⟩) fun p hp => by omega)
  cases b with
  | nil => nofun
  | cons q b =>
    have hq := hb q rfl
    obtain ⟨hqv, hqb, -⟩ := tidy_cons.mp (tidy_append.mp ht).2.1
    have := hqv.start_lt
    exact forall_mem_cons.mpr ⟨.inr hq, fun p hp => .inr (by have := hqb p hp; omega)⟩

theorem not_free {p : Nat × Area} {x : Nat} (hp : p ∈ l) (hx : p.2.Contains x) (hlo : addr ≤ x)
    (hhi : x < addr + len) : ¬Free l addr len := by
  intro hfree
  have := findSome?_eq_none_iff.mp (hfree x hlo hhi) p hp
  rw [if_pos hx] at this
  cases this

/-- The loop, from the first area that ends above `addr` on. -/
theorem areaLoop_finds (h : Holds m (a ++ b)) (ht : Tidy (a ++ b)) (ha : ∀ p ∈ a, p.2.end_ ≤ addr)
    (hb : ∀ p ∈ b, addr < p.2.end_) (haddr : addr % 4096 = 0) (hlen : len ≤ taskSize)
    (hfuel : b.length < fuel) :
    ∃ r m', Finds (a ++ b) len addr (Mm.areaLoop len fuel m (b.head?.map Prod.fst) addr) r m' := by
  induction b generalizing m a addr fuel with
  | nil =>
    obtain ⟨fuel, rfl⟩ := Nat.exists_eq_add_of_lt hfuel
    rw [Mm.areaLoop]
    split
    · exact ⟨none, m, rfl, h, nofun, fun _ g hg hg' => absurd hg' (by omega)⟩
    · refine ⟨some addr, _, rfl, ⟨h.rb, h.area, h.seg, h.nodup, h.count, h.cache⟩, ?_, nofun⟩
      rintro _ ⟨⟩
      exact ⟨haddr, by omega, free_of_split ht ha nofun⟩
  | cons q b ih =>
    obtain ⟨v, V⟩ := q
    obtain ⟨fuel, rfl⟩ : ∃ k, fuel = k + 1 := ⟨fuel - 1, by simp at hfuel; omega⟩
    have hV : addr < V.end_ := hb (v, V) mem_cons_self
    obtain ⟨hVv, hVb, htb⟩ := tidy_cons.mp (tidy_append.mp ht).2.1
    have hVle : V.end_ ≤ taskSize := hVv.end_le
    have hVlt : V.start < V.end_ := hVv.start_lt
    rw [Mm.areaLoop]
    split
    · exact ⟨none, m, rfl, h, nofun, fun _ g hg hg' => absurd hg' (by omega)⟩
    rename_i hle
    have hsum : ulong (addr + len) = addr + len := by
      unfold ulong
      unfold taskSize at hle hlen
      omega
    simp only [head?_cons, map_some, hsum]
    split
    next hfits =>
      rw [h.area_eq] at hfits
      refine ⟨some addr, _, rfl, ⟨h.rb, h.area, h.seg, h.nodup, h.count, h.cache⟩, ?_, nofun⟩
      rintro _ ⟨⟩
      exact ⟨haddr, by omega, free_of_split ht ha (by rintro _ ⟨⟩; exact hfits)⟩
    next hfits =>
      rw [h.area_eq] at hfits
      -- the remembered hole is not part of the address space
      have hnext : ∀ {m' : Mm}, Holds m' (a ++ (v, V) :: b) → ∃ r m'', Finds (a ++ (v, V) :: b) len
          addr (Mm.areaLoop len fuel m' (m'.vmNext v) (m'.vma v).end_) r m'' := by
        intro m' h'
        rw [h'.vmNext, h'.area_eq]
        rw [append_cons] at h' ht ⊢
        obtain ⟨r, m'', hf⟩ := @ih m' (a ++ [(v, V)]) V.end_ fuel h' ht
          (forall_mem_append.mpr ⟨fun p hp => (ha p hp).trans hV.le,
            forall_mem_singleton.mpr le_rfl⟩)
          (fun p hp => by
            have := hVb p hp
            have := (htb.valid p hp).start_lt
            simp only at *
            omega)
          hVv.end_page (by simp at hfuel; omega)
        refine ⟨r, m'', hf.eq, hf.holds, hf.sound, fun hr g hg hg' hfree => ?_⟩
        by_cases hzero : len = 0
        · -- an empty range is free anywhere, also where this area ends
          exact hf.complete hr V.end_ le_rfl (by omega) fun x hx hx' => by omega
        · by_cases hgV : V.end_ ≤ g
          · exact hf.complete hr g hgV hg' hfree
          · exact not_free (p := (v, V)) (x := max g V.start) (by simp)
              ⟨Nat.le_max_right .., by show max g V.start < V.end_; omega⟩ (Nat.le_max_left ..)
              (by omega) hfree
      split
      · exact hnext ⟨h.rb, h.area, h.seg, h.nodup, h.count, h.cache⟩
      · exact hnext h

section

variable (h : Holds m l) (ht : Tidy l) (hlen : len ≤ taskSize)

include h ht hlen

theorem fullSearch_finds : ∃ r m', Finds l len (pageAlign addr) (m.fullSearch len addr) r m' := by
  obtain ⟨a, b, rfl, ha, hb⟩ := ht.split (pageAlign addr)
  obtain ⟨hfind, h'⟩ := h.findVma ht ha hb
  have hcount := h'.count
  rw [length_append] at hcount
  obtain ⟨r, m', hf⟩ := areaLoop_finds h' ht ha hb (pageAlign_mod addr) hlen
    (show b.length < (m.findVma (pageAlign addr)).2.mapCount + 1 by omega)
  rw [← hfind] at hf
  exact ⟨r, m', hf⟩

theorem searchFrom_finds : ∃ r m', Finds l len taskUnmappedBase (m.searchFrom len addr) r m' := by
  have hbase : pageAlign taskUnmappedBase = taskUnmappedBase := by decide
  obtain ⟨r, m', hf⟩ := @fullSearch_finds m l addr len h ht hlen
  rw [Mm.searchFrom, hf.eq, bind_some]
  split
  · have h' := hf.holds
    have := @fullSearch_finds { m' with cachedHoleSize := 0 } l taskUnmappedBase len
      ⟨h'.rb, h'.area, h'.seg, h'.nodup, h'.count, h'.cache⟩ ht hlen
    rwa [hbase] at this
  next hdone =>
    refine ⟨r, m', rfl, hf.holds, hf.sound, fun hr => ?_⟩
    have haddr : addr = taskUnmappedBase := by
      by_contra hne
      exact hdone ⟨hr, hne⟩
    rw [← hbase, ← haddr]
    exact hf.complete hr

theorem searchArea_finds : ∃ r m', Finds l len taskUnmappedBase (m.searchArea len) r m' := by
  rw [Mm.searchArea]
  split
  · exact searchFrom_finds h ht hlen
  · exact searchFrom_finds ⟨h.rb, h.area, h.seg, h.nodup, h.count, h.cache⟩ ht hlen

end

/-- An address that `arch_get_unmapped_area` returns is that of a free range of whole pages; and it
returns one if there is a free range from `TASK_UNMAPPED_BASE` on, whatever the caches hold. -/
theorem archGetUnmappedArea_correct (hm : Consistent m) (hlen : len ≤ taskSize) :
    ∃ r m', m.archGetUnmappedArea addr len = some (r, m') ∧
      (∀ a ∈ r, a % 4096 = 0 ∧ a + len ≤ taskSize ∧ Free m.space a len) ∧
      (r = none → ∀ g, taskUnmappedBase ≤ g → g + len ≤ taskSize → ¬Free m.space g len) := by
  suffices h : ∃ r m', Finds m.space len taskUnmappedBase (m.archGetUnmappedArea addr len) r m' by
    obtain ⟨r, m', hf⟩ := h
    exact ⟨r, m', hf.eq, hf.sound, hf.complete⟩
  rw [Mm.archGetUnmappedArea, if_neg (Nat.not_lt.mpr hlen)]
  split
  · exact searchArea_finds hm.holds hm.tidy hlen
  obtain ⟨a, b, hl, ha, hb⟩ := hm.tidy.split (pageAlign addr)
  obtain ⟨hfind, h'⟩ := (hl ▸ hm.holds).findVma (hl ▸ hm.tidy) ha hb
  simp only [hfind]
  split
  next hfits =>
    obtain ⟨hle, hstart⟩ := hfits
    refine ⟨_, _, rfl, hl ▸ h', fun c hc => ?_, nofun⟩
    obtain rfl : pageAlign addr = c := some.inj hc
    have hsum : ulong (pageAlign addr + len) = pageAlign addr + len := by
      unfold ulong
      unfold taskSize at hle hlen
      omega
    refine ⟨pageAlign_mod addr, by omega, hl ▸ free_of_split (hl ▸ hm.tidy) ha fun p hp => ?_⟩
    have hp' := hstart p.1 (by rw [hp]; rfl)
    rwa [hsum, h'.area p (mem_append_right a (mem_of_mem_head? hp))] at hp'
  · exact searchArea_finds (hl ▸ h') hm.tidy hlen

theorem archGetUnmappedArea_correct_page : Consistent fileMappings ∧ 0x1000 ≤ taskSize ∧
    ∃ a m', fileMappings.archGetUnmappedArea 0 0x1000 = some (some a, m') ∧
      a % 4096 = 0 ∧ a + 0x1000 ≤ taskSize ∧ Free fileMappings.space a 0x1000 := by
  refine ⟨consistent_fileMappings, by decide, ?_⟩
  obtain ⟨r, m', heq, hsound, -⟩ :=
    @archGetUnmappedArea_correct _ 0 0x1000 consistent_fileMappings (by decide)
  have hfound : ((fileMappings.archGetUnmappedArea 0 0x1000).map Prod.fst) =
      some (some 0x40004000) := by decide +kernel
  rw [heq] at hfound
  obtain rfl := Option.some.inj hfound
  exact ⟨_, m', heq, hsound _ rfl⟩

end AndroidKernel.Mmap
