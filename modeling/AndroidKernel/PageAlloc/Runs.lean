import AndroidKernel.Lib.Runs
import AndroidKernel.PageAlloc.Effects

/-!
# Runs of the page allocator

At first all pages of the zone are allocated, in any blocks; `free_all_bootmem` gives them back.
From then on blocks are taken and given back as they were taken, in any order and for any migrate
types.

- `freeLists_canonical`: on the lists are canonical blocks, `nr_free` counts them, and which blocks
  there are depends on the allocated pages only. So a block that is taken and given back
  leaves the blocks that were there before.
- `rmqueue_complete`: a block is refused only if there is no block of that order or a higher one, on
  the list of any type but `MIGRATE_ISOLATE`.
-/

namespace AndroidKernel.PageAlloc

open Blocks Zone List Option

structure State where
  zone : Zone
  /-- The first page and the order of each block that has been taken and not given back. -/
  allocated : List (Nat × Nat)

inductive Op
  | rmqueue (order : Nat) (migratetype : MigrateType)
  | freeOnePage (page order : Nat) (migratetype : MigrateType)

namespace State

variable {c : Config} {s s' : State} {blocks : List (Nat × Nat)} {page order p o q n x : Nat}
  {t : MigrateType} {z' z : Zone}

def init (blocks : List (Nat × Nat)) : State where
  zone := ⟨fun _ _ => [], fun _ => 0, fun _ => false, fun _ => 0⟩
  allocated := blocks

def step (c : Config) (s : State) : Op → Option State
  | .rmqueue order t =>
    match rmqueue c s.zone order t with
    | none => some s
    | some (page, zone) => some ⟨zone, (page, order) :: s.allocated⟩
  | .freeOnePage page order t =>
    some ⟨freeOnePage c s.zone page order t, s.allocated.erase (page, order)⟩

/-- A block is given back as it was taken. -/
def Allowed (s : State) : Op → Prop
  | .rmqueue _ _ => True
  | .freeOnePage page order _ => (page, order) ∈ s.allocated

instance (s : State) (op : Op) : Decidable (Allowed s op) := by
  unfold Allowed
  split <;> infer_instance

/-- The page `x` is in one of the blocks. -/
def InBlocks (blocks : List (Nat × Nat)) (x : Nat) : Prop :=
  ∃ b ∈ blocks, b.1 ≤ x ∧ x < b.1 + 2 ^ b.2

/-- Aligned blocks in the zone that are apart from each other. -/
structure Valid (c : Config) (blocks : List (Nat × Nat)) : Prop where
  aligned : ∀ b ∈ blocks, 2 ^ b.2 ∣ b.1
  order_lt : ∀ b ∈ blocks, b.2 < c.maxOrder
  inZone : ∀ x, InBlocks blocks x → c.zoneStartPfn ≤ x ∧ x < c.zoneStartPfn + c.spannedPages
  apart : blocks.Pairwise fun a b => Apart a.1 a.2 b.1 b.2

/-- What holds between the calls. -/
structure Inv (c : Config) (blocks : List (Nat × Nat)) (s : State) : Prop where
  tidy : Tidy (c.maxOrder - 1) s.zone
  inZone : InZone c s.zone
  valid : Valid c s.allocated
  apart : ∀ x, InBlocks s.allocated x → ¬Covers s.zone.Free x
  pages : ∀ x, InBlocks s.allocated x ∨ Covers s.zone.Free x ↔ InBlocks blocks x

theorem apart_of_disjoint (h : ∀ x, p ≤ x → x < p + 2 ^ o → q ≤ x → x < q + 2 ^ n → False) :
    Apart p o q n := by
  have hpos := Nat.two_pow_pos o
  have hpos' := Nat.two_pow_pos n
  have hp := h p
  have hq := h q
  by_cases hle : p ≤ q
  · exact .inl (Nat.not_lt.mp fun hlt => hq hle hlt le_rfl (by omega))
  · exact .inr (Nat.not_lt.mp fun hlt => hp le_rfl (by omega) (by omega) hlt)

theorem inBlocks_cons :
    InBlocks ((p, o) :: blocks) x ↔ p ≤ x ∧ x < p + 2 ^ o ∨ InBlocks blocks x := by
  simp only [InBlocks, mem_cons, exists_eq_or_imp]

/-- At first all blocks are allocated, and the lists are empty. -/
theorem inv_init (hvalid : Valid c blocks) : Inv c blocks (init blocks) := by
  have hnone : ∀ p o, ¬(init blocks).zone.Free p o := fun p o h => Bool.false_ne_true h.1
  have hcovers : ∀ x, ¬Covers (init blocks).zone.Free x := by
    rintro x ⟨p, o, h, -⟩
    exact hnone p o h
  refine ⟨⟨⟨fun o => ?_, fun o p => ?_, fun o => rfl⟩, ?_⟩, fun x hx => absurd hx (hcovers x),
    hvalid, fun x _ => hcovers x, fun x => or_iff_left (hcovers x)⟩
  · exact nodup_nil
  · exact iff_of_false not_mem_nil (hnone p o)
  · exact ⟨fun h => absurd h (hnone _ _), fun h => absurd h (hnone _ _),
      fun h => absurd h (hnone _ _), fun h => absurd h (hnone _ _)⟩

/-! ## Taking and giving back -/

/-- A block that was free is allocated. -/
theorem Inv.taken (h : Inv c blocks s) (htaken : Taken (c.maxOrder - 1) s.zone z' page order)
    (hmax : 1 ≤ c.maxOrder) : Inv c blocks ⟨z', (page, order) :: s.allocated⟩ := by
  have hle := htaken.le_top
  have hfree : ∀ x, Covers z'.Free x → Covers s.zone.Free x := fun x hx =>
    (htaken.covers x).mpr (.inr hx)
  refine ⟨htaken.tidy, fun x hx => h.inZone x (hfree x hx), ⟨?_, ?_, fun x hx => ?_, ?_⟩,
    fun x hx => ?_, fun x => ?_⟩
  · exact forall_mem_cons.mpr ⟨htaken.region.aligned, h.valid.aligned⟩
  · exact forall_mem_cons.mpr ⟨by show order < c.maxOrder; omega, h.valid.order_lt⟩
  · rcases inBlocks_cons.mp hx with hx | hx
    · exact h.inZone x ((htaken.covers x).mpr (.inl hx))
    · exact h.valid.inZone x hx
  · refine pairwise_cons.mpr
      ⟨fun b hb => apart_of_disjoint fun x hlo hhi hblo hbhi => ?_, h.valid.apart⟩
    exact h.apart x ⟨b, hb, hblo, hbhi⟩ ((htaken.covers x).mpr (.inl ⟨hlo, hhi⟩))
  · rcases inBlocks_cons.mp hx with hx | hx
    · exact htaken.region.not_covers hx
    · exact mt (hfree x) (h.apart x hx)
  · rw [inBlocks_cons, ← h.pages x, htaken.covers x]
    tauto

section

variable (hmem : (page, order) ∈ s.allocated)

include hmem

theorem Inv.region (h : Inv c blocks s) : Region s.zone.Free page order := by
  refine ⟨h.valid.aligned _ hmem, fun p o hp => apart_of_disjoint fun x hlo hhi hplo hphi => ?_⟩
  exact h.apart x ⟨_, hmem, hplo, hphi⟩ ⟨p, o, hp, hlo, hhi⟩

theorem inBlocks_erase : InBlocks s.allocated x ↔ page ≤ x ∧ x < page + 2 ^ order ∨
    InBlocks (s.allocated.erase (page, order)) x := by
  rw [← inBlocks_cons]
  have hperm := perm_cons_erase hmem
  exact exists_congr fun b => and_congr_left fun _ => hperm.mem_iff

/-- A block that was allocated is free. -/
theorem Inv.freed (h : Inv c blocks s) (hfreed : Freed (c.maxOrder - 1) s.zone z' page order) :
    Inv c blocks ⟨z', s.allocated.erase (page, order)⟩ := by
  have hsub : ∀ b ∈ s.allocated.erase (page, order), b ∈ s.allocated :=
    fun b hb => mem_of_mem_erase hb
  have hpage : ∀ x, InBlocks (s.allocated.erase (page, order)) x → InBlocks s.allocated x :=
    fun x hx => (inBlocks_erase hmem).mpr (.inr hx)
  -- The blocks that remain allocated are apart from the one that is given back.
  have hothers : ∀ b ∈ s.allocated.erase (page, order), Apart page order b.1 b.2 := by
    have hperm : (s.allocated.Pairwise fun a b => Apart a.1 a.2 b.1 b.2) ↔ _ :=
      (perm_cons_erase hmem).pairwise_iff fun hab => hab.symm
    exact (pairwise_cons.mp (hperm.mp h.valid.apart)).1
  refine ⟨hfreed.tidy, fun x hx => ?_, ⟨fun b hb => h.valid.aligned b (hsub b hb),
    fun b hb => h.valid.order_lt b (hsub b hb), fun x hx => h.valid.inZone x (hpage x hx),
    h.valid.apart.sublist erase_sublist⟩, ?_, fun x => ?_⟩
  · rcases (hfreed.covers x).mp hx with hx | hx
    · exact h.valid.inZone x ⟨_, hmem, hx⟩
    · exact h.inZone x hx
  · rintro x ⟨b, hb, hblo, hbhi⟩ hx
    rcases (hfreed.covers x).mp hx with hx | hx
    · have := hothers b hb
      unfold Apart at this
      omega
    · exact h.apart x (hpage x ⟨b, hb, hblo, hbhi⟩) hx
  · rw [hfreed.covers x, ← h.pages x, inBlocks_erase hmem]
    tauto

theorem Inv.freeOnePage (h : Inv c blocks s) (hmax : 1 ≤ c.maxOrder) :
    Freed (c.maxOrder - 1) s.zone (Zone.freeOnePage c s.zone page order t) page order := by
  have horder := h.valid.order_lt _ hmem
  exact freeOnePage_freed (Nat.sub_add_cancel hmax) h.tidy h.inZone (h.region hmem)
    (show order ≤ c.maxOrder - 1 from Nat.le_sub_one_of_lt horder)

end

theorem Inv.step {op : Op} (h : Inv c blocks s) (hmax : 1 ≤ c.maxOrder) (hok : Allowed s op)
    (hs : s.step c op = some s') : Inv c blocks s' := by
  cases op with
  | rmqueue order t =>
    rw [State.step] at hs
    split at hs
    · cases hs
      exact h
    next page zone hr =>
      cases hs
      exact h.taken (rmqueue_taken h.tidy hr) hmax
  | freeOnePage page order t =>
    cases hs
    exact h.freed hok (h.freeOnePage hok hmax)

theorem inv_of_reached (hmax : 1 ≤ c.maxOrder) (hvalid : Valid c blocks)
    (h : Reached (step c) Allowed (init blocks) s) : Inv c blocks s :=
  h.invariant (inv_init hvalid) fun _ _ _ hinv hok hs => hinv.step hmax hok hs

/-! ## The free lists -/

/-- A block at `p` is on a list of order `o`. -/
def OnList (z : Zone) (p o : Nat) : Prop := ∃ t, p ∈ z.freeList o t

theorem onList_iff (h : Listed z) : OnList z p o ↔ z.Free p o :=
  mem_blocks.symm.trans (h.mem o p)

/-- What is on the free lists determines and is determined by what is allocated. -/
structure CanonicalLists (c : Config) (blocks : List (Nat × Nat)) (s : State) : Prop where
  /-- Each block is on one list, and once. -/
  nodup : ∀ o, (s.zone.blocks o).Nodup
  aligned : ∀ p o, OnList s.zone p o → 2 ^ o ∣ p
  disjoint : ∀ p o q n, OnList s.zone p o → OnList s.zone q n → ¬(p = q ∧ o = n) → Apart p o q n
  count : ∀ o, s.zone.nrFree o = (s.zone.blocks o).length
  merged : ∀ p o, OnList s.zone p o → o < c.maxOrder - 1 → ¬OnList s.zone (p ^^^ 2 ^ o) o
  determined : ∀ s', Reached (step c) Allowed (init blocks) s' →
    (∀ x, InBlocks s.allocated x ↔ InBlocks s'.allocated x) →
    ∀ p o, OnList s.zone p o ↔ OnList s'.zone p o
  restored : ∀ order t t' page z', rmqueue c s.zone order t = some (page, z') →
    ∀ p o, OnList (freeOnePage c z' page order t') p o ↔ OnList s.zone p o

theorem Inv.covers_iff (h : Inv c blocks s) :
    Covers s.zone.Free x ↔ InBlocks blocks x ∧ ¬InBlocks s.allocated x := by
  rw [← h.pages x]
  have := h.apart x
  tauto

/-- The free lists are canonical in every state that calls of the allocator lead to. -/
theorem freeLists_canonical (hmax : 1 ≤ c.maxOrder) (hvalid : Valid c blocks)
    (h : Reached (step c) Allowed (init blocks) s) : CanonicalLists c blocks s := by
  have hinv := inv_of_reached hmax hvalid h
  have hlisted := hinv.tidy.listed
  have hcanonical := hinv.tidy.canonical
  refine ⟨hlisted.nodup, fun p o hp => ?_, fun p o q n hp hq hne => ?_, hlisted.count,
    fun p o hp hlt hb => ?_, fun s' h' hsame p o => ?_, fun order t t' page z' hr p o => ?_⟩
  · exact hcanonical.aligned ((onList_iff hlisted).mp hp)
  · exact hcanonical.apart ((onList_iff hlisted).mp hp) ((onList_iff hlisted).mp hq) hne
  · exact hcanonical.merged ((onList_iff hlisted).mp hp) hlt ((onList_iff hlisted).mp hb)
  · have hinv' := inv_of_reached hmax hvalid h'
    rw [onList_iff hlisted, onList_iff hinv'.tidy.listed]
    refine hcanonical.unique hinv'.tidy.canonical fun x => ?_
    rw [hinv.covers_iff, hinv'.covers_iff, hsame]
  · have htaken := rmqueue_taken hinv.tidy hr
    have hinv' := hinv.taken htaken hmax
    have hfreed := hinv'.freeOnePage (t := t') mem_cons_self hmax
    rw [onList_iff hlisted, onList_iff hfreed.tidy.listed]
    refine hfreed.tidy.canonical.unique hcanonical fun x => ?_
    exact (hfreed.covers x).trans (htaken.covers x).symm

/-- A zone of sixteen pages, of which twelve are there. -/
def twoBlocks : Config × List (Nat × Nat) := (⟨4, 3, 0, 16, false⟩, [(0, 3), (8, 2)])

theorem valid_twoBlocks : Valid twoBlocks.1 twoBlocks.2 := by
  refine ⟨by decide, by decide, ?_, pairwise_pair.mpr (.inl (by decide))⟩
  rintro x ⟨b, hb, hlo, hhi⟩
  have hle : ∀ b ∈ twoBlocks.2, b.1 + 2 ^ b.2 ≤ 16 := by decide
  have := hle b hb
  exact ⟨Nat.zero_le x, show x < 0 + 16 by omega⟩

/-- A run in which blocks are split, moved to the lists of another type, and merged again. -/
theorem freeLists_canonical_twoBlocks :
    ∃ s, (Reached (step twoBlocks.1) Allowed (init twoBlocks.2) s ∧
      s.allocated = [(4, 0)] ∧ s.zone.freeList 2 .movable = [0] ∧ s.zone.nrFree 2 = 2) ∧
      CanonicalLists twoBlocks.1 twoBlocks.2 s := by
  refine (exists_congr fun _ => and_assoc).mpr (Reached.exists_of_checked_and
    [.freeOnePage 0 3 .movable, .freeOnePage 8 2 .reserve, .rmqueue 1 .movable,
      .rmqueue 0 .movable,
      .freeOnePage 0 1 .movable, .rmqueue 0 .unmovable, .freeOnePage 2 0 .movable]
    (by decide +kernel) fun _ hs _ => ?_)
  exact freeLists_canonical (by decide) valid_twoBlocks hs

/-- A page is free or in one allocated block, and none is lost. -/
theorem pages_conserved (hmax : 1 ≤ c.maxOrder) (hvalid : Valid c blocks)
    (h : Reached (step c) Allowed (init blocks) s) :
    (∀ x, Covers (OnList s.zone) x ↔ InBlocks blocks x ∧ ¬InBlocks s.allocated x) ∧
      (∀ x, InBlocks s.allocated x → InBlocks blocks x) ∧
      s.allocated.Pairwise fun a b => Apart a.1 a.2 b.1 b.2 := by
  have hinv := inv_of_reached hmax hvalid h
  refine ⟨fun x => ?_, fun x hx => (hinv.pages x).mp (.inl hx), hinv.valid.apart⟩
  simp only [← hinv.covers_iff, Covers, onList_iff hinv.tidy.listed]

theorem pages_conserved_split : ∃ s, Reached (step twoBlocks.1) Allowed (init twoBlocks.2) s ∧
    s.allocated = [(0, 1), (8, 2)] ∧
      ∀ x, Covers (OnList s.zone) x ↔ InBlocks twoBlocks.2 x ∧ ¬InBlocks s.allocated x :=
  Reached.exists_of_checked_and [.freeOnePage 0 3 .movable, .rmqueue 1 .movable]
    (by decide +kernel) fun _ hs _ => (pages_conserved (by decide) valid_twoBlocks hs).1

/-! ## Refusals -/

theorem smallestLoop_eq_none {current : Nat} :
    z.smallestLoop order t n current = none ↔ ∀ o, current ≤ o → o < current + n →
      z.freeList o t = [] := by
  induction n generalizing current with
  | zero => exact iff_of_true rfl fun o hlo hhi => by omega
  | succ n ih =>
    rw [smallestLoop]
    split
    next hnil =>
      rw [ih]
      constructor
      · intro hall o hlo hhi
        rcases hlo.eq_or_lt with rfl | hlt
        · exact hnil
        · exact hall o hlt (by omega)
      · exact fun hall o hlo hhi => hall o (by omega) (by omega)
    next page l hl =>
      refine iff_of_false (some_ne_none _) fun hall => ?_
      have hnil := hall current le_rfl (by omega)
      rw [hl] at hnil
      cases hnil

theorem fallbackTypes_eq_none {types : List MigrateType} {start : MigrateType} :
    fallbackTypes c z order o start types = none ↔ ∀ t ∈ types, t ≠ .reserve →
      z.freeList o t = [] := by
  induction types with
  | nil => exact iff_of_true rfl fun t ht => absurd ht not_mem_nil
  | cons t types ih =>
    rw [fallbackTypes, forall_mem_cons]
    by_cases ht : t = .reserve
    · rw [if_pos ht, ih]
      exact (and_iff_right fun hne => absurd ht hne).symm
    rw [if_neg ht]
    split
    next hnil =>
      rw [ih]
      exact (and_iff_right fun _ => hnil).symm
    next page l hl =>
      refine iff_of_false (some_ne_none _) fun hall => ?_
      have hnil := hall.1 ht
      rw [hl] at hnil
      cases hnil

theorem fallbackLoop_eq_none {start : MigrateType} : fallbackLoop c z order start n = none ↔
      ∀ o, order ≤ o → o < order + n → ∀ t ∈ start.fallbacks, t ≠ .reserve →
        z.freeList o t = [] := by
  induction n with
  | zero => exact iff_of_true rfl fun o hlo hhi => by omega
  | succ n ih =>
    rw [fallbackLoop, or_eq_none_iff, fallbackTypes_eq_none, ih]
    constructor
    · rintro ⟨hlast, hall⟩ o hlo hhi
      rcases (Nat.le_of_lt_succ hhi).eq_or_lt with rfl | hlt
      · exact hlast
      · exact hall o hlo hlt
    · intro hall
      exact ⟨hall (order + n) (by omega) (by omega), fun o hlo hhi => hall o hlo (by omega)⟩

/-- The type itself, its fallbacks and the reserve are all types but `MIGRATE_ISOLATE`. -/
theorem types_covered (hreserve : t ≠ .reserve) (hisolate : t ≠ .isolate) {t' : MigrateType} :
    t' ≠ .isolate ↔ t' = t ∨ (t' ∈ t.fallbacks ∧ t' ≠ .reserve) ∨ t' = .reserve := by
  cases t <;> cases t' <;> simp_all [MigrateType.fallbacks]

theorem rmqueue_eq_none (hreserve : t ≠ .reserve) :
    rmqueue c z order t = none ↔ rmqueueSmallest c z order t = none ∧
      rmqueueFallback c z order t = none ∧ rmqueueSmallest c z order .reserve = none := by
  unfold rmqueue
  cases rmqueueSmallest c z order t with
  | some r => simp
  | none =>
    simp only [if_neg hreserve]
    cases rmqueueFallback c z order t with
    | some r | none => simp

/-- A request fails only if no block is large enough, and takes just the pages it returns. -/
theorem rmqueue_complete (hmax : 1 ≤ c.maxOrder) (hvalid : Valid c blocks)
    (h : Reached (step c) Allowed (init blocks) s) (hreserve : t ≠ .reserve)
    (hisolate : t ≠ .isolate) :
    (rmqueue c s.zone order t = none ↔ ∀ o ≥ order, ∀ t' ≠ .isolate, s.zone.freeList o t' = []) ∧
      ∀ page z', rmqueue c s.zone order t = some (page, z') →
        2 ^ order ∣ page ∧ (∀ x, page ≤ x → x < page + 2 ^ order → Covers (OnList s.zone) x) ∧
        ∀ x, Covers (OnList z') x ↔ Covers (OnList s.zone) x ∧
          ¬(page ≤ x ∧ x < page + 2 ^ order) := by
  have hinv := inv_of_reached hmax hvalid h
  have honList : ∀ {z : Zone}, Listed z → OnList z = z.Free := fun hl =>
    funext fun p => funext fun o => propext (onList_iff hl)
  refine ⟨?_, fun page z' hr => ?_⟩
  · -- Above the highest order the lists are empty.
    have habove : ∀ o t', c.maxOrder ≤ o → s.zone.freeList o t' = [] := by
      intro o t' ho
      refine eq_nil_iff_forall_not_mem.mpr fun p hp => ?_
      have := hinv.tidy.canonical.le_top ((onList_iff hinv.tidy.listed).mp ⟨t', hp⟩)
      omega
    have hbelow : ∀ {P : Nat → Prop}, (∀ o, order ≤ o → o < order + (c.maxOrder - order) → P o) ↔
        ∀ o, order ≤ o → o < c.maxOrder → P o := fun {P} =>
      ⟨fun hall o hlo hhi => hall o hlo (by omega), fun hall o hlo hhi => hall o hlo (by omega)⟩
    rw [rmqueue_eq_none hreserve, rmqueueSmallest, rmqueueSmallest, rmqueueFallback,
      smallestLoop_eq_none, smallestLoop_eq_none, fallbackLoop_eq_none, hbelow, hbelow, hbelow]
    constructor
    · rintro ⟨hown, hfallback, hres⟩ o hlo t' ht'
      by_cases hhi : o < c.maxOrder
      · rcases (types_covered hreserve hisolate).mp ht' with rfl | ⟨hmem, hne⟩ | rfl
        · exact hown o hlo hhi
        · exact hfallback o hlo hhi t' hmem hne
        · exact hres o hlo hhi
      · exact habove o t' (Nat.not_lt.mp hhi)
    · intro hall
      refine ⟨fun o hlo _ => hall o hlo t hisolate, fun o hlo _ t' hmem hne => hall o hlo t' ?_,
        fun o hlo _ => hall o hlo .reserve nofun⟩
      exact (types_covered hreserve hisolate).mpr (.inr (.inl ⟨hmem, hne⟩))
  · have htaken := rmqueue_taken hinv.tidy hr
    rw [honList hinv.tidy.listed, honList htaken.tidy.listed]
    refine ⟨htaken.region.aligned, fun x hlo hhi => (htaken.covers x).mpr (.inl ⟨hlo, hhi⟩),
      fun x => ?_⟩
    rw [htaken.covers x]
    have hapart := htaken.region.not_covers (x := x)
    tauto

/-- The last block is taken from the reserve. -/
theorem rmqueue_complete_reserve : ∃ s, (Reached (step twoBlocks.1) Allowed (init twoBlocks.2) s ∧
      s.zone.freeList 2 .reserve = [8] ∧ (rmqueue twoBlocks.1 s.zone 2 .movable).isSome = true) ∧
      (rmqueue twoBlocks.1 s.zone 2 .movable = none ↔
        ∀ o ≥ 2, ∀ t' ≠ .isolate, s.zone.freeList o t' = []) ∧
      ∀ page z', rmqueue twoBlocks.1 s.zone 2 .movable = some (page, z') →
        2 ^ 2 ∣ page ∧ (∀ x, page ≤ x → x < page + 2 ^ 2 → Covers (OnList s.zone) x) ∧
        ∀ x, Covers (OnList z') x ↔ Covers (OnList s.zone) x ∧ ¬(page ≤ x ∧ x < page + 2 ^ 2) := by
  refine (exists_congr fun _ => and_assoc).mpr (Reached.exists_of_checked_and
    [.freeOnePage 8 2 .reserve] (by decide +kernel) fun _ hs _ => ?_)
  exact rmqueue_complete (by decide) valid_twoBlocks hs (by decide) (by decide)

end State

end AndroidKernel.PageAlloc
