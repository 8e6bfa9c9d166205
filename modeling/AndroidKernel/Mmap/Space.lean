import AndroidKernel.Mmap.Areas

/-!
# Address spaces

An address space is a list of areas in the order of their addresses.

- `Tidy`: the areas are valid, and each ends before the next starts.
- `lookup`: what an address is mapped to.
- `lower`, `upper`: the two halves of an area that is split.
- `adjusted`: what `vma_adjust` without an area to insert makes of an area and of those after it.

Areas come with their numbers, so that the lists say which `vm_area_struct` is where.
-/

namespace AndroidKernel.Mmap

open List

@[mk_iff]
structure Area.Valid (v : Area) : Prop where
  start_lt : v.start < v.end_
  start_page : v.start % 4096 = 0
  end_page : v.end_ % 4096 = 0
  end_le : v.end_ ≤ taskSize

instance (v : Area) : Decidable v.Valid := decidable_of_iff' _ v.valid_iff

/-- What an address is mapped to. -/
structure Mapping where
  file : Option Nat
  pgoff : Nat
  flags : BitVec 32
  prot : Nat
  deriving DecidableEq

def Area.Contains (v : Area) (x : Nat) : Prop := v.start ≤ x ∧ x < v.end_
  deriving Decidable

/-- What an area maps an address in it to. -/
def Area.mapping (v : Area) (x : Nat) : Mapping where
  file := v.file
  pgoff := ulong (v.pgoff + (x - v.start) / 4096 : Nat)
  flags := v.flags
  prot := v.prot

abbrev Space := List (Nat × Area)

variable {l a b : Space} {v n : Nat} {V N : Area} {x addr start end_ pgoff : Nat}

def lookup (l : Space) (x : Nat) : Option Mapping :=
  l.findSome? fun p => if p.2.Contains x then some (p.2.mapping x) else none

@[mk_iff]
structure Tidy (l : Space) : Prop where
  valid : ∀ p ∈ l, p.2.Valid
  sorted : l.Pairwise fun p q => p.2.end_ ≤ q.2.start

instance (l : Space) : Decidable (Tidy l) := decidable_of_iff' _ (tidy_iff l)

/-! ## Tidy lists -/

theorem tidy_nil : Tidy [] := ⟨fun _ h => absurd h not_mem_nil, .nil⟩

theorem tidy_cons {p : Nat × Area} :
    Tidy (p :: l) ↔ p.2.Valid ∧ (∀ q ∈ l, p.2.end_ ≤ q.2.start) ∧ Tidy l := by
  constructor
  · rintro ⟨hv, hs⟩
    obtain ⟨hp, hl⟩ := forall_mem_cons.mp hv
    obtain ⟨hsp, hsl⟩ := pairwise_cons.mp hs
    exact ⟨hp, hsp, hl, hsl⟩
  · rintro ⟨hp, hsp, hl, hsl⟩
    exact ⟨forall_mem_cons.mpr ⟨hp, hl⟩, pairwise_cons.mpr ⟨hsp, hsl⟩⟩

theorem tidy_append : Tidy (a ++ b) ↔ Tidy a ∧ Tidy b ∧ ∀ p ∈ a, ∀ q ∈ b, p.2.end_ ≤ q.2.start := by
  constructor
  · rintro ⟨hv, hs⟩
    obtain ⟨ha, hb⟩ := forall_mem_append.mp hv
    obtain ⟨hsa, hsb, hab⟩ := pairwise_append.mp hs
    exact ⟨⟨ha, hsa⟩, ⟨hb, hsb⟩, hab⟩
  · rintro ⟨⟨ha, hsa⟩, ⟨hb, hsb⟩, hab⟩
    exact ⟨forall_mem_append.mpr ⟨ha, hb⟩, pairwise_append.mpr ⟨hsa, hsb, hab⟩⟩

/-- The areas that end at an address or below it come first. -/
theorem Tidy.split (h : Tidy l) (addr : Nat) :
    ∃ a b, l = a ++ b ∧ (∀ p ∈ a, p.2.end_ ≤ addr) ∧ ∀ p ∈ b, addr < p.2.end_ := by
  induction l with
  | nil => exact ⟨[], [], rfl, nofun, nofun⟩
  | cons p l ih =>
    obtain ⟨hp, hpl, hl⟩ := tidy_cons.mp h
    by_cases hle : p.2.end_ ≤ addr
    · obtain ⟨a, b, rfl, ha, hb⟩ := ih hl
      exact ⟨p :: a, b, rfl, forall_mem_cons.mpr ⟨hle, ha⟩, hb⟩
    · refine ⟨[], p :: l, rfl, nofun, forall_mem_cons.mpr ⟨by omega, fun q hq => ?_⟩⟩
      have := hpl q hq
      have := (hl.valid q hq).start_lt
      omega

/-- There is only one such place. -/
theorem split_unique {a' b' : Space} (h : a ++ b = a' ++ b') (ha : ∀ p ∈ a, p.2.end_ ≤ addr)
    (hb : ∀ p ∈ b, addr < p.2.end_) (ha' : ∀ p ∈ a', p.2.end_ ≤ addr)
    (hb' : ∀ p ∈ b', addr < p.2.end_) : a = a' ∧ b = b' := by
  induction a generalizing a' with
  | nil =>
    cases a' with
    | nil => exact ⟨rfl, h⟩
    | cons p a' =>
      have := hb p (by rw [← nil_append b, h]; exact mem_cons_self)
      have := ha' p mem_cons_self
      omega
  | cons p a ih =>
    cases a' with
    | nil =>
      have := hb' p (by rw [← nil_append b', ← h]; exact mem_cons_self)
      have := ha p mem_cons_self
      omega
    | cons p' a' =>
      obtain ⟨rfl, htail⟩ := cons.inj h
      obtain ⟨rfl, rfl⟩ := ih htail (fun q hq => ha q (mem_cons_of_mem _ hq))
        fun q hq => ha' q (mem_cons_of_mem _ hq)
      exact ⟨rfl, rfl⟩

/-! ## Lookup -/

theorem lookup_cons {p : Nat × Area} :
    lookup (p :: l) x = if p.2.Contains x then some (p.2.mapping x) else lookup l x := by
  rw [lookup]
  by_cases h : p.2.Contains x
  · simp [h]
  · simp [h, lookup]

theorem lookup_append : lookup (a ++ b) x = (lookup a x).or (lookup b x) := findSome?_append ..

theorem lookup_eq_none (h : ∀ p ∈ l, ¬p.2.Contains x) : lookup l x = none := by
  rw [lookup, findSome?_eq_none_iff]
  intro p hp
  rw [if_neg (h p hp)]

/-- Areas on one side of an address do not contain it. -/
theorem not_contains {P : Nat × Area → Prop} (h : ∀ p ∈ l, P p)
    (hP : ∀ p, P p → p.2.end_ ≤ x ∨ x < p.2.start) : ∀ p ∈ l, ¬p.2.Contains x := by
  rintro p hp ⟨h₁, h₂⟩
  rcases hP p (h p hp) with h' | h'
  · exact absurd h' (by omega)
  · exact absurd h' (by omega)

/-! ## Splits -/

def Area.lower (v : Area) (addr : Nat) : Area := { v with end_ := addr }

def Area.upper (v : Area) (addr : Nat) : Area :=
  { v with start := addr, pgoff := ulong (v.pgoff + (addr - v.start) / 4096 : Nat) }

/-- The upper half maps what the area did. -/
theorem mapping_upper (hV : V.Valid) (haddr : addr % 4096 = 0) (hle : V.start ≤ addr)
    (hx : addr ≤ x) : (V.upper addr).mapping x = V.mapping x := by
  have := hV.start_page
  simp only [Area.mapping, Area.upper, ulong, Mapping.mk.injEq, true_and, and_true]
  omega

/-- A split area maps what it did. -/
theorem lookup_split {n' : Nat} (hV : V.Valid) (haddr : addr % 4096 = 0) (hlo : V.start < addr)
    (hhi : addr < V.end_) :
    lookup ((n, V.lower addr) :: (n', V.upper addr) :: l) x = lookup ((v, V) :: l) x := by
  simp only [lookup_cons]
  by_cases hx : x < addr
  · have hu : ¬(V.upper addr).Contains x := fun h => absurd h.1 (Nat.not_le.mpr hx)
    rw [if_neg hu]
    by_cases hs : V.start ≤ x
    · rw [if_pos ⟨hs, hx⟩, if_pos ⟨hs, hx.trans hhi⟩]
      rfl
    · rw [if_neg fun h => hs h.1, if_neg fun h => hs h.1]
  · have hl : ¬(V.lower addr).Contains x := fun h => hx h.2
    rw [if_neg hl, mapping_upper hV haddr hlo.le (Nat.not_lt.mp hx)]
    have hiff : (V.upper addr).Contains x ↔ V.Contains x :=
      ⟨fun h => ⟨hlo.le.trans h.1, h.2⟩, fun h => ⟨Nat.not_lt.mp hx, h.2⟩⟩
    simp only [hiff]

theorem tidy_split {n' : Nat} (haddr : addr % 4096 = 0) (hlo : V.start < addr)
    (hhi : addr < V.end_) (h : Tidy (a ++ (v, V) :: b)) :
    Tidy (a ++ (n, V.lower addr) :: (n', V.upper addr) :: b) := by
  obtain ⟨ha, hb, hab⟩ := tidy_append.mp h
  obtain ⟨hV, hVb, hb⟩ := tidy_cons.mp hb
  have hupper : (V.upper addr).Valid := ⟨hhi, haddr, hV.end_page, hV.end_le⟩
  have hlower : (V.lower addr).Valid := ⟨hlo, hV.start_page, haddr, hhi.le.trans hV.end_le⟩
  refine tidy_append.mpr ⟨ha, tidy_cons.mpr ⟨hlower, ?_, tidy_cons.mpr ⟨hupper, hVb, hb⟩⟩, ?_⟩
  · exact forall_mem_cons.mpr ⟨le_rfl, fun q hq => hhi.le.trans (hVb q hq)⟩
  · intro p hp
    obtain ⟨hpV, hpb⟩ := forall_mem_cons.mp (hab p hp)
    exact forall_mem_cons.mpr ⟨hpV, forall_mem_cons.mpr ⟨hpV.trans hlo.le, hpb⟩⟩

/-! ## Adjustment -/

def Area.ranged (v : Area) (start end_ pgoff : Nat) : Area := { v with start, end_, pgoff }

/-- `vma_adjust` on the area with number `v` and those after it. Without a second successor there is
nothing to remove it from. -/
def adjusted (v : Nat) (V : Area) (start end_ pgoff : Nat) : Space → Option Space
  | [] => some [(v, V.ranged start end_ pgoff)]
  | (n, N) :: b =>
    if N.end_ ≤ end_ then
      if N.end_ < end_ then
        b.head?.map fun q => (v, V.ranged start q.2.end_ pgoff) :: b.tail
      else some ((v, V.ranged start N.end_ pgoff) :: b)
    else if N.start < end_ then
      some ((v, V.ranged start end_ pgoff) :: (n, N.upper end_) :: b)
    else if end_ < V.end_ then
      let pages := (V.end_ - end_) / 4096
      some ((v, V.ranged start end_ pgoff) ::
        (n, N.ranged (N.start - pages * 4096) N.end_ (ulong (N.pgoff - pages))) :: b)
    else some ((v, V.ranged start end_ pgoff) :: (n, N) :: b)

/-- An area starts at `start`, and the list goes on after it. -/
theorem tidy_ranged (hlt : start < end_) (hstart : start % 4096 = 0) (hpage : end_ % 4096 = 0)
    (hle : end_ ≤ taskSize) (hb : Tidy b) (hend : ∀ q ∈ b, end_ ≤ q.2.start) :
    Tidy ((v, V.ranged start end_ pgoff) :: b) ∧
      ∀ q ∈ (v, V.ranged start end_ pgoff) :: b, start ≤ q.2.start :=
  ⟨tidy_cons.mpr ⟨⟨hlt, hstart, hpage, hle⟩, hend, hb⟩,
    forall_mem_cons.mpr ⟨le_rfl, fun q hq => hlt.le.trans (hend q hq)⟩⟩

theorem tidy_adjusted {l' : Space} (h : Tidy (a ++ (v, V) :: b)) (hlt : start < end_)
    (hstart : start % 4096 = 0) (hpage : end_ % 4096 = 0) (hle : end_ ≤ taskSize)
    (ha : ∀ p ∈ a, p.2.end_ ≤ start) (hV' : start < V.end_)
    (hl : adjusted v V start end_ pgoff b = some l') : Tidy (a ++ l') := by
  obtain ⟨hta, hb, -⟩ := tidy_append.mp h
  obtain ⟨hV, hVb, hb⟩ := tidy_cons.mp hb
  -- nothing in the new list starts before `start`, so only that list matters
  suffices hl' : Tidy l' ∧ ∀ q ∈ l', start ≤ q.2.start from
    tidy_append.mpr ⟨hta, hl'.1, fun p hp q hq => (ha p hp).trans (hl'.2 q hq)⟩
  cases b with
  | nil =>
    cases hl
    exact tidy_ranged hlt hstart hpage hle tidy_nil nofun
  | cons q b =>
    obtain ⟨n, N⟩ := q
    obtain ⟨hN, hNb, hb⟩ := tidy_cons.mp hb
    have hVN : V.end_ ≤ N.start := hVb _ mem_cons_self
    have hNlt := hN.start_lt
    have hNpage := hN.start_page
    simp only at hNlt hNpage
    rw [adjusted] at hl
    split_ifs at hl with h₁ h₂ h₃
    · -- two areas are removed
      cases b with
      | nil => cases hl
      | cons r b =>
        cases hl
        obtain ⟨hX, hXb, hb⟩ := tidy_cons.mp hb
        have hNX : N.end_ ≤ r.2.start := hNb _ mem_cons_self
        have := hX.start_lt
        exact tidy_ranged (by omega) hstart hX.end_page hX.end_le hb hXb
    · cases hl
      exact tidy_ranged (by omega) hstart hN.end_page hN.end_le hb hNb
    · -- the boundary moves up
      cases hl
      refine tidy_ranged hlt hstart hpage hle ?_ ?_
      · exact tidy_cons.mpr ⟨⟨Nat.not_le.mp h₁, hpage, hN.end_page, hN.end_le⟩, hNb, hb⟩
      · have := Nat.not_le.mp h₁
        exact forall_mem_cons.mpr ⟨le_rfl, fun q hq => this.le.trans (hNb q hq)⟩
    · -- the boundary moves down
      cases hl
      refine tidy_ranged hlt hstart hpage hle ?_ ?_
      · refine tidy_cons.mpr ⟨⟨?_, ?_, hN.end_page, hN.end_le⟩, hNb, hb⟩
        · show N.start - (V.end_ - end_) / 4096 * 4096 < N.end_
          omega
        · show (N.start - (V.end_ - end_) / 4096 * 4096) % 4096 = 0
          omega
      · refine forall_mem_cons.mpr ⟨?_, fun q hq => ?_⟩
        · show end_ ≤ N.start - (V.end_ - end_) / 4096 * 4096
          omega
        · have := hNb q hq
          simp only at this
          omega
    · cases hl
      refine tidy_ranged hlt hstart hpage hle (tidy_cons.mpr ⟨hN, hNb, hb⟩) ?_
      refine forall_mem_cons.mpr ⟨Nat.not_lt.mp h₃, fun q hq => ?_⟩
      have := hNb q hq
      simp only at this
      omega

end AndroidKernel.Mmap
