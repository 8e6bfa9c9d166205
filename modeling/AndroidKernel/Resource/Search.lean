import AndroidKernel.Resource.Links

/-!
# The search for a gap

`find_resource` looks at the gaps between the children one after another (`findResource_eq`). What
it finds is said by `Found`, for any list of gaps that are in order. The condition
`new->start < new->end` asks for at least two bytes, so that it looks for `Request.room` bytes where
`size` are asked for. As long as nothing wraps, it takes the lowest place. Two things wrap:

- `ALIGN` is zero for an address behind the last multiple of the alignment (`WrapsAt`);
- `this->end + 1` is zero behind a child that ends at the last address. Such a gap is empty, and
  stands in the list as one from `2 ^ 32`.
-/

namespace AndroidKernel.Resource

open List

namespace Resources

/-- What the caller of `allocate_resource` may ask for. -/
structure Request.Valid (req : Request) : Prop where
  size_pos : 1 ≤ req.size
  size_lt : req.size < 2 ^ 32
  min_lt : req.min < 2 ^ 32
  max_lt : req.max < 2 ^ 32
  align : ∃ k < 32, req.align = 2 ^ k

/-- How many bytes a gap must have for the request. -/
def Request.room (req : Request) : Nat := Max.max 2 req.size

/-- The bytes from `a` on are aligned and within the bounds of the request. -/
def Request.Fits (req : Request) (n a : Nat) : Prop :=
  a % req.align = 0 ∧ req.min ≤ a ∧ a + n - 1 ≤ req.max

variable {m : Resources} {root x k n a lo fuel t : Nat} {kids : List Nat} {req : Request}
  {g : Nat × Nat} {gs : List (Nat × Nat)}

/-! ## Alignment -/

theorem align_lt : align x n < 2 ^ 32 := Nat.lt_of_le_of_lt (Nat.sub_le ..) (ulong_lt _)

theorem align_two_pow : align x (2 ^ k) = ulong (x + (2 ^ k - 1 : Nat)) / 2 ^ k * 2 ^ k := by
  show ulong (x + (2 ^ k - 1 : Nat)) - (ulong (x + (2 ^ k - 1 : Nat)) &&& (2 ^ k - 1)) = _
  rw [Nat.and_two_pow_sub_one_eq_mod]
  have := Nat.div_add_mod' (ulong (x + (2 ^ k - 1 : Nat))) (2 ^ k)
  omega

theorem two_pow_le (hk : k < 32) : 2 * 2 ^ k ≤ 2 ^ 32 := by
  rw [← Nat.pow_succ']
  exact Nat.pow_le_pow_right Nat.two_pos hk

theorem aligned_le {b : Nat} (ha : a % k = 0) (hb : b % k = 0) (hab : a < b + k) : a ≤ b := by
  obtain ⟨p, rfl⟩ := Nat.dvd_of_mod_eq_zero ha
  obtain ⟨q, rfl⟩ := Nat.dvd_of_mod_eq_zero hb
  exact Nat.mul_le_mul_left k (Nat.le_of_lt_succ (Nat.lt_of_mul_lt_mul_left hab))

/-- Up to the last multiple of the alignment, `ALIGN` is the next multiple. -/
theorem align_spec (hk : k < 32) (hx : x ≤ 2 ^ 32 - 2 ^ k) :
    align x (2 ^ k) % 2 ^ k = 0 ∧ x ≤ align x (2 ^ k) ∧
      align x (2 ^ k) < x + 2 ^ k ∧ ∀ a, a % 2 ^ k = 0 → x ≤ a → align x (2 ^ k) ≤ a := by
  have hpow := two_pow_le hk
  have hpos := Nat.two_pow_pos k
  have hy : ulong (x + (2 ^ k - 1 : Nat)) = x + (2 ^ k - 1) := by
    unfold ulong
    omega
  rw [align_two_pow, hy]
  have hdiv := Nat.div_add_mod' (x + (2 ^ k - 1)) (2 ^ k)
  refine ⟨Nat.mul_mod_left .., by omega, by omega, fun a ha hxa => ?_⟩
  exact aligned_le (Nat.mul_mod_left ..) ha (by omega)

/-- Behind the last multiple it wraps. -/
theorem align_wraps (hk : k < 32) (hx : 2 ^ 32 - 2 ^ k < x) (hlt : x < 2 ^ 32) :
    align x (2 ^ k) = 0 := by
  have hpow := two_pow_le hk
  have hy : ulong (x + (2 ^ k - 1 : Nat)) < 2 ^ k := by
    unfold ulong
    omega
  rw [align_two_pow, Nat.div_eq_of_lt hy, zero_mul]

theorem le_of_aligned (hk : k < 32) (ha : a % 2 ^ k = 0) (hlt : a < 2 ^ 32) :
    a ≤ 2 ^ 32 - 2 ^ k := by
  have hpow := two_pow_le hk
  have hdvd : 2 ^ k ∣ 2 ^ 32 - 2 ^ k := Nat.dvd_sub (Nat.pow_dvd_pow 2 hk.le) (Nat.dvd_refl _)
  exact aligned_le ha (Nat.mod_eq_zero_of_dvd hdvd) (by omega)

/-! ## Lists of gaps -/

/-- The gaps from `lo` on: the first and the last address of each. -/
def gaps (m : Resources) (root : Nat) : Nat → List Nat → List (Nat × Nat)
  | lo, [] => [(lo, m.end_ root)]
  | lo, t :: kids => (lo, m.start t - 1) :: gaps m root (m.end_ t + 1) kids

/-- The loop of `find_resource` over a list of gaps. -/
def search (req : Request) : List (Nat × Nat) → Option Nat
  | [] => none
  | g :: gs =>
    if Takes req (clip req (ulong g.1) g.2).1 (clip req (ulong g.1) g.2).2 then
      some (clip req (ulong g.1) g.2).1
    else search req gs

/-- The gaps that `find_resource` looks at. -/
def rootGaps (m : Resources) (root : Nat) : List Nat → List (Nat × Nat)
  | [] => m.gaps root (m.start root) []
  | t :: kids =>
    if m.start t = 0 then m.gaps root (m.end_ t + 1) kids
    else m.gaps root (m.start root) (t :: kids)

/-- `n` bytes from `a` on are in one of the gaps. -/
def Within (gs : List (Nat × Nat)) (n a : Nat) : Prop := ∃ g ∈ gs, g.1 ≤ a ∧ a + n - 1 ≤ g.2

/-- The gaps are in order, and only the last may be the one behind the last address. -/
structure InOrder (gs : List (Nat × Nat)) : Prop where
  sorted : gs.Pairwise fun g g' => g.1 < 2 ^ 32 ∧ g.1 ≤ g'.1 ∧ g.2 < g'.1
  words : ∀ g ∈ gs, g.1 ≤ 2 ^ 32 ∧ g.2 < 2 ^ 32

theorem InOrder.tail (h : InOrder (g :: gs)) : InOrder gs :=
  ⟨h.sorted.of_cons, fun g' hg' => h.words g' (mem_cons_of_mem g hg')⟩

theorem within_cons : Within (g :: gs) n a ↔ (g.1 ≤ a ∧ a + n - 1 ≤ g.2) ∨ Within gs n a := by
  simp only [Within, mem_cons, exists_eq_or_imp]

theorem clip_eq : clip req lo n = (align (max lo req.min) req.align, min n req.max) := by
  refine Prod.ext ?_ ?_
  · show align (if lo < req.min then req.min else lo) req.align = align (max lo req.min) req.align
    congr 1
    split <;> omega
  · show (if req.max < n then req.max else n) = min n req.max
    split <;> omega

theorem takes_iff (hreq : req.Valid) : Takes req a n ↔ a + req.room - 1 ≤ n := by
  have hsize := hreq.size_pos
  have hlt := hreq.size_lt
  have hul : ulong ((req.size : Int) - 1) = req.size - 1 := by
    unfold ulong
    omega
  unfold Takes Request.room
  omega

/-- At this gap the alignment wraps, and there is room below the end of the gap. -/
def WrapsAt (req : Request) (g : Nat × Nat) : Prop :=
  2 ^ 32 - req.align < max (ulong g.1) req.min ∧ req.room - 1 ≤ min g.2 req.max

/-- The gap behind the last address is taken for one that starts at zero, and `a` is the lowest
place in it. -/
structure TopAt (req : Request) (g : Nat × Nat) (a : Nat) : Prop where
  top : g.1 = 2 ^ 32
  aligned : a % req.align = 0
  least : req.min ≤ a ∧ a < req.min + req.align
  room : a + req.room - 1 ≤ min g.2 req.max

/-- What the search finds. -/
inductive Found (req : Request) (gs : List (Nat × Nat)) : Option Nat → Prop
  | fits (a : Nat) (hfits : req.Fits req.room a) (hin : Within gs req.room a)
      (hleast : ∀ b, req.Fits req.room b → Within gs req.room b → a ≤ b) : Found req gs (some a)
  | wraps (hnone : ∀ b, req.Fits req.room b → ¬Within gs req.room b)
      (hwraps : ∃ g ∈ gs, WrapsAt req g) : Found req gs (some 0)
  | top (a : Nat) (hnone : ∀ b, req.Fits req.room b → ¬Within gs req.room b)
      (hwraps : ∀ g ∈ gs, ¬WrapsAt req g) (htop : ∃ g ∈ gs, TopAt req g a) : Found req gs (some a)
  | nothing (hnone : ∀ b, req.Fits req.room b → ¬Within gs req.room b)
      (hwraps : ∀ g ∈ gs, ¬WrapsAt req g) (htop : ∀ g ∈ gs, ∀ a, ¬TopAt req g a) : Found req gs none

/-- A gap that has nothing changes nothing. -/
theorem Found.cons {r : Option Nat} (h : Found req gs r)
    (hfits : ∀ b, req.Fits req.room b → ¬(g.1 ≤ b ∧ b + req.room - 1 ≤ g.2))
    (hwraps : ¬WrapsAt req g) (htop : ∀ a, ¬TopAt req g a) : Found req (g :: gs) r := by
  have hnone : (∀ b, req.Fits req.room b → ¬Within gs req.room b) →
      ∀ b, req.Fits req.room b → ¬Within (g :: gs) req.room b := by
    intro hgs b hb hin
    rcases within_cons.mp hin with hg | hin
    · exact hfits b hb hg
    · exact hgs b hb hin
  cases h with
  | fits a hfit hin hleast =>
    refine .fits a hfit (within_cons.mpr (.inr hin)) fun b hb hbin => ?_
    rcases within_cons.mp hbin with hg | hbin
    · exact absurd hg (hfits b hb)
    · exact hleast b hb hbin
  | wraps hgs hex =>
    obtain ⟨g', hg', hw⟩ := hex
    exact .wraps (hnone hgs) ⟨g', mem_cons_of_mem g hg', hw⟩
  | top a hgs hno hex =>
    obtain ⟨g', hg', ht⟩ := hex
    exact .top a (hnone hgs) (forall_mem_cons.mpr ⟨hwraps, hno⟩) ⟨g', mem_cons_of_mem g hg', ht⟩
  | nothing hgs hno hnotop =>
    exact .nothing (hnone hgs) (forall_mem_cons.mpr ⟨hwraps, hno⟩)
      (forall_mem_cons.mpr ⟨htop, hnotop⟩)

section Step

variable {b : Nat}

theorem two_le_room : 2 ≤ req.room := Nat.le_max_left ..

/-- A place in one of the other gaps is behind this one. -/
theorem InOrder.behind (h : InOrder (g :: gs)) (hb : Within gs n b) :
    g.1 < 2 ^ 32 ∧ g.1 ≤ b ∧ g.2 < b := by
  obtain ⟨g', hg', hb, -⟩ := hb
  have := rel_of_pairwise_cons h.sorted hg'
  omega

section

variable (hreq : req.Valid)

include hreq

theorem Request.Fits.le_last (hb : req.Fits req.room b) : b ≤ 2 ^ 32 - req.align := by
  obtain ⟨k, hk, halign⟩ := hreq.align
  obtain ⟨hb, -, hbmax⟩ := hb
  have hmax := hreq.max_lt
  have hroom := @two_le_room req
  rw [halign] at hb ⊢
  exact le_of_aligned hk hb (by omega)

theorem search_cons : search req (g :: gs) =
      if align (max (ulong g.1) req.min) req.align + req.room - 1 ≤ min g.2 req.max then
        some (align (max (ulong g.1) req.min) req.align) else search req gs := by
  show (if Takes req (clip req (ulong g.1) g.2).1 (clip req (ulong g.1) g.2).2 then _ else _) = _
  rw [clip_eq]
  simp only [takes_iff hreq]

/-- The alignment wraps at the first gap. -/
theorem found_cons_of_wraps (h : InOrder (g :: gs)) (ih : Found req gs (search req gs))
    (hwrap : 2 ^ 32 - req.align < max (ulong g.1) req.min) : Found req (g :: gs)
    (search req (g :: gs)) := by
  have hmin := hreq.min_lt
  have hmax := hreq.max_lt
  have hroom := @two_le_room req
  have hzero : align (max (ulong g.1) req.min) req.align = 0 := by
    obtain ⟨k, hk, halign⟩ := hreq.align
    have := ulong_lt g.1
    rw [halign] at hwrap ⊢
    exact align_wraps hk hwrap (by omega)
  -- No multiple of the alignment is so far up, here or in a later gap.
  have hfits : ∀ b, req.Fits req.room b → g.1 < 2 ^ 32 → ¬g.1 ≤ b := by
    intro b hb hlt hin
    have hle := hb.le_last hreq
    have hb' := hb.2
    rw [ulong_of_lt hlt] at hwrap
    omega
  rw [search_cons hreq, hzero]
  by_cases htakes : 0 + req.room - 1 ≤ min g.2 req.max
  · rw [if_pos htakes]
    refine .wraps (fun b hb hin => ?_) ⟨g, mem_cons_self, hwrap, by omega⟩
    have hb' := hb.2
    rcases within_cons.mp hin with hin | hin
    · exact hfits b hb (by omega) hin.1
    · have hge := h.behind hin
      exact hfits b hb hge.1 hge.2.1
  · rw [if_neg htakes]
    refine ih.cons (fun b hb hin => ?_) (fun hw => htakes ?_) fun a ht => ?_
    · have hb' := hb.2
      exact hfits b hb (by omega) hin.1
    · have := hw.2
      omega
    · have hroom' := ht.room
      omega

/-- The gap behind the last address, which is the last one. -/
theorem found_singleton_of_top (hwrap : ¬2 ^ 32 - req.align < max (ulong g.1) req.min)
    (htop : g.1 = 2 ^ 32) : Found req [g] (search req [g]) := by
  have hmax := hreq.max_lt
  have hroom := @two_le_room req
  have hzero : ulong g.1 = 0 := by
    rw [htop]
    decide
  have hspec : align req.min req.align % req.align = 0 ∧ req.min ≤ align req.min req.align ∧
      align req.min req.align < req.min + req.align ∧
      ∀ a, a % req.align = 0 → req.min ≤ a → align req.min req.align ≤ a := by
    obtain ⟨k, hk, halign⟩ := hreq.align
    rw [hzero, halign] at hwrap
    rw [halign]
    exact align_spec hk (Nat.not_lt.mp hwrap)
  obtain ⟨haligned, hge, hnext, hleast⟩ := hspec
  have hnone : ∀ b, req.Fits req.room b → ¬Within [g] req.room b := by
    rintro b hb ⟨g', hg', hin⟩
    obtain rfl := mem_singleton.mp hg'
    have hb' := hb.2
    omega
  have hwraps : ∀ g' ∈ [g], ¬WrapsAt req g' := by
    rintro g' hg' hw
    obtain rfl := mem_singleton.mp hg'
    exact hwrap hw.1
  rw [search_cons hreq, hzero, Nat.zero_max]
  by_cases htakes : align req.min req.align + req.room - 1 ≤ min g.2 req.max
  · rw [if_pos htakes]
    exact .top _ hnone hwraps ⟨g, mem_cons_self, htop, haligned, ⟨hge, hnext⟩, htakes⟩
  · rw [if_neg htakes]
    refine .nothing hnone hwraps fun g' hg' a ht => htakes ?_
    obtain rfl := mem_singleton.mp hg'
    have := hleast a ht.aligned ht.least.1
    have := ht.room
    omega

/-- Nothing wraps at the first gap. -/
theorem found_cons_of_aligned (h : InOrder (g :: gs)) (ih : Found req gs (search req gs))
    (hwrap : ¬2 ^ 32 - req.align < max (ulong g.1) req.min) (hlt : g.1 < 2 ^ 32) : Found req
    (g :: gs) (search req (g :: gs)) := by
  have hspec : align (max g.1 req.min) req.align % req.align = 0 ∧
      max g.1 req.min ≤ align (max g.1 req.min) req.align ∧
      ∀ a, a % req.align = 0 → max g.1 req.min ≤ a → align (max g.1 req.min) req.align ≤ a := by
    obtain ⟨k, hk, halign⟩ := hreq.align
    rw [ulong_of_lt hlt, halign] at hwrap
    rw [halign]
    obtain ⟨haligned, hge, -, hleast⟩ := align_spec hk (Nat.not_lt.mp hwrap)
    exact ⟨haligned, hge, hleast⟩
  rw [search_cons hreq, ulong_of_lt hlt]
  generalize align (max g.1 req.min) req.align = s at hspec
  obtain ⟨haligned, hge, hleast⟩ := hspec
  by_cases htakes : s + req.room - 1 ≤ min g.2 req.max
  · rw [if_pos htakes]
    refine .fits s ⟨haligned, by omega, by omega⟩ ⟨g, mem_cons_self, by omega, by omega⟩ ?_
    intro b hb hin
    rcases within_cons.mp hin with hin | hin
    · have hbmin := hb.2.1
      exact hleast b hb.1 (by omega)
    · have := h.behind hin
      omega
  · rw [if_neg htakes]
    refine ih.cons (fun b hb hin => htakes ?_) (fun hw => hwrap hw.1) fun a ht => ?_
    · have hb' := hb.2
      have := hleast b hb.1 (by omega)
      omega
    · have := ht.top
      omega

end

end Step

theorem search_found (hreq : req.Valid) (h : InOrder gs) : Found req gs (search req gs) := by
  induction gs with
  | nil =>
    refine .nothing (fun b _ hin => ?_) (fun _ hg => absurd hg not_mem_nil)
      fun _ hg => absurd hg not_mem_nil
    obtain ⟨g, hg, -⟩ := hin
    cases hg
  | cons g gs ih =>
    by_cases hwrap : 2 ^ 32 - req.align < max (ulong g.1) req.min
    · exact found_cons_of_wraps hreq h (ih h.tail) hwrap
    by_cases htop : g.1 = 2 ^ 32
    · have hgs : gs = [] := eq_nil_iff_forall_not_mem.mpr fun g' hg' => by
        have := (rel_of_pairwise_cons h.sorted hg').1
        omega
      subst hgs
      exact found_singleton_of_top hreq hwrap htop
    · have := (h.words g mem_cons_self).1
      exact found_cons_of_aligned hreq h (ih h.tail) hwrap (by omega)

/-! ## The gaps of a resource -/

/-- What the children from `lo` on must satisfy for their gaps to be in order. -/
structure Spaced (m : Resources) (root lo : Nat) (kids : List Nat) : Prop where
  from_lo : ∀ t ∈ kids, lo ≤ m.start t ∧ 1 ≤ m.start t
  proper : ∀ t ∈ kids, m.start t ≤ m.end_ t
  inside : ∀ t ∈ kids, m.end_ t ≤ m.end_ root
  sorted : kids.Pairwise fun y z => m.end_ y < m.start z
  root_lt : m.end_ root < 2 ^ 32
  lo_le : lo ≤ 2 ^ 32

theorem Spaced.head (h : Spaced m root lo (t :: kids)) : (lo ≤ m.start t ∧ 1 ≤ m.start t) ∧
    m.start t ≤ m.end_ t ∧ m.end_ t ≤ m.end_ root ∧ m.end_ root < 2 ^ 32 :=
  ⟨h.from_lo t mem_cons_self, h.proper t mem_cons_self, h.inside t mem_cons_self, h.root_lt⟩

theorem Spaced.tail (h : Spaced m root lo (t :: kids)) : Spaced m root (m.end_ t + 1) kids where
  from_lo y hy := by
    have := rel_of_pairwise_cons h.sorted hy
    omega
  proper y hy := h.proper y (mem_cons_of_mem t hy)
  inside y hy := h.inside y (mem_cons_of_mem t hy)
  sorted := h.sorted.of_cons
  root_lt := h.root_lt
  lo_le := by
    have := h.head
    omega

/-- Where the gaps are. -/
theorem of_mem_gaps (h : Spaced m root lo kids) (hg : g ∈ m.gaps root lo kids) :
    lo ≤ g.1 ∧ g.2 ≤ m.end_ root ∧ (g.1 = lo ∨ ∃ c ∈ kids, g.1 = m.end_ c + 1) := by
  induction kids generalizing lo with
  | nil =>
    obtain rfl := mem_singleton.mp hg
    exact ⟨le_rfl, le_rfl, .inl rfl⟩
  | cons t kids ih =>
    have hhead := h.head
    rcases mem_cons.mp hg with rfl | hg
    · exact ⟨le_rfl, by omega, .inl rfl⟩
    · obtain ⟨hlo, hhi, hfst⟩ := ih h.tail hg
      refine ⟨by omega, hhi, .inr ?_⟩
      rcases hfst with hfst | ⟨c, hc, hfst⟩
      · exact ⟨t, mem_cons_self, hfst⟩
      · exact ⟨c, mem_cons_of_mem t hc, hfst⟩

theorem gaps_inOrder (h : Spaced m root lo kids) : InOrder (m.gaps root lo kids) := by
  induction kids generalizing lo with
  | nil =>
    refine ⟨pairwise_singleton .., fun g hg => ?_⟩
    obtain rfl := mem_singleton.mp hg
    exact ⟨h.lo_le, h.root_lt⟩
  | cons t kids ih =>
    have hhead := h.head
    obtain ⟨hsorted, hwords⟩ := ih h.tail
    refine ⟨pairwise_cons.mpr ⟨fun g hg => ?_, hsorted⟩, forall_mem_cons.mpr ⟨?_, hwords⟩⟩
    · have := (of_mem_gaps h.tail hg).1
      omega
    · exact ⟨h.lo_le, by show m.start t - 1 < 2 ^ 32; omega⟩

/-- In a gap is what is apart from all children. -/
theorem within_gaps (h : Spaced m root lo kids) (hn : 1 ≤ n) : Within (m.gaps root lo kids) n a ↔
      lo ≤ a ∧ a + n - 1 ≤ m.end_ root ∧ ∀ t ∈ kids, a + n - 1 < m.start t ∨ m.end_ t < a := by
  induction kids generalizing lo with
  | nil => simp [gaps, Within]
  | cons t kids ih =>
    have hhead := h.head
    rw [gaps, within_cons, ih h.tail, forall_mem_cons]
    constructor
    · rintro (⟨hlo, hhi⟩ | ⟨hlo, hhi, hrest⟩)
      · refine ⟨hlo, by omega, by omega, fun y hy => ?_⟩
        have := rel_of_pairwise_cons h.sorted hy
        omega
      · exact ⟨by omega, hhi, by omega, hrest⟩
    · rintro ⟨hlo, hhi, ht, hrest⟩
      by_cases hbefore : a + n - 1 < m.start t
      · exact .inl ⟨hlo, by omega⟩
      · exact .inr ⟨by omega, hhi, hrest⟩

/-! ## The search along the links -/

/-- What `find_resource` returns, and `new->start` and `new->end` then. -/
structure Returns (req : Request) (found : Option Nat) (r : Option (Bool × Nat × Nat)) : Prop where
  eq : ∃ s e, r = some (found.isSome, s, e) ∧ s < 2 ^ 32 ∧ e < 2 ^ 32 ∧
    ∀ a ∈ found, s = a ∧ e = ulong ((a : Int) + req.size - 1)

/-- One round of the search. -/
theorem Returns.round {found : Option Nat} {r : Option (Bool × Nat × Nat)} (h : Returns req found r)
    (start end_ : Nat) : Returns req
      (if Takes req (clip req start end_).1 (clip req start end_).2 then
        some (clip req start end_).1 else found)
      (if Takes req (clip req start end_).1 (clip req start end_).2 then
        some (true, (clip req start end_).1, ulong ((clip req start end_).1 + req.size - 1))
        else r) := by
  split
  · refine ⟨_, _, rfl, align_lt, ulong_lt _, fun a ha => ?_⟩
    cases ha
    exact ⟨rfl, rfl⟩
  · exact h

theorem findLoop_returns {p : Option Nat} (hchain : Seg m.sibling p kids none)
    (h : Spaced m root lo kids) (hfuel : kids.length < fuel) :
    Returns req (search req (m.gaps root lo kids)) (m.findLoop root req fuel p (ulong lo)) := by
  induction kids generalizing fuel p lo with
  | nil =>
    cases hchain
    obtain ⟨fuel, rfl⟩ := Nat.exists_eq_add_of_lt hfuel
    have hend : (clip req (ulong lo) (m.end_ root)).2 < 2 ^ 32 := by
      have := h.root_lt
      rw [clip_eq]
      omega
    exact Returns.round ⟨_, _, rfl, align_lt, hend, fun _ ha => by cases ha⟩ (ulong lo) _
  | cons t kids ih =>
    obtain ⟨rfl, hchain⟩ := hchain
    cases fuel with
    | zero => cases hfuel
    | succ fuel =>
      have hend : ulong ((m.start t : Int) - 1) = m.start t - 1 := by
        have hhead := h.head
        unfold ulong
        omega
      rw [Resources.findLoop]
      rw [hend]
      exact (ih hchain h.tail (Nat.lt_of_succ_lt_succ hfuel)).round (ulong lo) (m.start t - 1)

/-- Behind a child that starts at zero. -/
theorem Kids.spaced_of_zero (h : Kids m root (t :: kids)) (hroot : m.end_ root < 2 ^ 32) :
    Spaced m root (m.end_ t + 1) kids where
  from_lo y hy := by
    have := rel_of_pairwise_cons h.sorted hy
    omega
  proper y hy := h.proper y (mem_cons_of_mem t hy)
  inside y hy := (h.inside y (mem_cons_of_mem t hy)).2
  sorted := h.sorted.of_cons
  root_lt := hroot
  lo_le := by
    have := (h.inside t mem_cons_self).2
    omega

/-- If the first child does not start at zero, none does. -/
theorem Kids.start_pos (h : Kids m root (t :: kids)) (hzero : m.start t ≠ 0) :
    ∀ y ∈ t :: kids, 1 ≤ m.start y := by
  intro y hy
  rcases mem_cons.mp hy with rfl | hy
  · omega
  · have := rel_of_pairwise_cons h.sorted hy
    omega

section

variable (h : Kids m root kids) (hroot : m.end_ root < 2 ^ 32) (hstart : m.start root < 2 ^ 32)

include h hroot hstart

theorem Kids.spaced (hzero : ∀ t ∈ kids, 1 ≤ m.start t) : Spaced m root (m.start root) kids :=
  ⟨fun t ht => ⟨(h.inside t ht).1, hzero t ht⟩, h.proper, fun t ht => (h.inside t ht).2, h.sorted,
    hroot, hstart.le⟩

theorem findResource_returns :
    Returns req (search req (m.rootGaps root kids)) (m.findResource root req) := by
  have hchain := h.chain
  have hlength := h.length_le
  unfold findResource
  cases kids with
  | nil =>
    rw [show m.child root = none from hchain]
    have hspaced := h.spaced hroot hstart fun _ ht => absurd ht not_mem_nil
    have hloop :=
      @findLoop_returns m root _ (m.num + 1) [] req none rfl hspaced (Nat.succ_pos m.num)
    rwa [ulong_of_lt hstart] at hloop
  | cons t kids =>
    obtain ⟨hchild, hrest⟩ := hchain
    rw [length_cons] at hlength
    simp only [hchild, rootGaps]
    by_cases hzero : m.start t = 0
    · rw [if_pos hzero, if_pos hzero]
      exact findLoop_returns hrest (h.spaced_of_zero hroot) (by omega)
    · rw [if_neg hzero, if_neg hzero]
      have hspaced := h.spaced hroot hstart (h.start_pos hzero)
      have hloop :=
        @findLoop_returns m root _ (m.num + 1) (t :: kids) req (some t) ⟨rfl, hrest⟩ hspaced
        (Nat.lt_succ_of_le hlength)
      rwa [ulong_of_lt hstart] at hloop

/-- The gaps of `root` are those from some address on. -/
theorem Kids.rootGaps_eq : ∃ lo kids', m.rootGaps root kids = m.gaps root lo kids' ∧
    Spaced m root lo kids' ∧ (lo = m.start root ∧ kids' = kids ∨
      ∃ t, kids = t :: kids' ∧ m.start t = 0 ∧ lo = m.end_ t + 1) := by
  cases kids with
  | nil =>
    exact ⟨_, [], rfl, h.spaced hroot hstart fun _ ht => absurd ht not_mem_nil, .inl ⟨rfl, rfl⟩⟩
  | cons t kids =>
    rw [rootGaps]
    by_cases hzero : m.start t = 0
    · rw [if_pos hzero]
      exact ⟨_, kids, rfl, h.spaced_of_zero hroot, .inr ⟨t, rfl, hzero, rfl⟩⟩
    · rw [if_neg hzero]
      exact ⟨_, t :: kids, rfl, h.spaced hroot hstart (h.start_pos hzero), .inl ⟨rfl, rfl⟩⟩

theorem rootGaps_inOrder : InOrder (m.rootGaps root kids) := by
  obtain ⟨lo, kids', heq, hspaced, -⟩ := h.rootGaps_eq hroot hstart
  rw [heq]
  exact gaps_inOrder hspaced

/-- `n` bytes from `a` on are in `root` and apart from its children. -/
def Clear (m : Resources) (root : Nat) (kids : List Nat) (n a : Nat) : Prop :=
  m.start root ≤ a ∧ a + n - 1 ≤ m.end_ root ∧ ∀ t ∈ kids, a + n - 1 < m.start t ∨ m.end_ t < a

theorem within_rootGaps (hn : 1 ≤ n) :
    Within (m.rootGaps root kids) n a ↔ Clear m root kids n a := by
  obtain ⟨lo, kids', heq, hspaced, hlo⟩ := h.rootGaps_eq hroot hstart
  rw [heq, within_gaps hspaced hn]
  rcases hlo with ⟨rfl, rfl⟩ | ⟨t, rfl, hzero, rfl⟩
  · rfl
  · have hinside := h.inside t mem_cons_self
    rw [Clear, forall_mem_cons]
    -- What is apart from a child at zero is behind it.
    constructor
    · rintro ⟨hlo, hhi, hrest⟩
      exact ⟨by omega, hhi, by omega, hrest⟩
    · rintro ⟨hlo, hhi, ht, hrest⟩
      exact ⟨by omega, hhi, hrest⟩

end

end Resources

end AndroidKernel.Resource
