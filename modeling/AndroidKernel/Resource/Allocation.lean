import AndroidKernel.Resource.Search
import Mathlib.Data.Nat.Find

/-!
# Allocation

`allocate_resource` is correct where it succeeds if and only if some aligned range of the requested
size is free, and `new` gets the lowest one. It is not always (`allocateResource_correct_iff`):

- A single byte is not found where the byte behind it is not free or beyond the bounds, because
  `find_resource` asks for `new->start < new->end` (`Missed`).
- Where `ALIGN` wraps it returns zero, and `new` is put at address zero, below `min` (`Wrapped`).

Either slip may make up for the other: `Rescued` are the single bytes that are found all the same,
because some address has wrapped.
-/

namespace AndroidKernel.Resource

open Function List Option

namespace Resources

variable {m : Resources} {root new n a b c lo : Nat} {kids : List Nat} {req : Request}
    {g : Nat × Nat}

/-! ## Where the gaps are -/

theorem first_mem_gaps (h : Spaced m root lo kids) (hlo : lo ≤ m.end_ root + 1) :
    ∃ hi, (lo, hi) ∈ m.gaps root lo kids ∧ lo ≤ hi + 1 := by
  cases kids with
  | nil => exact ⟨m.end_ root, mem_cons_self, hlo⟩
  | cons t kids =>
    have hhead := h.head
    exact ⟨m.start t - 1, mem_cons_self, by omega⟩

theorem last_mem_gaps : ∃ lo', (lo', m.end_ root) ∈ m.gaps root lo kids := by
  induction kids generalizing lo with
  | nil => exact ⟨lo, mem_cons_self⟩
  | cons t kids ih =>
    obtain ⟨lo', hlast⟩ := @ih (m.end_ t + 1)
    exact ⟨lo', mem_cons_of_mem _ hlast⟩

theorem behind_mem_gaps (h : Spaced m root lo kids) (hc : c ∈ kids) :
    ∃ hi, (m.end_ c + 1, hi) ∈ m.gaps root lo kids ∧ m.end_ c ≤ hi := by
  induction kids generalizing lo with
  | nil => cases hc
  | cons t kids ih =>
    rcases mem_cons.mp hc with rfl | hc
    · have hinside := h.inside c mem_cons_self
      obtain ⟨hi, hmem, hle⟩ := first_mem_gaps h.tail (Nat.succ_le_succ hinside)
      exact ⟨hi, mem_cons_of_mem _ hmem, Nat.le_of_succ_le_succ hle⟩
    · obtain ⟨hi, hmem, hle⟩ := ih h.tail hc
      exact ⟨hi, mem_cons_of_mem _ hmem, hle⟩

/-- The children of `root`, and that all addresses are such. -/
structure Known (m : Resources) (root : Nat) (kids : List Nat) : Prop where
  kids : Kids m root kids
  start_lt : m.start root < 2 ^ 32
  end_lt : m.end_ root < 2 ^ 32

namespace Known

variable (h : Known m root kids)
include h

theorem of_mem_rootGaps (hg : g ∈ m.rootGaps root kids) :
    g.2 ≤ m.end_ root ∧ (g.1 = m.start root ∨ ∃ c ∈ kids, g.1 = m.end_ c + 1) := by
  obtain ⟨lo, kids', heq, hspaced, hlo⟩ := h.kids.rootGaps_eq h.end_lt h.start_lt
  rw [heq] at hg
  obtain ⟨-, hsnd, hfst⟩ := of_mem_gaps hspaced hg
  refine ⟨hsnd, ?_⟩
  rcases hlo with ⟨rfl, rfl⟩ | ⟨t, rfl, -, rfl⟩
  · exact hfst
  · rcases hfst with hfst | ⟨c, hc, hfst⟩
    · exact .inr ⟨t, mem_cons_self, hfst⟩
    · exact .inr ⟨c, mem_cons_of_mem t hc, hfst⟩

theorem last_mem : ∃ lo', (lo', m.end_ root) ∈ m.rootGaps root kids := by
  obtain ⟨lo, kids', heq, -⟩ := h.kids.rootGaps_eq h.end_lt h.start_lt
  rw [heq]
  exact last_mem_gaps

theorem behind_mem (hc : c ∈ kids) :
    ∃ hi, (m.end_ c + 1, hi) ∈ m.rootGaps root kids ∧ m.end_ c ≤ hi := by
  obtain ⟨lo, kids', heq, hspaced, hlo⟩ := h.kids.rootGaps_eq h.end_lt h.start_lt
  have hinside := (h.kids.inside c hc).2
  rw [heq]
  rcases hlo with ⟨-, rfl⟩ | ⟨t, rfl, -, rfl⟩
  · exact behind_mem_gaps hspaced hc
  · rcases mem_cons.mp hc with rfl | hc
    · obtain ⟨hi, hin, hle⟩ := first_mem_gaps hspaced (Nat.succ_le_succ hinside)
      exact ⟨hi, hin, Nat.le_of_succ_le_succ hle⟩
    · exact behind_mem_gaps hspaced hc

end Known

/-! ## What is free -/

/-- `n` bytes from `a` on are free and meet the request. -/
def Free (m : Resources) (root : Nat) (kids : List Nat) (req : Request) (n a : Nat) : Prop :=
  req.Fits n a ∧ Clear m root kids n a

def Lowest (m : Resources) (root : Nat) (kids : List Nat) (req : Request) (n a : Nat) : Prop :=
  Free m root kids req n a ∧ ∀ b, Free m root kids req n b → a ≤ b

/-- Behind some child the alignment wraps. -/
def WrapsBehind (m : Resources) (kids : List Nat) (req : Request) : Prop :=
  ∃ c ∈ kids, 2 ^ 32 - req.align ≤ m.end_ c ∧ m.end_ c < 2 ^ 32 - 1

/-- A single byte that is found because an address wraps: `ALIGN` behind some child, or else the
address behind a child that ends at the last one. -/
def Rescued (m : Resources) (kids : List Nat) (req : Request) (a : Nat) : Prop :=
  WrapsBehind m kids req ∧ a = 0 ∧ 0 < req.max ∨
    ¬WrapsBehind m kids req ∧ (∃ c ∈ kids, m.end_ c = 2 ^ 32 - 1) ∧ a < req.min + req.align ∧
      a < req.max

/-- A single byte is asked for, and in the lowest place there is room for no more. -/
def Missed (m : Resources) (root : Nat) (kids : List Nat) (req : Request) : Prop :=
  req.size = 1 ∧ ∃ a, Lowest m root kids req 1 a ∧ ¬Free m root kids req 2 a ∧
    ((∃ b, Free m root kids req 2 b) ∨ ¬Rescued m kids req a)

/-- Nothing is free that meets the request, `ALIGN` wraps, and the bytes from zero on are clear. -/
def Wrapped (m : Resources) (root : Nat) (kids : List Nat) (req : Request) : Prop :=
  (∀ a, ¬Free m root kids req req.size a) ∧ 0 < req.min ∧ Clear m root kids req.size 0 ∧
    req.room - 1 ≤ req.max ∧ req.room - 1 ≤ m.end_ root ∧
    (2 ^ 32 - req.align < req.min ∨ WrapsBehind m kids req)

theorem Free.mono {n' : Nat} (h : Free m root kids req n' a) (hn : n ≤ n') :
    Free m root kids req n a := by
  obtain ⟨⟨haligned, hmin, hmax⟩, hstart, hend, hkids⟩ := h
  refine ⟨⟨haligned, hmin, by omega⟩, hstart, by omega, fun t ht => ?_⟩
  have := hkids t ht
  omega

theorem Lowest.unique (ha : Lowest m root kids req n a) (hb : Lowest m root kids req n b) : a = b :=
  Nat.le_antisymm (ha.2 b hb.1) (hb.2 a ha.1)

theorem exists_lowest (h : ∃ a, Free m root kids req n a) : ∃ a, Lowest m root kids req n a := by
  classical
  exact ⟨Nat.find h, Nat.find_spec h, fun b hb => Nat.find_min' h hb⟩

namespace Known

variable (h : Known m root kids)
include h

theorem within_iff (hn : 1 ≤ n) : Within (m.rootGaps root kids) n a ↔ Clear m root kids n a :=
  within_rootGaps h.kids h.end_lt h.start_lt hn

/-- Where the alignment may wrap. -/
theorem wraps_cases (hw : ∃ g ∈ m.rootGaps root kids, WrapsAt req g) :
    req.room - 1 ≤ req.max ∧ req.room - 1 ≤ m.end_ root ∧
      (2 ^ 32 - req.align < req.min ∨ 2 ^ 32 - req.align < m.start root ∨
        WrapsBehind m kids req) := by
  obtain ⟨g, hg, hwrap, hroom⟩ := hw
  obtain ⟨hsnd, hfst⟩ := h.of_mem_rootGaps hg
  refine ⟨by omega, by omega, ?_⟩
  by_cases hmin : 2 ^ 32 - req.align < req.min
  · exact .inl hmin
  rcases hfst with hfst | ⟨c, hc, hfst⟩
  · rw [hfst, ulong_of_lt h.start_lt] at hwrap
    exact .inr (.inl (by omega))
  · have hinside := (h.kids.inside c hc).2
    have hroot := h.end_lt
    refine .inr (.inr ⟨c, hc, ?_⟩)
    by_cases htop : m.end_ c + 1 = 2 ^ 32
    · rw [hfst, htop] at hwrap
      have : ulong ((2 ^ 32 : Nat) : Int) = 0 := by decide
      omega
    · rw [ulong_of_lt (by omega)] at hwrap
      omega

theorem wraps_of_behind (hc : c ∈ kids) (hlo : 2 ^ 32 - req.align ≤ m.end_ c)
    (hhi : m.end_ c < 2 ^ 32 - 1)
    (hroom : req.room - 1 ≤ m.end_ c) (hmax : req.room - 1 ≤ req.max) :
    ∃ g ∈ m.rootGaps root kids, WrapsAt req g := by
  obtain ⟨hi, hmem, hle⟩ := h.behind_mem hc
  refine ⟨_, hmem, ?_, ?_⟩
  · rw [ulong_of_lt (by omega)]
    omega
  · omega

theorem child_of_topAt (hg : g ∈ m.rootGaps root kids) (ht : TopAt req g a) :
    ∃ c ∈ kids, m.end_ c = 2 ^ 32 - 1 := by
  have htop := ht.top
  have hstart := h.start_lt
  rcases (h.of_mem_rootGaps hg).2 with hfst | ⟨c, hc, hfst⟩
  · omega
  · exact ⟨c, hc, by omega⟩

/-- Where `Wrapped` says so, some gap has wrapped. -/
theorem wraps_of_wrapped (hreq : req.Valid) (hw : Wrapped m root kids req) :
    ∃ g ∈ m.rootGaps root kids, WrapsAt req g := by
  obtain ⟨-, -, hclear, hmax, hroot, hwraps⟩ := hw
  rcases hwraps with hmin | ⟨c, hc, hlo, hhi⟩
  · obtain ⟨lo', hlast⟩ := h.last_mem
    refine ⟨_, hlast, ?_, ?_⟩
    · omega
    · omega
  refine h.wraps_of_behind hc hlo hhi ?_ hmax
  obtain ⟨k, hk, halign⟩ := hreq.align
  have hproper := h.kids.proper c hc
  have hapart := hclear.2.2 c hc
  unfold Request.room
  omega

end Known

/-! ## When the search is right -/

/-- The place found is clear if and only if something is free, and then it is the lowest one. -/
def Right (m : Resources) (root : Nat) (kids : List Nat) (req : Request)
    (found : Option Nat) : Prop :=
  ((∃ a ∈ found, Clear m root kids req.size a) ↔ ∃ a, Free m root kids req req.size a) ∧
    ∀ a ∈ found, Clear m root kids req.size a → Lowest m root kids req req.size a

theorem right_some : Right m root kids req (some a) ↔
      (Clear m root kids req.size a ↔ ∃ b, Free m root kids req req.size b) ∧
        (Clear m root kids req.size a → Lowest m root kids req req.size a) := by
  simp [Right]

theorem room_of_single (hsize : req.size = 1) : req.room = 2 := by
  show Max.max 2 req.size = 2
  rw [hsize]
  rfl

/-- Nothing of the size that the search looks for is free, but something of the requested size:
then it is a single byte. -/
theorem single_of_free (hreq : req.Valid) (hnone : ∀ b, ¬Free m root kids req req.room b)
    (hfree : ∃ a, Free m root kids req req.size a) :
    req.size = 1 ∧ ∃ a, Lowest m root kids req 1 a ∧
      (Missed m root kids req ↔ ¬Rescued m kids req a) := by
  have hsize : req.size = 1 := by
    obtain ⟨a, ha⟩ := hfree
    have hpos := hreq.size_pos
    by_contra hne
    have hroom : req.room = req.size := Nat.max_eq_right (by omega)
    exact hnone a (hroom ▸ ha)
  rw [hsize] at hfree
  obtain ⟨a, ha⟩ := exists_lowest hfree
  have htwo : ∀ b, ¬Free m root kids req 2 b := by
    have hroom := room_of_single hsize
    rwa [hroom] at hnone
  refine ⟨hsize, a, ha, ?_⟩
  constructor
  · rintro ⟨-, b, hb, -, hex | hres⟩
    · obtain ⟨c, hc⟩ := hex
      exact absurd hc (htwo c)
    · rwa [ha.unique hb]
  · exact fun hres => ⟨hsize, a, ha, htwo a, .inr hres⟩

theorem not_missed_of_none (hnone : ∀ a, ¬Free m root kids req req.size a) :
    ¬Missed m root kids req := by
  rintro ⟨hsize, a, ha, -⟩
  exact hnone a (hsize ▸ ha.1)

theorem right_of_fits (hreq : req.Valid) (ha : Free m root kids req req.room a)
    (hleast : ∀ b, Free m root kids req req.room b → a ≤ b) :
    Right m root kids req (some a) ↔ ¬Missed m root kids req ∧ ¬Wrapped m root kids req := by
  have hfree : Free m root kids req req.size a := ha.mono (Nat.le_max_right ..)
  have hwrapped : ¬Wrapped m root kids req := fun hw => hw.1 a hfree
  have hright : Right m root kids req (some a) ↔ Lowest m root kids req req.size a := by
    rw [right_some]
    constructor
    · exact fun hr => hr.2 hfree.2
    · exact fun hl => ⟨iff_of_true hfree.2 ⟨a, hfree⟩, fun _ => hl⟩
  rw [hright, and_iff_left hwrapped]
  by_cases hsize : req.size = 1
  · rw [room_of_single hsize] at ha hleast
    constructor
    · rintro hl ⟨-, b, hb, htwo, -⟩
      rw [hsize] at hl
      obtain rfl := hl.unique hb
      exact htwo ha
    · intro hmissed
      obtain ⟨b, hb⟩ := exists_lowest ⟨a, hfree⟩
      have htwo : Free m root kids req 2 b := by
        by_contra hnot
        exact hmissed ⟨hsize, b, hsize ▸ hb, hnot, .inl ⟨a, ha⟩⟩
      obtain rfl := Nat.le_antisymm (hb.2 a hfree) (hleast b htwo)
      exact hb
  · have hpos := hreq.size_pos
    have hroom : req.room = req.size := Nat.max_eq_right (by omega)
    rw [hroom] at hleast
    exact iff_of_true ⟨hfree, hleast⟩ fun hmissed => hsize hmissed.1

section Cases

variable (h : Known m root kids) (hreq : req.Valid)
include h hreq

theorem right_of_wraps (hnone : ∀ b, ¬Free m root kids req req.room b)
    (hwraps : ∃ g ∈ m.rootGaps root kids, WrapsAt req g) :
    Right m root kids req (some 0) ↔ ¬Missed m root kids req ∧ ¬Wrapped m root kids req := by
  obtain ⟨hmax, hroot, hcases⟩ := h.wraps_cases hwraps
  rw [right_some]
  by_cases hfree : ∃ a, Free m root kids req req.size a
  · obtain ⟨hsize, a, ha, hmissed⟩ := single_of_free hreq hnone hfree
    have hwrapped : ¬Wrapped m root kids req := by
      obtain ⟨b, hb⟩ := hfree
      exact fun hw => hw.1 b hb
    -- The free byte is a multiple of the alignment, so it is the gap behind a child that has
    -- wrapped.
    have hbehind : WrapsBehind m kids req := by
      obtain ⟨⟨⟨haligned, hamin, hamax⟩, hastart, -⟩, -⟩ := ha
      obtain ⟨k, hk, halign⟩ := hreq.align
      have := hreq.max_lt
      rw [halign] at haligned
      have hle := le_of_aligned hk haligned (by omega)
      rcases hcases with hmin | hstart | hbehind
      · omega
      · omega
      · exact hbehind
    have hres : Rescued m kids req a ↔ a = 0 := by
      have htwo := @two_le_room req
      constructor
      · rintro (⟨-, ha, -⟩ | ⟨hnot, -⟩)
        · exact ha
        · exact absurd hbehind hnot
      · exact fun ha => .inl ⟨hbehind, ha, by omega⟩
    rw [hmissed, not_not, hres, and_iff_left hwrapped, iff_true_right hfree, hsize]
    constructor
    · exact fun ⟨hclear, hlow⟩ => ha.unique (hlow hclear)
    · rintro rfl
      exact ⟨ha.1.2, fun _ => ha⟩
  · have hnot := not_exists.mp hfree
    rw [iff_false_right hfree, and_iff_right (not_missed_of_none hnot)]
    have hwrapped : Wrapped m root kids req ↔ Clear m root kids req.size 0 := by
      refine ⟨fun hw => hw.2.2.1, fun hclear => ⟨hnot, ?_, hclear, hmax, hroot, ?_⟩⟩
      · rw [Nat.pos_iff_ne_zero]
        intro hzero
        have hsize : req.size ≤ req.room := Nat.le_max_right ..
        exact hnot 0 ⟨⟨Nat.zero_mod _, hzero.le, by omega⟩, hclear⟩
      · have hstart := hclear.1
        rcases hcases with hmin | hstart | hbehind
        · exact .inl hmin
        · omega
        · exact .inr hbehind
    rw [hwrapped]
    exact ⟨And.left, fun hclear => ⟨hclear, fun hc => absurd hc hclear⟩⟩

/-- Where no gap has wrapped and nothing of the size that the search looks for is free. -/
theorem not_wrapped_of_not_wraps (hwraps : ∀ g ∈ m.rootGaps root kids, ¬WrapsAt req g) :
    ¬Wrapped m root kids req := by
  intro hw
  obtain ⟨g, hg, hwrap⟩ := h.wraps_of_wrapped hreq hw
  exact hwraps g hg hwrap

theorem rescued_iff_of_not_wraps (hsize : req.size = 1)
    (hwraps : ∀ g ∈ m.rootGaps root kids, ¬WrapsAt req g) : Rescued m kids req a ↔
      (∃ c ∈ kids, m.end_ c = 2 ^ 32 - 1) ∧ a < req.min + req.align ∧ a < req.max := by
  have hroom := room_of_single hsize
  have hbehind : WrapsBehind m kids req → req.max = 0 := by
    rintro ⟨c, hc, hlo, hhi⟩
    obtain ⟨k, hk, halign⟩ := hreq.align
    have hpow := two_pow_le hk
    by_contra hne
    obtain ⟨g, hg, hwrap⟩ := h.wraps_of_behind hc hlo hhi (by rw [halign] at hlo; omega) (by omega)
    exact hwraps g hg hwrap
  constructor
  · rintro (⟨hw, -, hmax⟩ | ⟨-, hrest⟩)
    · exact absurd (hbehind hw) (Nat.ne_of_gt hmax)
    · exact hrest
  · refine fun hrest => .inr ⟨fun hw => ?_, hrest⟩
    have := hbehind hw
    omega

section

variable (hnone : ∀ b, ¬Free m root kids req req.room b)
  (hwraps : ∀ g ∈ m.rootGaps root kids, ¬WrapsAt req g)

include hnone hwraps

theorem right_of_top (htop : ∃ g ∈ m.rootGaps root kids, TopAt req g a) :
    Right m root kids req (some a) ↔ ¬Missed m root kids req ∧ ¬Wrapped m root kids req := by
  obtain ⟨g, hg, ht⟩ := htop
  have hchild := h.child_of_topAt hg ht
  have hroom := ht.room
  have hsize : req.size ≤ req.room := Nat.le_max_right ..
  have htwo := @two_le_room req
  have hfits : req.Fits req.size a := ⟨ht.aligned, ht.least.1, by omega⟩
  have hlowest : Clear m root kids req.size a → Lowest m root kids req req.size a := by
    refine fun hclear => ⟨⟨hfits, hclear⟩, fun b hb => aligned_le ht.aligned hb.1.1 ?_⟩
    have := hb.1.2.1
    have := ht.least.2
    omega
  rw [right_some, and_iff_left hlowest, and_iff_left (not_wrapped_of_not_wraps h hreq hwraps)]
  by_cases hfree : ∃ a, Free m root kids req req.size a
  · obtain ⟨hone, b, hb, hmissed⟩ := single_of_free hreq hnone hfree
    rw [hmissed, not_not, rescued_iff_of_not_wraps h hreq hone hwraps, iff_true_right hfree]
    rw [hone] at hlowest ⊢
    constructor
    · intro hclear
      obtain rfl := (hlowest hclear).unique hb
      exact ⟨hchild, ht.least.2, by omega⟩
    · rintro ⟨-, hnext, -⟩
      have hba : b ≤ a := by
        refine aligned_le hb.1.1.1 ht.aligned ?_
        have := ht.least.1
        omega
      have hab : a ≤ b := by
        refine aligned_le ht.aligned hb.1.1.1 ?_
        have := hb.1.1.2.1
        have := ht.least.2
        omega
      obtain rfl := Nat.le_antisymm hba hab
      exact hb.1.2
  · refine iff_of_true (iff_of_false (fun hclear => hfree ⟨a, hfits, hclear⟩) hfree) ?_
    exact not_missed_of_none (not_exists.mp hfree)

theorem right_of_nothing (htop : ∀ g ∈ m.rootGaps root kids, ∀ a, ¬TopAt req g a) :
    Right m root kids req none ↔ ¬Missed m root kids req ∧ ¬Wrapped m root kids req := by
  have hright : Right m root kids req none ↔ ¬∃ a, Free m root kids req req.size a := by
    simp [Right]
  rw [hright, and_iff_left (not_wrapped_of_not_wraps h hreq hwraps)]
  by_cases hfree : ∃ a, Free m root kids req req.size a
  · obtain ⟨hone, a, ha, hmissed⟩ := single_of_free hreq hnone hfree
    rw [hmissed, not_not, rescued_iff_of_not_wraps h hreq hone hwraps]
    refine iff_of_false (not_not_intro hfree) ?_
    rintro ⟨⟨c, hc, hend⟩, hnext, hmax⟩
    have hroom := room_of_single hone
    have hlt := hreq.max_lt
    obtain ⟨hi, hmem, hle⟩ := h.behind_mem hc
    refine htop _ hmem a ⟨?_, ha.1.1.1, ⟨ha.1.1.2.1, hnext⟩, ?_⟩
    · omega
    · omega
  · exact iff_of_true hfree (not_missed_of_none (not_exists.mp hfree))

end

theorem search_right_iff : Right m root kids req (search req (m.rootGaps root kids)) ↔
      ¬Missed m root kids req ∧ ¬Wrapped m root kids req := by
  have hfound := search_found hreq (rootGaps_inOrder h.kids h.end_lt h.start_lt)
  have hroom : 1 ≤ req.room := Nat.le_trans (Nat.le_succ 1) two_le_room
  have hnone : (∀ b, req.Fits req.room b → ¬Within (m.rootGaps root kids) req.room b) →
      ∀ b, ¬Free m root kids req req.room b := fun hno b hb =>
    hno b hb.1 ((h.within_iff hroom).mpr hb.2)
  generalize search req (m.rootGaps root kids) = found at hfound
  cases hfound with
  | fits a hfits hin hleast =>
    refine right_of_fits hreq ⟨hfits, (h.within_iff hroom).mp hin⟩ fun b hb => ?_
    exact hleast b hb.1 ((h.within_iff hroom).mpr hb.2)
  | wraps hno hwraps => exact right_of_wraps h hreq (hnone hno) hwraps
  | top a hno hwraps htop => exact right_of_top h hreq (hnone hno) hwraps htop
  | nothing hno hwraps htop => exact right_of_nothing h hreq (hnone hno) hwraps htop

end Cases

/-! ## The call -/

/-- A request is granted where the range is clear. -/
theorem requestResource_clear (h : Kids m root kids) (hproper : m.start new ≤ m.end_ new)
    (hn : m.end_ new = m.start new + n - 1) :
    ∃ r, m.requestResource root new = some r ∧ (r.1 = none ↔ Clear m root kids n (m.start new)) ∧
      r.2.start = m.start ∧ r.2.end_ = m.end_ ∧ (r.1 = none → r.2.parent new = some root) ∧
      (r.1 ≠ none → r.2 = m) := by
  obtain ⟨r, hr, hcases⟩ := @requestResource_cases m root new kids h
  refine ⟨r, hr, ?_⟩
  unfold Clear
  rw [← hn]
  rcases hcases with ⟨rfl, hnot⟩ | ⟨hfits, hreq⟩
  · refine ⟨iff_of_false nofun fun hclear => hnot ⟨hproper, hclear.1, hclear.2.1⟩, rfl, rfl, nofun,
      fun _ => rfl⟩
  cases hreq with
  | placed pre post hkids hpre hpost =>
    refine ⟨iff_of_true rfl ⟨hfits.2.1, hfits.2.2, ?_⟩, start_insertAt, end_insertAt,
      fun _ => ?_, fun hne => absurd rfl hne⟩
    · subst hkids
      exact forall_mem_append.mpr ⟨fun t ht => .inr (hpre t ht), fun t ht => .inl (hpost t ht)⟩
    · rw [parent_insertAt, update_self]
  | conflict pre t post hkids hpre hstart hend =>
    refine ⟨iff_of_false nofun fun hclear => ?_, rfl, rfl, nofun, fun _ => rfl⟩
    have := hclear.2.2 t (hkids ▸ mem_append_right pre mem_cons_self)
    omega

/-- What a caller of `allocate_resource` relies on. -/
structure Correct (m : Resources) (root new : Nat) (kids : List Nat) (req : Request)
    (r : Bool × Resources) : Prop where
  succeeds : r.1 = true ↔ ∃ a, Free m root kids req req.size a
  lowest : r.1 = true → Lowest m root kids req req.size (r.2.start new) ∧
    r.2.end_ new = r.2.start new + req.size - 1 ∧ r.2.parent new = some root
  unchanged : r.1 = false → r.2.parent = m.parent ∧ r.2.child = m.child ∧ r.2.sibling = m.sibling ∧
    ∀ x ≠ new, r.2.start x = m.start x ∧ r.2.end_ x = m.end_ x

/-- What the call does with the place that the search has found. -/
theorem allocateResource_found (h : Known m root kids) (hreq : req.Valid) (hne : root ≠ new)
    (hnew : new ∉ kids) : ∃ r, m.allocateResource root new req = some r ∧
      (r.1 = true ↔ ∃ a ∈ search req (m.rootGaps root kids), Clear m root kids req.size a) ∧
      (r.1 = true → r.2.start new ∈ search req (m.rootGaps root kids) ∧
        r.2.end_ new = r.2.start new + req.size - 1 ∧ r.2.parent new = some root) ∧
      (r.1 = false → r.2.parent = m.parent ∧ r.2.child = m.child ∧ r.2.sibling = m.sibling ∧
        ∀ x ≠ new, r.2.start x = m.start x ∧ r.2.end_ x = m.end_ x) := by
  have hfound := search_found hreq (rootGaps_inOrder h.kids h.end_lt h.start_lt)
  obtain ⟨s, e, hfind, -, -, hset⟩ :=
    (@findResource_returns m root kids req h.kids h.end_lt h.start_lt).eq
  have hfar : ∀ x ≠ new, (m.setRange new s e).start x = m.start x ∧
      (m.setRange new s e).end_ x = m.end_ x := fun x hx =>
    ⟨update_of_ne hx .., update_of_ne hx ..⟩
  have hkids : Kids (m.setRange new s e) root kids :=
    h.kids.setRange hnew fun heq => absurd heq hne
  unfold allocateResource
  rw [hfind]
  simp only [bind_eq_bind, bind_some]
  generalize search req (m.rootGaps root kids) = found at hfound hset
  cases found with
  | none =>
    refine ⟨_, if_neg nofun, iff_of_false nofun nofun, nofun, fun _ => ⟨rfl, rfl, rfl, hfar⟩⟩
  | some a =>
    obtain ⟨rfl, he⟩ := hset a rfl
    have hsize := hreq.size_pos
    -- What is found does not go beyond the bounds of the request.
    have hend : e = s + req.size - 1 := by
      have hle : s + req.room - 1 ≤ req.max := by
        cases hfound with
        | fits _ hfits _ _ => exact hfits.2.2
        | wraps _ hwraps =>
          obtain ⟨g, -, hwrap⟩ := hwraps
          have := hwrap.2
          omega
        | top _ _ _ htop =>
          obtain ⟨g, -, ht⟩ := htop
          have := ht.room
          omega
      have hmax := hreq.max_lt
      have hroom : req.size ≤ req.room := Nat.le_max_right ..
      rw [he]
      unfold ulong
      omega
    have hstart' : (m.setRange new s e).start new = s := update_self ..
    have hend' : (m.setRange new s e).end_ new = e := update_self ..
    obtain ⟨r, hr, hclear, hstart, hrend, hparent, hsame⟩ :=
      @requestResource_clear (m.setRange new s e) root new req.size kids hkids (by omega) (by omega)
    have hclear' : Clear (m.setRange new s e) root kids req.size s ↔
      Clear m root kids req.size s := by
      have hroot := hfar root hne
      unfold Clear
      rw [hroot.1, hroot.2]
      refine and_congr_right fun _ => and_congr_right fun _ => forall₂_congr fun t ht => ?_
      have ht := hfar t fun heq => hnew (heq ▸ ht)
      rw [ht.1, ht.2]
    rw [hstart', hclear'] at hclear
    rw [hr]
    refine ⟨_, rfl, ?_, fun hok => ?_, fun hfail => ?_⟩
    · rw [decide_eq_true_iff, hclear]
      simp
    · have hnone : r.1 = none := of_decide_eq_true hok
      refine ⟨?_, ?_, hparent hnone⟩
      · rw [hstart, hstart']
        rfl
      · rw [hstart, hrend, hstart', hend', hend]
    · have hsome : r.1 ≠ none := of_decide_eq_false hfail
      rw [hsame hsome]
      exact ⟨rfl, rfl, rfl, hfar⟩

/-- `allocate_resource` is correct exactly where no single byte is missed and nothing wraps to zero.
-/
theorem allocateResource_correct_iff (h : Known m root kids) (hreq : req.Valid) (hne : root ≠ new)
    (hnew : new ∉ kids) : ∃ r, m.allocateResource root new req = some r ∧
      (Correct m root new kids req r ↔ ¬Missed m root kids req ∧ ¬Wrapped m root kids req) := by
  obtain ⟨r, hr, hok, hrange, hfail⟩ := allocateResource_found h hreq hne hnew
  refine ⟨r, hr, ?_⟩
  rw [← search_right_iff h hreq]
  constructor
  · rintro ⟨hsucceeds, hlowest, -⟩
    refine ⟨hok.symm.trans hsucceeds, fun a ha hclear => ?_⟩
    have htrue : r.1 = true := hok.mpr ⟨a, ha, hclear⟩
    have hstart := (hrange htrue).1
    rw [ha] at hstart
    cases hstart
    exact (hlowest htrue).1
  · rintro ⟨hiff, hlow⟩
    refine ⟨hok.trans hiff, fun htrue => ?_, hfail⟩
    obtain ⟨a, ha, hclear⟩ := hok.mp htrue
    obtain ⟨hstart, hrest⟩ := hrange htrue
    have hlowest := hlow a ha hclear
    rw [ha] at hstart
    cases hstart
    exact ⟨hlowest, hrest⟩

/-- Ports of which those from `0x10` up to `next` are free. -/
def ports (next : Nat) : Resources where
  start x := if x = 2 then next else 0
  end_ x := if x = 1 then 0xF else 0xFFFF
  parent x := if x = 1 ∨ x = 2 then some 0 else none
  sibling x := if x = 1 then some 2 else none
  child x := if x = 0 then some 1 else none
  num := 4

theorem known_ports {next : Nat} (hnext : next = 0x11 ∨ next = 0x20) :
    Known (ports next) 0 [1, 2] := by
  have hkids : ∀ y, y ∈ [1, 2] ↔ (ports next).parent y = some 0 := by
    intro y
    simp only [ports, ite_none_right_eq_some]
    simp
  rcases hnext with rfl | rfl <;>
    exact ⟨⟨⟨rfl, rfl, rfl⟩, hkids, by decide, by decide, by decide, by decide⟩,
      by decide, by decide⟩

/-- A request for eight of sixteen free ports. -/
theorem allocateResource_correct_iff_sixteen :
    (Known (ports 0x20) 0 [1, 2] ∧ (Request.mk 8 4 0xFFFF 8).Valid ∧ 0 ≠ 3 ∧ 3 ∉ [1, 2]) ∧
      (¬Missed (ports 0x20) 0 [1, 2] ⟨8, 4, 0xFFFF, 8⟩ ∧
        ¬Wrapped (ports 0x20) 0 [1, 2] ⟨8, 4, 0xFFFF, 8⟩) ∧
      ∃ r, (ports 0x20).allocateResource 0 3 ⟨8, 4, 0xFFFF, 8⟩ = some r ∧ r.1 = true ∧
        Correct (ports 0x20) 0 3 [1, 2] ⟨8, 4, 0xFFFF, 8⟩ r := by
  have hreq : (Request.mk 8 4 0xFFFF 8).Valid :=
    ⟨by decide, by decide, by decide, by decide, 3, by decide, rfl⟩
  have hfree : Free (ports 0x20) 0 [1, 2] ⟨8, 4, 0xFFFF, 8⟩ 8 0x10 :=
    ⟨⟨by decide, by decide, by decide⟩, by decide, by decide, by decide⟩
  have hgood : ¬Missed (ports 0x20) 0 [1, 2] ⟨8, 4, 0xFFFF, 8⟩ ∧
      ¬Wrapped (ports 0x20) 0 [1, 2] ⟨8, 4, 0xFFFF, 8⟩ :=
    ⟨fun hmissed => absurd hmissed.1 (by decide), fun hwrapped => hwrapped.1 0x10 hfree⟩
  have hports := known_ports (.inr rfl)
  obtain ⟨r, hr, hiff⟩ := allocateResource_correct_iff hports hreq (by decide : 0 ≠ 3) (by decide)
  have hcorrect := hiff.mpr hgood
  exact ⟨⟨hports, hreq, by decide, by decide⟩, hgood, r, hr, hcorrect.succeeds.mpr ⟨_, hfree⟩,
    hcorrect⟩

/-- The one free port is not found; and a range above `0xFFFFF000` that no multiple of `0x1000`
is in is allocated at zero. -/
theorem allocateResource_misses_and_wraps :
    ((Request.mk 1 0 0xFFFF 1).Valid ∧ Known (ports 0x11) 0 [1, 2] ∧
      Free (ports 0x11) 0 [1, 2] ⟨1, 0, 0xFFFF, 1⟩ 1 0x10 ∧
      ((ports 0x11).allocateResource 0 3 ⟨1, 0, 0xFFFF, 1⟩).map (·.1) = some false) ∧
    ∃ m : Resources, (Request.mk 0x1000 0xFFFFF001 0xFFFFFFFF 0x1000).Valid ∧ Known m 0 [] ∧
      (∀ a, ¬Free m 0 [] ⟨0x1000, 0xFFFFF001, 0xFFFFFFFF, 0x1000⟩ 0x1000 a) ∧
      ((m.allocateResource 0 1 ⟨0x1000, 0xFFFFF001, 0xFFFFFFFF, 0x1000⟩).map
        fun r => (r.1, r.2.start 1, r.2.end_ 1)) = some (true, 0, 0xFFF) := by
  refine ⟨⟨⟨by decide, by decide, by decide, by decide, 0, by decide, rfl⟩, known_ports (.inl rfl),
    ?_, by decide⟩, ?_⟩
  · exact ⟨⟨by decide, by decide, by decide⟩, by decide, by decide, by decide⟩
  refine ⟨⟨fun _ => 0, fun _ => 0xFFFFFFFF, fun _ => none, fun _ => none, fun _ => none, 2⟩,
    ⟨by decide, by decide, by decide, by decide, 12, by decide, rfl⟩, ?_, ?_, by decide⟩
  · exact ⟨⟨rfl, fun y => iff_of_false not_mem_nil nofun, fun _ ht => absurd ht not_mem_nil,
      fun _ ht => absurd ht not_mem_nil, fun _ ht => absurd ht not_mem_nil, .nil⟩,
      by decide, by decide⟩
  · rintro a ⟨⟨haligned, hmin, hmax⟩, -⟩
    simp only at hmin hmax
    omega

end Resources

end AndroidKernel.Resource
