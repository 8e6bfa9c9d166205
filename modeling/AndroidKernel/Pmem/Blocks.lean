import AndroidKernel.Pmem.Allocator

/-!
# The blocks that pmem's allocator keeps

The bitmap shows a division of the area into blocks and their buddies. Each function is
followed on it: `pmem_setup` makes one, `pmem_allocate` divides a free block further, and
`pmem_free` merges. A block that has become free up to the end of the area makes `pmem_free`
look at the entry behind the bitmap.
-/

namespace AndroidKernel.Pmem

open Buddy Function List

variable {num x : Nat} {bits bits' : Bitmap} {t : Buddy} {k s m i o j a order len : Nat}

/-! ## Single writes -/

theorem setOrder_self (bits : Bitmap) (i o : Nat) : setOrder bits i o i = ⟨(bits i).allocated, o⟩ :=
  update_self ..

theorem setOrder_of_ne (bits : Bitmap) (o : Nat) (h : x ≠ i) : setOrder bits i o x = bits x :=
  update_of_ne h ..

theorem setAllocated_self (bits : Bitmap) (i : Nat) (b : Bool) :
    setAllocated bits i b i = ⟨b, (bits i).order⟩ :=
  update_self ..

theorem setAllocated_of_ne (bits : Bitmap) (b : Bool) (h : x ≠ i) :
    setAllocated bits i b x = bits x :=
  update_of_ne h ..

@[simp] theorem allocated_setOrder (bits : Bitmap) (i o x : Nat) :
    (setOrder bits i o x).allocated = (bits x).allocated := by
  by_cases h : x = i
  · rw [h, setOrder_self]
  · rw [setOrder_of_ne bits o h]

theorem blank_setOrder (h : Blank bits s k) (i o : Nat) : Blank (setOrder bits i o) s k :=
  fun x hlo hhi => (allocated_setOrder bits i o x).trans (h x hlo hhi)

/-! ## What merging can come to -/

/-- After some rounds the loop of `pmem_free` goes on at `a`. -/
def Went (num : Nat) (bits : Bitmap) (i rounds : Nat) (bits' : Bitmap) (a : Nat)
    (touched : List Nat) : Prop :=
  ∀ fuel, mergeLoop num (fuel + rounds) bits i = (mergeLoop num fuel bits' a).after touched

theorem Touched.after_after (r : Touched) (l l' : List Nat) :
    (r.after l).after l' = r.after (l' ++ l) := by
  unfold Touched.after
  rw [append_assoc]

theorem Went.refl (num : Nat) (bits : Bitmap) (i : Nat) : Went num bits i 0 bits i [] :=
  fun _ => rfl

theorem mergeLoop_stop (fuel : Nat) (h : ¬((bits (pmemBuddyIndex bits i)).allocated = false ∧
      (bits (pmemBuddyIndex bits i)).order = (bits i).order)) :
    mergeLoop num (fuel + 1) bits i = ⟨bits, [i, pmemBuddyIndex bits i]⟩ := by
  rw [mergeLoop]
  rw [if_neg h]

/-- A call has changed entries only in a range of which the first `m` entries are there, and
has looked at no others. The range shows `t` now. -/
structure Confined (bits bits' : Bitmap) (touched : List Nat) (t : Buddy) (k s m : Nat) : Prop where
  shows : Shows bits' t k s
  touched : ∀ x ∈ touched, s ≤ x ∧ x < s + m
  same : ∀ x, ¬(s ≤ x ∧ x < s + m) → bits' x = bits x

/-- What the loop of `pmem_free` does within a range that shows `t` in the end. -/
inductive Merged (num : Nat) (bits : Bitmap) (i o : Nat) (t : Buddy) (k s m : Nat) : Prop
  /-- It stops inside. -/
  | stopped (rounds : Nat) (bits' : Bitmap) (touched : List Nat) (hrounds : rounds + o < k)
      (hrun : ∀ fuel, mergeLoop num (fuel + 1 + rounds) bits i = ⟨bits', touched⟩)
      (hin : Confined bits bits' touched t k s m) (hne : t ≠ free)
  /-- The range is one free block. -/
  | whole (rounds : Nat) (bits' : Bitmap) (touched : List Nat) (hrounds : rounds + o = k)
      (hrun : Went num bits i rounds bits' s touched)
      (hin : Confined bits bits' touched t k s m) (hfree : t = free)
  /-- A block at `a` is free up to where the entries end, and its buddy is not there. -/
  | gap (a j rounds : Nat) (bits' : Bitmap) (touched : List Nat) (hrounds : rounds + o = j)
      (hrun : Went num bits i rounds bits' a touched)
      (hin : Confined bits bits' touched t k s m) (hne : t ≠ free)
      (hat : Shows bits' free j a) (hdvd : 2 ^ (j + 1) ∣ a) (hend : a + 2 ^ j = s + m)
      (hlt : m < 2 ^ k) (hjk : j < k) (hsa : s ≤ a) (hai : a ≤ i)

section Merging

variable {l r : Buddy} {touched : List Nat} {rounds : Nat}

theorem Confined.inLeft (h : Confined bits bits' touched l k s (2 ^ k))
    (hr : Shows bits r k (s + 2 ^ k)) (hends : Ends r k m) :
    Confined bits bits' touched (node l r) (k + 1) s (2 ^ k + m) where
  shows := ⟨h.shows, hr.congr hends fun x hlo hhi => h.same x (by omega)⟩
  touched x hx := by
    have := h.touched x hx
    omega
  same x hx := h.same x (by omega)

theorem Confined.inRight (h : Confined bits bits' touched r k (s + 2 ^ k) m)
    (hl : Shows bits l k s) (hends : Ends l k (2 ^ k)) :
    Confined bits bits' touched (node l r) (k + 1) s (2 ^ k + m) where
  shows := ⟨hl.congr hends fun x hlo hhi => h.same x (by omega), h.shows⟩
  touched x hx := by
    obtain ⟨hlo, hhi⟩ := h.touched x hx
    exact ⟨Nat.le_of_add_right_le hlo, by omega⟩
  same x hx := h.same x fun ⟨hlo, hhi⟩ => hx ⟨Nat.le_of_add_right_le hlo, by omega⟩

theorem Confined.looked (h : Confined bits bits' touched t k s m) {x y : Nat}
    (hx : s ≤ x ∧ x < s + m) (hy : s ≤ y ∧ y < s + m) :
    Confined bits bits' (touched ++ [x, y]) t k s m :=
  { h with
    touched := forall_mem_append.mpr
      ⟨h.touched, forall_mem_cons.mpr ⟨hx, forall_mem_singleton.mpr hy⟩⟩ }

/-- A round that merges two free buddies. -/
theorem Confined.join (h : Confined bits bits' touched (node free free) (k + 1) s (2 ^ (k + 1)))
    {x y : Nat} (hxy : x = s ∧ y = s + 2 ^ k ∨ x = s + 2 ^ k ∧ y = s) :
    Confined bits (setOrder (setOrder bits' y (k + 1)) x (k + 1)) (touched ++ [x, y]) free (k + 1) s
      (2 ^ (k + 1)) where
  shows := by
    obtain ⟨⟨hs, hblank⟩, hbuddy, hblank'⟩ := h.shows
    have hright : (bits' (s + 2 ^ k)).allocated = false := congrArg Cell.allocated hbuddy
    have hjoin := blank_setOrder (hblank.join hright hblank') y (k + 1)
    refine ⟨?_, blank_setOrder hjoin x (k + 1)⟩
    have hpos := Nat.two_pow_pos k
    obtain ⟨rfl, rfl⟩ | ⟨rfl, rfl⟩ := hxy
    · rw [setOrder_self, allocated_setOrder, hs]
    · rw [setOrder_of_ne _ _ (by omega), setOrder_self, hs]
  touched := by
    have hpos := Nat.two_pow_pos k
    exact (h.looked (by omega) (by omega)).touched
  same z hz := by
    have hpos := Nat.two_pow_pos k
    rw [setOrder_of_ne _ _ (by omega), setOrder_of_ne _ _ (by omega), h.same z hz]

section

variable (h : Went num bits i rounds bits' a touched) {b : Nat}
  (hbuddy : pmemBuddyIndex bits' a = b)

include h hbuddy

theorem Went.merge
    (hfree : (bits' b).allocated = false ∧ (bits' b).order = (bits' a).order) (hlt : min b a < num)
    (hne : b ≠ a) (horder : (bits' a).order = k) :
    Went num bits i (rounds + 1) (setOrder (setOrder bits' b (k + 1)) a (k + 1)) (min b a)
      (touched ++ [a, b]) := fun fuel => by
  subst hbuddy horder
  rw [add_comm rounds, ← add_assoc, h, mergeLoop]
  simp only
  rw [if_pos hfree, if_pos hlt, setOrder_of_ne _ _ hne.symm, hfree.2, Touched.after_after]

theorem Went.stop
    (hnot : ¬((bits' b).allocated = false ∧ (bits' b).order = (bits' a).order)) (fuel : Nat) :
    mergeLoop num (fuel + 1 + rounds) bits i = ⟨bits', touched ++ [a, b]⟩ := by
  subst hbuddy
  rw [h, mergeLoop_stop fuel hnot]
  rfl

end

/-- The left half has become free. -/
theorem merged_left (hrounds : rounds + o = k) (hrun : Went num bits i rounds bits' s touched)
    (hin : Confined bits bits' touched free k s (2 ^ k)) (hr : Shows bits r k (s + 2 ^ k))
    (hends : Ends r k m) (hs : 2 ^ (k + 1) ∣ s) (hnum : s < num) (hsi : s ≤ i) :
    Merged num bits i o (merge free r) (k + 1) s (2 ^ k + m) := by
  have hat := hin.shows.1
  have hboth := hin.inLeft hr hends
  have hbuddy : pmemBuddyIndex bits' s = s + 2 ^ k := by
    rw [pmemBuddyIndex, hat]
    exact xor_of_dvd hs
  by_cases hfree : r = free
  · subst hfree
    have hm : 2 ^ k + m = 2 ^ (k + 1) := by rw [eq_of_ends_free hends, pow_succ, Nat.mul_two]
    rw [hm] at hboth ⊢
    have hright : bits' (s + 2 ^ k) = ⟨false, k⟩ := hboth.shows.2.1
    have hmerge := hrun.merge hbuddy (by rw [hright, hat]; exact ⟨rfl, rfl⟩) (by omega)
      (by omega) (by rw [hat])
    rw [Nat.min_eq_right (Nat.le_add_right s _)] at hmerge
    exact .whole (rounds + 1) _ _ (by omega) hmerge (hboth.join (.inl ⟨rfl, rfl⟩)) rfl
  · rw [merge_of_right_ne hfree]
    by_cases habsent : r = absent
    · subst habsent
      cases hends
      refine .gap s k rounds bits' touched hrounds hrun hboth node_ne_free hin.shows hs rfl ?_
        (Nat.lt_succ_self k) le_rfl hsi
      exact Nat.pow_lt_pow_right (by decide) (Nat.lt_succ_self k)
    · have hnot := hboth.shows.2.not_free hends hfree habsent
      have hm := hends.pos habsent
      have hstop := hrun.stop hbuddy (by rwa [hat])
      exact .stopped rounds bits' _ (by omega) hstop
        (hboth.looked (by omega) (by omega)) node_ne_free

/-- The right half has become free. -/
theorem merged_right (hrounds : rounds + o = k)
    (hrun : Went num bits i rounds bits' (s + 2 ^ k) touched)
    (hin : Confined bits bits' touched free k (s + 2 ^ k) (2 ^ k)) (hl : Shows bits l k s)
    (hends : Ends l k (2 ^ k)) (hs : 2 ^ (k + 1) ∣ s) (hnum : s < num) :
    Merged num bits i o (merge l free) (k + 1) s (2 ^ k + 2 ^ k) := by
  have hat := hin.shows.1
  have hboth := hin.inRight hl hends
  have hbuddy : pmemBuddyIndex bits' (s + 2 ^ k) = s := by
    rw [pmemBuddyIndex, hat]
    exact xor_add_of_dvd hs
  by_cases hfree : l = free
  · subst hfree
    have hm : 2 ^ k + 2 ^ k = 2 ^ (k + 1) := by rw [pow_succ, Nat.mul_two]
    rw [hm] at hboth ⊢
    have hleft : bits' s = ⟨false, k⟩ := hboth.shows.1.1
    have hmerge := hrun.merge hbuddy (by rw [hleft, hat]; exact ⟨rfl, rfl⟩) (by omega)
      (by omega) (by rw [hat])
    rw [Nat.min_eq_left (Nat.le_add_right s _)] at hmerge
    exact .whole (rounds + 1) _ _ (by omega) hmerge (hboth.join (.inr ⟨rfl, rfl⟩)) rfl
  · rw [merge_of_left_ne hfree]
    have habsent : l ≠ absent := by
      rintro rfl
      have := eq_of_ends_absent hends
      omega
    have hnot := hboth.shows.1.not_free hends hfree habsent
    have hstop := hrun.stop hbuddy (by rwa [hat])
    exact .stopped rounds bits' _ (by omega) hstop (hboth.looked (by omega) (by omega)) node_ne_free

/-- What is confined to the first half of a range whose second half is not there. -/
theorem Confined.inLeft_absent (h : Confined bits bits' touched l k s m) :
    Confined bits bits' touched (node l absent) (k + 1) s m :=
  ⟨⟨h.shows, trivial⟩, h.touched, h.same⟩

/-- `pmem_free` within a range: the block is free, and merged as often as it can be. -/
theorem merged_release (hends : Ends t k m) (hshows : Shows bits t k s) (hs : 2 ^ k ∣ s)
    (hhas : Has true i o t k s) (hnum : s + m ≤ num) :
    Merged num (setAllocated bits i false) i o (release i t k s) k s m := by
  induction hends generalizing s with
  | free => cases hhas.1
  | absent => exact hhas.elim
  | @used k =>
    obtain ⟨-, rfl, rfl⟩ := hhas
    obtain ⟨hat, hblank⟩ := hshows
    refine .whole 0 _ [] (zero_add o) (Went.refl num _ i)
      ⟨⟨?_, fun x hlo hhi => ?_⟩, fun _ hx => absurd hx not_mem_nil, fun _ _ => rfl⟩ rfl
    · rw [setAllocated_self, hat]
    · rw [setAllocated_of_ne bits false (Nat.ne_of_gt hlo)]
      exact hblank x hlo hhi
  | @left k m l hl hm hlt ih =>
    have hhas := hhas.resolve_right fun h => h.elim
    have hbounds := hhas.bounds hl
    have hpos := Nat.two_pow_pos o
    have hrel : release i (node l absent) (k + 1) s = node (release i l k s) absent := by
      rw [release, Nat.add_sub_cancel, if_pos (by omega), merge_absent]
    rw [hrel]
    -- The half that is there ends before its power of two, so it is never one free block.
    cases ih hshows.1 (dvd_left hs) hhas hnum with
    | stopped rounds bits' touched hrounds hrun hin _ =>
      exact .stopped rounds bits' touched (Nat.lt_succ_of_lt hrounds) hrun hin.inLeft_absent
        node_ne_free
    | whole rounds bits' touched hrounds hrun hin hfree =>
      have hfull : Ends (release i l k s) k m := hl.release
      rw [hfree] at hfull
      exact absurd (eq_of_ends_free hfull) hlt.ne
    | gap a j rounds bits' touched hrounds hrun hin _ hat hdvd hend hlt' hjk hsa hai =>
      refine .gap a j rounds bits' touched hrounds hrun hin.inLeft_absent node_ne_free hat hdvd
        hend ?_ (Nat.lt_succ_of_lt hjk) hsa hai
      omega
  | @right k m l r hl hr ihl ihr =>
    have hposo := Nat.two_pow_pos o
    obtain ⟨hshowsl, hshowsr⟩ := hshows
    simp only [Nat.add_sub_cancel] at hshowsr
    rcases hhas with hhas | hhas
    · have hbounds := hhas.bounds hl
      have hrel : release i (node l r) (k + 1) s = merge (release i l k s) r := by
        rw [release, Nat.add_sub_cancel, if_pos (by omega)]
      have hother : Shows (setAllocated bits i false) r k (s + 2 ^ k) :=
        hshowsr.congr hr fun x hlo _ => setAllocated_of_ne bits false (by omega)
      rw [hrel]
      cases ihl hshowsl (dvd_left hs) hhas (by omega) with
      | stopped rounds bits' touched hrounds hrun hin hne =>
        rw [merge_of_left_ne hne]
        exact .stopped rounds bits' touched (Nat.lt_succ_of_lt hrounds) hrun (hin.inLeft hother hr)
          node_ne_free
      | whole rounds bits' touched hrounds hrun hin hfree =>
        rw [hfree] at hin ⊢
        exact merged_left hrounds hrun hin hother hr hs (by omega) hbounds.1
      | gap a j rounds bits' touched hrounds hrun hin _ hat hdvd hend hlt' hjk hsa hai => omega
    · have hbounds := hhas.bounds hr
      simp only [Nat.add_sub_cancel] at hbounds
      have hrel : release i (node l r) (k + 1) s = merge l (release i r k (s + 2 ^ k)) := by
        rw [release, Nat.add_sub_cancel, if_neg (by omega)]
      have hother : Shows (setAllocated bits i false) l k s :=
        hshowsl.congr hl fun x _ hhi => setAllocated_of_ne bits false (by omega)
      rw [hrel]
      cases ihr hshowsr (dvd_right hs) hhas (by omega) with
      | stopped rounds bits' touched hrounds hrun hin hne =>
        rw [merge_of_right_ne hne]
        exact .stopped rounds bits' touched (Nat.lt_succ_of_lt hrounds) hrun (hin.inRight hother hl)
          node_ne_free
      | whole rounds bits' touched hrounds hrun hin hfree =>
        have hfull : Ends (release i r k (s + 2 ^ k)) k m := hr.release
        rw [hfree] at hfull
        have hm := eq_of_ends_free hfull
        subst hm
        rw [hfree] at hin ⊢
        exact merged_right hrounds hrun hin hother hl hs (by omega)
      | gap a j rounds bits' touched hrounds hrun hin hne hat hdvd hend hlt hjk hsa hai =>
        rw [merge_of_right_ne hne]
        refine .gap a j rounds bits' touched hrounds hrun (hin.inRight hother hl) node_ne_free hat
          hdvd (by omega) ?_ (Nat.lt_succ_of_lt hjk) (Nat.le_of_add_right_le hsa) hai
        omega

end Merging

/-! ## Which entries merging leaves alone -/

/-- Merging changes no mark. -/
theorem mergeLoop_allocated (fuel : Nat) (bits : Bitmap) (i x : Nat) :
    ((mergeLoop num fuel bits i).bits x).allocated = (bits x).allocated := by
  induction fuel generalizing bits i with
  | zero => rfl
  | succ fuel ih =>
    rw [mergeLoop]
    split
    · split
      · exact (ih ..).trans (by rw [allocated_setOrder, allocated_setOrder])
      · rw [allocated_setOrder, allocated_setOrder]
    · rfl

/-- Merging only changes the orders of free blocks. -/
theorem mergeLoop_of_allocated (fuel : Nat) (hcurr : (bits i).allocated = false)
    (hx : (bits x).allocated = true) : (mergeLoop num fuel bits i).bits x = bits x := by
  induction fuel generalizing bits i with
  | zero => rfl
  | succ fuel ih =>
    rw [mergeLoop]
    split
    next h =>
      have hne : ∀ y, (bits y).allocated = false → x ≠ y := by
        rintro y hy rfl
        rw [hy] at hx
        cases hx
      have hkept : ∀ o o', setOrder (setOrder bits (pmemBuddyIndex bits i) o) i o' x = bits x :=
        fun o o' => by rw [setOrder_of_ne _ _ (hne i hcurr), setOrder_of_ne _ _ (hne _ h.1)]
      split
      · have hnext : (bits (min (pmemBuddyIndex bits i) i)).allocated = false := by
          rcases Nat.le_total (pmemBuddyIndex bits i) i with hle | hle
          · rw [Nat.min_eq_left hle, h.1]
          · rw [Nat.min_eq_right hle, hcurr]
        refine (ih ?_ ?_).trans (hkept _ _)
        · rw [allocated_setOrder, allocated_setOrder, hnext]
        · rw [hkept, hx]
      · exact hkept _ _
    next => rfl

/-! ## Splitting a block -/

theorem splitLoop_stop (fuel : Nat) (h : ¬(bits i).order > order) :
    splitLoop order (fuel + 1) bits i = ⟨bits, [i]⟩ := by
  rw [splitLoop, if_neg h]

theorem splitLoop_cut (fuel : Nat) (hat : (bits i).order = k + 1) (hi : 2 ^ (k + 1) ∣ i)
    (h : order ≤ k) : splitLoop order (fuel + 1) bits i =
      (splitLoop order fuel (setOrder (setOrder bits i k) (i + 2 ^ k) k) i).after
        [i, i + 2 ^ k] := by
  have hbuddy : pmemBuddyIndex (setOrder bits i k) i = i + 2 ^ k := by
    rw [pmemBuddyIndex, setOrder_self]
    exact xor_of_dvd hi
  rw [splitLoop, if_pos (by omega), hat, Nat.add_sub_cancel]
  simp only [hbuddy, setOrder_self]

theorem mark_confined (hat : Shows bits free k i) {l : List Nat} (hl : ∀ x ∈ l, x = i) :
    Confined bits (setAllocated bits i true) l used k i (2 ^ k) := by
  have hpos := Nat.two_pow_pos k
  refine ⟨⟨?_, fun x hlo hhi => ?_⟩, fun x hx => ?_, fun x hx => ?_⟩
  · rw [setAllocated_self, hat.1]
  · rw [setAllocated_of_ne bits true (Nat.ne_of_gt hlo)]
    exact hat.2 x hlo hhi
  · rw [hl x hx]
    omega
  · exact setAllocated_of_ne bits true (by omega)

/-- The slot is cut until it has the order that is wanted, and marked. -/
theorem splitLoop_confined {fuel : Nat} (hat : Shows bits free k i) (hi : 2 ^ k ∣ i)
    (horder : order ≤ k) (hfuel : k ≤ fuel) :
    Confined bits (setAllocated (splitLoop order fuel bits i).bits i true)
      (splitLoop order fuel bits i).touched (carve k order) k i (2 ^ k) := by
  induction k generalizing bits fuel with
  | zero =>
    cases fuel with
    | zero => exact mark_confined hat nofun
    | succ fuel =>
      rw [splitLoop_stop fuel (by rw [hat.1]; exact Nat.not_lt_zero order)]
      exact mark_confined hat fun x hx => mem_singleton.mp hx
  | succ k ih =>
    obtain ⟨fuel, rfl⟩ : ∃ f, fuel = f + 1 := ⟨fuel - 1, by omega⟩
    by_cases hk : k + 1 ≤ order
    · rw [splitLoop_stop fuel (by rw [hat.1]; exact Nat.not_lt.mpr hk), carve, if_pos hk]
      exact mark_confined hat fun x hx => mem_singleton.mp hx
    rw [splitLoop_cut fuel (by rw [hat.1]) hi (by omega), carve, if_neg hk]
    -- The right half is a block of its own; what follows stays in the left half.
    have hblank := blank_setOrder (blank_setOrder hat.2 i k) (i + 2 ^ k) k
    have hleft : Shows (setOrder (setOrder bits i k) (i + 2 ^ k) k) free k i := by
      refine ⟨?_, fun x hlo hhi => hblank x hlo (by rw [pow_succ]; omega)⟩
      rw [setOrder_of_ne _ _ (by omega), setOrder_self, hat.1]
    have hright : Shows (setOrder (setOrder bits i k) (i + 2 ^ k) k) free k (i + 2 ^ k) := by
      refine ⟨?_, fun x hlo hhi => hblank x (by omega) (by rw [pow_succ]; omega)⟩
      rw [setOrder_self, allocated_setOrder,
        hat.2 (i + 2 ^ k) (by omega) (by rw [pow_succ]; omega)]
    have hfuel' : k ≤ fuel := by omega
    have hin := (ih hleft (dvd_left hi) (by omega) hfuel').inLeft hright .free
    rw [← Nat.two_mul, mul_comm] at hin
    refine ⟨hin.shows, forall_mem_append.mpr ⟨fun x hx => ?_, hin.touched⟩, fun x hx => ?_⟩
    · simp only [mem_cons, not_mem_nil, or_false] at hx
      omega
    · rw [Touched.after, hin.same x hx, setOrder_of_ne _ _ (by omega),
        setOrder_of_ne _ _ (by omega)]

/-! ## Searching -/

/-- A slot that the search may choose. -/
def Fits (bits : Bitmap) (order b : Nat) : Prop :=
  (bits b).allocated = false ∧ order ≤ (bits b).order

/-- What a search along the blocks in the list finds. -/
structure Searched (bits : Bitmap) (order : Nat) (bestFit : Option Nat) (l : List Nat) (fit : Fit) :
    Prop where
  touched : ∀ x ∈ fit.touched, x ∈ l
  found : ∀ b, fit.best = some b → bestFit = some b ∨ b ∈ l ∧ Fits bits order b
  missed : fit.best = none → bestFit = none ∧ ∀ b ∈ l, ¬Fits bits order b

section Searching

variable {bestFit : Option Nat} {l : List Nat} {fit : Fit} {curr last : Nat}

theorem Searched.pass (h : Searched bits order bestFit l fit)
    (hnot : bestFit = none → ¬Fits bits order curr) :
    Searched bits order bestFit (curr :: l) (fit.after curr) where
  touched x hx := mem_cons.mpr ((mem_cons.mp hx).imp_right (h.touched x))
  found b hb := (h.found b hb).imp_right fun h => ⟨mem_cons_of_mem curr h.1, h.2⟩
  missed hb := by
    obtain ⟨hnone, hall⟩ := h.missed hb
    exact ⟨hnone, forall_mem_cons.mpr ⟨hnot hnone, hall⟩⟩

theorem Searched.take (h : Searched bits order (some curr) l fit) (hfits : Fits bits order curr) :
    Searched bits order bestFit (curr :: l) (fit.after curr) where
  touched x hx := mem_cons.mpr ((mem_cons.mp hx).imp_right (h.touched x))
  found b hb := by
    rcases h.found b hb with heq | ⟨hmem, hb⟩
    · cases heq
      exact .inr ⟨mem_cons_self, hfits⟩
    · exact .inr ⟨mem_cons_of_mem curr hmem, hb⟩
  missed hb := absurd (h.missed hb).1 nofun

theorem searchLoop_searched {fuel : Nat} (htiles : Tiles bits last curr l)
    (hfuel : l.length ≤ fuel) :
    Searched bits order bestFit l (searchLoop bits last order fuel curr bestFit) := by
  induction l generalizing curr fuel bestFit with
  | nil =>
    have hnone : Searched bits order bestFit [] ⟨bestFit, []⟩ :=
      ⟨nofun, fun _ => .inl, fun h => ⟨h, nofun⟩⟩
    cases fuel with
    | zero => exact hnone
    | succ fuel =>
      rw [searchLoop, if_neg (Nat.not_lt.mpr htiles.symm.le)]
      exact hnone
  | cons x l ih =>
    obtain ⟨rfl, htail⟩ := htiles
    obtain ⟨fuel, rfl⟩ : ∃ f, fuel = f + 1 := ⟨fuel - 1, by rw [length_cons] at hfuel; omega⟩
    have hlt : x < last := by
      have hpos := Nat.two_pow_pos (bits x).order
      have := htail.bounds.1
      omega
    have hrest : ∀ best, Searched bits order best l
        (searchLoop bits last order fuel (pmemNextIndex bits x) best) :=
      fun best => ih htail (Nat.le_of_succ_le_succ hfuel)
    rw [searchLoop, if_pos hlt]
    split
    next hfree =>
      split
      next heq =>
        refine ⟨fun y hy => ?_, fun b hb => ?_, nofun⟩
        · rw [mem_singleton.mp hy]
          exact mem_cons_self
        · cases hb
          exact .inr ⟨mem_cons_self, hfree, heq.symm.le⟩
      next hne =>
        split
        next hbetter => exact (hrest _).take ⟨hfree, hbetter.1.le⟩
        next hnot =>
          refine (hrest _).pass fun hnone hfits => hnot ⟨?_, by rw [hnone]; rfl⟩
          have := hfits.2
          omega
    next hused => exact (hrest _).pass fun _ hfits => hused hfits.1

end Searching

/-! ## The order of a length -/

/-- `pmem_order` for a length of `last + 1` pages. -/
theorem pmemOrder_spec (len : Nat) :
    ∃ last : Nat, last = ulong ((ulong (len + pmemMinAlloc - 1) / pmemMinAlloc : Nat) - 1) ∧
      pmemOrder len ≤ 32 ∧ last < 2 ^ pmemOrder len ∧ ∀ k < pmemOrder len, 2 ^ k ≤ last := by
  refine ⟨_, rfl, ?_⟩
  generalize hlast : ulong ((ulong (len + pmemMinAlloc - 1) / pmemMinAlloc : Nat) - 1) = last
  have hlt : last < 2 ^ 32 := hlast ▸ ulong_lt _
  have hup : pmemOrder len = (Scan.up (fun i => last >>> i == 0) 32 0).found.getD 32 := by
    rw [← hlast]
    rfl
  have hzero : ∀ k, (last >>> k == 0) = true ↔ last < 2 ^ k := fun k => by
    rw [beq_iff_eq, Nat.shiftRight_eq_div_pow, Nat.div_eq_zero_iff_lt (Nat.two_pow_pos k)]
  have hless : ∀ k, (last >>> k == 0) = false → 2 ^ k ≤ last := fun k hk =>
    Nat.not_lt.mp fun h => by rw [(hzero k).mpr h] at hk; cases hk
  rw [hup]
  cases h : (Scan.up (fun i => last >>> i == 0) 32 0).found with
  | none =>
    refine ⟨Nat.le_refl 32, hlt, fun k hk => ?_⟩
    have hnot := Scan.of_found_up_none h (Nat.zero_le k) (by simpa using hk)
    exact hless k hnot
  | some i =>
    obtain ⟨⟨-, hi⟩, hat, hbefore⟩ := Scan.of_found_up_some h
    exact ⟨hi.le, (hzero i).mp hat, fun k hk => hless k (hbefore k (Nat.zero_le k) hk)⟩

theorem pmemOrder_le (len : Nat) : pmemOrder len ≤ 32 :=
  (pmemOrder_spec len).choose_spec.2.1

/-- A block of that order is long enough. -/
theorem le_of_pmemOrder (hlen : len < 2 ^ 32) : len ≤ 2 ^ pmemOrder len * pmemMinAlloc := by
  obtain ⟨last, hlast, -, hlt, -⟩ := pmemOrder_spec len
  generalize 2 ^ pmemOrder len = size at *
  unfold ulong pmemMinAlloc at *
  omega

/-- A block of a lower order is not, in an area of less than 4 GiB. -/
theorem lt_of_lt_pmemOrder (hlen : len < 2 ^ 32) (hpos : 0 < len) (ho : o < pmemOrder len)
    (harea : 2 ^ o < 2 ^ 20) : 2 ^ o * pmemMinAlloc < len := by
  obtain ⟨last, hlast, -, -, hle⟩ := pmemOrder_spec len
  have := hle o ho
  generalize 2 ^ o = size at *
  unfold ulong pmemMinAlloc at *
  omega

/-! ## The bitmap as a whole -/

/-- The bitmap divides the area. -/
structure Divided (num : Nat) (bits : Bitmap) (t : Buddy) : Prop where
  shows : Shows bits t 32 0
  ends : Ends t 32 num

theorem Divided.tiles (h : Divided num bits t) : Tiles bits num 0 (starts t 32 0) := by
  have := h.shows.tiles h.ends
  rwa [zero_add] at this

theorem Divided.lt_of_mem (h : Divided num bits t) (hi : i ∈ starts t 32 0) : i < num := by
  have hpos := Nat.two_pow_pos (bits i).order
  have := (h.tiles.bounds.2 i hi).2
  omega

/-- The entries behind the bitmap do not matter. -/
theorem Divided.congr (h : Divided num bits t) (hsame : ∀ x < num, bits' x = bits x) :
    Divided num bits' t :=
  ⟨h.shows.congr h.ends fun x _ hx => hsame x (by omega), h.ends⟩

/-! ### `pmem_setup` -/

theorem setupLoop_confined (hbits : ∀ x, s ≤ x → x < s + num % 2 ^ k → bits x = ⟨false, 0⟩) :
    Confined bits (setupLoop num k bits s).bits (setupLoop num k bits s).touched
      (build k (num % 2 ^ k)) k s (num % 2 ^ k) := by
  induction k generalizing bits s with
  | zero => exact ⟨trivial, nofun, fun _ _ => rfl⟩
  | succ k ih =>
    have hpos := Nat.two_pow_pos k
    have hlt := Nat.mod_lt num hpos
    have hmod : num % 2 ^ (k + 1) = 2 ^ k * (num / 2 ^ k % 2) + num % 2 ^ k := by
      rw [pow_succ, Nat.mod_mul, add_comm]
    rw [setupLoop, Nat.testBit_eq_decide_div_mod_eq]
    split
    next hbit =>
      rw [of_decide_eq_true hbit, mul_one] at hmod
      rw [hmod]
      have hnext : pmemNextIndex (setOrder bits s k) s = s + 2 ^ k := by
        rw [pmemNextIndex, setOrder_self]
      simp only [hnext]
      -- The block at `s` is made, and the loop goes on behind it.
      have hfree : Shows (setOrder bits s k) free k s := by
        refine ⟨by rw [setOrder_self, hbits s le_rfl (by omega)], fun x hlo hhi => ?_⟩
        rw [allocated_setOrder, hbits x hlo.le (by omega)]
      have hrest : ∀ x, s + 2 ^ k ≤ x → x < s + 2 ^ k + num % 2 ^ k →
          setOrder bits s k x = ⟨false, 0⟩ := fun x hlo hhi => by
        rw [setOrder_of_ne bits k (by omega), hbits x (by omega) (by omega)]
      have hin := (ih hrest).inRight hfree .free
      have hbuild : build (k + 1) (2 ^ k + num % 2 ^ k) = node free (build k (num % 2 ^ k)) := by
        rw [build, if_neg (by omega), if_pos (by omega), Nat.add_sub_cancel_left]
      rw [hbuild]
      refine ⟨hin.shows, forall_mem_cons.mpr ⟨by omega, hin.touched⟩, fun x hx => ?_⟩
      · exact (hin.same x hx).trans (setOrder_of_ne bits k (by omega))
    next hbit =>
      have hzero : num / 2 ^ k % 2 = 0 := by
        have : num / 2 ^ k % 2 ≠ 1 := fun h => hbit (decide_eq_true h)
        omega
      rw [hzero, mul_zero, zero_add] at hmod
      rw [hmod] at hbits ⊢
      have hin := ih hbits
      by_cases hm : num % 2 ^ k = 0
      · rw [hm] at hin ⊢
        exact ⟨trivial, hin.touched, hin.same⟩
      · rw [build, if_neg hm, if_neg (Nat.not_le.mpr hlt)]
        exact hin.inLeft_absent

/-- `pmem_setup` divides the area, and stays inside the bitmap. -/
theorem pmemSetup_divided (hnum : num < 2 ^ 32) (behind : Bitmap) :
    Divided num (pmemSetup num behind).bits (build 32 num) ∧
      ∀ x ∈ (pmemSetup num behind).touched, x < num := by
  have hmod := Nat.mod_eq_of_lt hnum
  have hin := @setupLoop_confined num (fun i => if i < num then ⟨false, 0⟩ else behind i) 32 0
    fun x _ hx => if_pos (by omega)
  rw [hmod] at hin
  exact ⟨⟨hin.shows, ends_build hnum⟩, fun x hx => by have := (hin.touched x hx).2; omega⟩

theorem setupLoop_allocated (bits : Bitmap) (k s x : Nat) :
    ((setupLoop num k bits s).bits x).allocated = (bits x).allocated := by
  induction k generalizing bits s with
  | zero => rfl
  | succ k ih =>
    rw [setupLoop]
    split
    · exact (ih ..).trans (allocated_setOrder ..)
    · exact ih ..

/-- After it no entry is marked. -/
theorem pmemSetup_allocated (behind : Bitmap) (hx : x < num) :
    ((pmemSetup num behind).bits x).allocated = false := by
  rw [pmemSetup, setupLoop_allocated, if_pos hx]

/-! ### `pmem_allocate` -/

/-- What `pmem_allocate` does in an area that is divided as `t`. -/
inductive Allocates (num : Nat) (bits : Bitmap) (len : Nat) (t : Buddy) : Allocation → Prop
  | none {touched : List Nat} (htouched : ∀ x ∈ touched, x < num)
      (hmissed : ∀ b ∈ starts t 32 0, ¬Fits bits (pmemOrder len) b) :
      Allocates num bits len t ⟨none, bits, touched⟩
  | some {i : Nat} {bits' : Bitmap} {touched : List Nat} {t' : Buddy}
      (htouched : ∀ x ∈ touched, x < num) (hi : i < num) (hfree : (bits i).allocated = false)
      (hdivided : Divided num bits' t') (hat : bits' i = ⟨true, pmemOrder len⟩)
      (hkept : ∀ x, x ≠ i → (bits' x).allocated = (bits x).allocated ∧
        ((bits x).allocated = true → bits' x = bits x))
      (hbehind : ∀ x, num ≤ x → bits' x = bits x) :
      Allocates num bits len t ⟨some i, bits', touched⟩

theorem pmemAllocate_allocates (h : Divided num bits t) (len : Nat) :
    Allocates num bits len t (pmemAllocate num bits len) := by
  have htiles := h.tiles
  have hlength : (starts t 32 0).length ≤ num := by
    have := htiles.length_le
    omega
  have hsearch := @searchLoop_searched bits (pmemOrder len) none _ 0 num num htiles hlength
  have horder : ¬pmemOrder len > pmemMaxOrder := by
    have := pmemOrder_le len
    unfold pmemMaxOrder
    omega
  unfold pmemAllocate
  simp only
  rw [if_neg horder]
  split
  next hnone =>
    exact .none (fun x hx => h.lt_of_mem (hsearch.touched x hx)) (hsearch.missed hnone).2
  next i hsome =>
    obtain ⟨hmem, hfree, hfits⟩ := (hsearch.found i hsome).resolve_left nofun
    obtain ⟨b, o, hhas⟩ := mem_starts_iff.mp hmem
    obtain ⟨hat, hblank⟩ := hhas.shows h.shows
    have hb : b = false := by
      rw [hat] at hfree
      exact hfree
    subst hb
    have ho : (bits i).order = o := congrArg Cell.order hat
    rw [ho] at hfits ⊢
    have hbounds := hhas.bounds h.ends
    have hdvd : 2 ^ o ∣ i := hhas.dvd h.ends (Nat.dvd_zero _)
    have hin := splitLoop_confined ⟨hat, hblank⟩ hdvd hfits le_rfl
    obtain ⟨hnew, hblank'⟩ := hin.shows.carve hfits
    have hdivided := Divided.mk
      (h.shows.put h.ends hhas hin.same hin.shows)
      (h.ends.put fun k => ends_carve k (pmemOrder len))
    refine .some ?_ (by omega) hfree hdivided hnew ?_ ?_
    · refine forall_mem_append.mpr ⟨forall_mem_append.mpr ⟨fun x hx => ?_, fun x hx => ?_⟩,
        forall_mem_singleton.mpr (by omega)⟩
      · exact h.lt_of_mem (hsearch.touched x hx)
      · have := hin.touched x hx
        omega
    · intro x hx
      by_cases hrange : i ≤ x ∧ x < i + 2 ^ o
      · have hgt : i < x := by omega
        rw [hblank x hgt hrange.2, hblank' x hgt hrange.2]
        exact ⟨rfl, nofun⟩
      · rw [hin.same x hrange]
        exact ⟨rfl, fun _ => rfl⟩
    · intro x hx
      exact hin.same x (by omega)

/-! ### `pmem_free` -/

/-- Where the last of the blocks that `pmem_setup` has made starts. -/
def lastBlock (num : Nat) : Nat := num &&& (num - 1)

/-- The entry behind the bitmap does not look like the buddy of the last block. -/
def Fenced (num : Nat) (bits : Bitmap) : Prop :=
  ¬((bits num).allocated = false ∧ 2 ^ (bits num).order = num - lastBlock num)
  deriving Decidable

/-- `pmem_free` has left the area divided, and has not written behind the bitmap. -/
structure Freed (num : Nat) (bits : Bitmap) (r : Touched) (t : Buddy) : Prop where
  divided : Divided num r.bits t
  behind : ∀ x, num ≤ x → r.bits x = bits x

/-- Whether `pmem_free` frees the last block that `pmem_setup` has made as a whole. -/
def FreesLast (num : Nat) (bits : Bitmap) (i : Nat) : Prop :=
  lastBlock num ≤ i ∧ ∀ x < num, lastBlock num ≤ x → x ≠ i → (bits x).allocated = false

instance (num : Nat) (bits : Bitmap) (i : Nat) : Decidable (FreesLast num bits i) :=
  inferInstanceAs (Decidable (_ ∧ _))

theorem lastBlock_add (h : 2 ^ (j + 1) ∣ a) : lastBlock (a + 2 ^ j) = a := by
  obtain ⟨q, rfl⟩ := h
  have hlt : 2 ^ j < 2 ^ (j + 1) := Nat.pow_lt_pow_right (by decide) (Nat.lt_succ_self j)
  have hsub : 2 ^ (j + 1) * q + 2 ^ j - 1 = 2 ^ (j + 1) * q + (2 ^ j - 1) := by omega
  rw [lastBlock, hsub, Nat.two_pow_add_eq_or_of_lt hlt, Nat.two_pow_add_eq_or_of_lt (by omega),
    ← Nat.or_and_distrib_left, Nat.and_two_pow_sub_one_eq_mod, Nat.mod_self, Nat.or_zero]

theorem mem_touched_mergeLoop (fuel : Nat) :
    pmemBuddyIndex bits i ∈ (mergeLoop num (fuel + 1) bits i).touched := by
  have hmem : pmemBuddyIndex bits i ∈ [i, pmemBuddyIndex bits i] :=
    mem_cons_of_mem i mem_cons_self
  rw [mergeLoop]
  split
  · split
    · exact mem_append_left _ hmem
    · exact hmem
  · exact hmem

theorem pmemFree_allocated (num : Nat) (bits : Bitmap) {i : Nat} (hx : x ≠ i) :
    ((pmemFree num bits i).bits x).allocated = (bits x).allocated :=
  (mergeLoop_allocated ..).trans (by rw [setAllocated_of_ne bits false hx])

theorem pmemFree_self (num : Nat) (bits : Bitmap) (i : Nat) :
    ((pmemFree num bits i).bits i).allocated = false :=
  (mergeLoop_allocated ..).trans (by rw [setAllocated_self])

/-- Blocks that are still allocated keep their order. -/
theorem pmemFree_of_allocated (num : Nat) (hx : x ≠ i) (halloc : (bits x).allocated = true) :
    (pmemFree num bits i).bits x = bits x := by
  have hsame := setAllocated_of_ne bits false hx
  refine (mergeLoop_of_allocated pmemMaxOrder ?_ ?_).trans hsame
  · rw [setAllocated_self]
  · rw [hsame, halloc]

/-- `pmem_free` stays inside the bitmap unless it frees the last block as a whole; it then looks
at the entry behind the bitmap. -/
theorem pmemFree_cases (h : Divided num bits t) (hnum : num < 2 ^ 32) (hi : i < num)
    (halloc : (bits i).allocated = true) :
    (Freed num bits (pmemFree num bits i) (release i t 32 0) ∧
      ∀ x ∈ (pmemFree num bits i).touched, x < num) ∨
    (FreesLast num bits i ∧ num ∈ (pmemFree num bits i).touched ∧
      (Fenced num bits → Freed num bits (pmemFree num bits i) (release i t 32 0))) := by
  have hhas := h.shows.has_of_allocated h.ends (Nat.zero_le i) (by omega) halloc
  have hends : Ends (release i t 32 0) 32 num := h.ends.release
  have hfuel : ∀ rounds ≤ 127, pmemMaxOrder = 127 - rounds + 1 + rounds := fun rounds hle => by
    unfold pmemMaxOrder
    omega
  have hbehind : ∀ {bits' : Bitmap} {touched : List Nat},
      Confined (setAllocated bits i false) bits' touched (release i t 32 0) 32 0 num →
      ∀ x, num ≤ x → bits' x = bits x := fun hin x hx => by
    rw [hin.same x (by omega), setAllocated_of_ne bits false (by omega)]
  cases merged_release h.ends h.shows (Nat.dvd_zero _) hhas (Nat.zero_add num).le with
  | stopped rounds bits' touched hrounds hrun hin hne =>
    have hfree : pmemFree num bits i = ⟨bits', i :: touched⟩ := by
      rw [pmemFree, hfuel rounds (by omega), hrun]
      rfl
    rw [hfree]
    refine .inl ⟨⟨⟨hin.shows, hends⟩, hbehind hin⟩, fun x hx => ?_⟩
    rcases mem_cons.mp hx with rfl | hx
    · exact hi
    · have := (hin.touched x hx).2
      omega
  | whole rounds bits' touched hrounds hrun hin hfree =>
    rw [hfree] at hends
    exact absurd (eq_of_ends_free hends) hnum.ne
  | gap a j rounds bits' touched hrounds hrun hin hne hat hdvd hend hlt hjk hsa hai =>
    have hnum' : num = a + 2 ^ j := by omega
    have hlast : lastBlock num = a := hnum' ▸ lastBlock_add hdvd
    have hbuddy : pmemBuddyIndex bits' a = num := by
      rw [pmemBuddyIndex, hat.1, hnum']
      exact xor_of_dvd hdvd
    have hloop : pmemFree num bits i =
        ((mergeLoop num (127 - rounds + 1) bits' a).after touched).after [i] := by
      rw [pmemFree, hfuel rounds (by omega), hrun]
    have hmarks : ∀ x, (bits' x).allocated = (setAllocated bits i false x).allocated := fun x => by
      have := @mergeLoop_allocated num (0 + rounds) (setAllocated bits i false) i x
      rwa [hrun 0] at this
    refine .inr ⟨⟨hlast ▸ hai, fun x hhi hlo hx => ?_⟩, ?_, fun hfence => ?_⟩
    · rw [← setAllocated_of_ne bits false hx, ← hmarks x]
      rw [hlast] at hlo
      rcases hlo.eq_or_lt with rfl | hlo
      · rw [hat.1]
      · exact hat.2 x hlo (by omega)
    · rw [hloop]
      have := @mem_touched_mergeLoop num bits' a (127 - rounds)
      rw [hbuddy] at this
      exact mem_append_right _ (mem_append_right _ this)
    · have hstop : mergeLoop num (127 - rounds + 1) bits' a = ⟨bits', [a, num]⟩ := by
        have hnot : ¬((bits' num).allocated = false ∧ (bits' num).order = (bits' a).order) := by
          rw [hbehind hin num le_rfl, hat.1]
          rintro ⟨hfree, horder⟩
          have hj : (bits num).order = j := horder
          exact hfence ⟨hfree, by rw [hj]; omega⟩
        rw [← hbuddy] at hnot
        rw [mergeLoop_stop _ hnot, hbuddy]
      rw [hloop, hstop]
      exact ⟨⟨hin.shows, hends⟩, hbehind hin⟩

end AndroidKernel.Pmem
