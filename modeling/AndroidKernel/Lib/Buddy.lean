import Mathlib.Algebra.Order.Ring.Int
import Mathlib.Data.Nat.Bitwise

/-!
# Buddy blocks

A range of `2 ^ k` entries is a block of order `k`, or is cut in two halves, the buddies, that are
cut further in the same way. At the end of the range entries may be absent. A table shows such a
division when it has at the start of each block whether it is allocated and its order. What the
table has at other places does not matter, as long as it is not marked there.
-/

namespace AndroidKernel

open List

/-- A division of a range of entries. -/
inductive Buddy
  | free
  | used
  | absent
  | node (l r : Buddy)
  deriving DecidableEq

namespace Buddy

/-- An entry of a table. -/
structure Cell where
  allocated : Bool
  order : Nat
  deriving DecidableEq

abbrev Table := Nat → Cell

variable {tab tab' : Table} {k s i o m : Nat}

/-! ## Buddies -/

section

variable (h : 2 ^ (k + 1) ∣ s)

include h

theorem xor_of_dvd : s ^^^ 2 ^ k = s + 2 ^ k := by
  obtain ⟨q, rfl⟩ := h
  have hlt : 2 ^ k < 2 ^ (k + 1) := Nat.pow_lt_pow_right (by decide) (Nat.lt_succ_self k)
  rw [Nat.two_pow_add_eq_or_of_lt hlt]
  refine Nat.eq_of_testBit_eq fun j => ?_
  rw [Nat.testBit_xor, Nat.testBit_or, Nat.testBit_two_pow, Nat.testBit_two_pow_mul]
  by_cases hj : k = j
  · have hlow : ¬j ≥ k + 1 := by omega
    rw [decide_eq_false hlow, Bool.false_and, Bool.false_xor, Bool.false_or]
  · rw [decide_eq_false hj, Bool.xor_false, Bool.or_false]

/-- The buddy of the upper half is the lower half. -/
theorem xor_add_of_dvd : (s + 2 ^ k) ^^^ 2 ^ k = s := by
  rw [← xor_of_dvd h, Nat.xor_assoc, Nat.xor_self, Nat.xor_zero]

theorem dvd_left : 2 ^ k ∣ s :=
  (pow_dvd_pow 2 (Nat.le_succ k)).trans h

theorem dvd_right : 2 ^ k ∣ s + 2 ^ k :=
  Nat.dvd_add (dvd_left h) (dvd_refl _)

end

/-! ## What a table shows -/

/-- Behind its start a block is not marked. -/
def Blank (tab : Table) (s k : Nat) : Prop :=
  ∀ i, s < i → i < s + 2 ^ k → (tab i).allocated = false

/-- The table shows the division `t` of the `2 ^ k` entries from `s` on. -/
def Shows (tab : Table) : (t : Buddy) → (k s : Nat) → Prop
  | free, k, s => tab s = ⟨false, k⟩ ∧ Blank tab s k
  | used, k, s => tab s = ⟨true, k⟩ ∧ Blank tab s k
  | absent, _, _ => True
  | node l r, k, s => Shows tab l (k - 1) s ∧ Shows tab r (k - 1) (s + 2 ^ (k - 1))

/-- Of `2 ^ k` entries the first `m` are there. -/
inductive Ends : (t : Buddy) → (k m : Nat) → Prop
  | free {k : Nat} : Ends free k (2 ^ k)
  | used {k : Nat} : Ends used k (2 ^ k)
  | absent {k : Nat} : Ends absent k 0
  | left {k m : Nat} {l : Buddy} : Ends l k m → 0 < m → m < 2 ^ k → Ends (node l absent) (k + 1) m
  | right {k m : Nat} {l r : Buddy} : Ends l k (2 ^ k) → Ends r k m →
      Ends (node l r) (k + 1) (2 ^ k + m)

variable {t : Buddy}

theorem Blank.congr (h : Blank tab s k) (hsame : ∀ i, s ≤ i → i < s + 2 ^ k → tab' i = tab i) :
    Blank tab' s k := fun i hlo hhi => by
  rw [hsame i hlo.le hhi]
  exact h i hlo hhi

/-- Two blocks that are not marked anywhere, as one. -/
theorem Blank.join (h : Blank tab s k) (hright : (tab (s + 2 ^ k)).allocated = false)
    (h' : Blank tab (s + 2 ^ k) k) : Blank tab s (k + 1) := fun i hlo hhi => by
  rw [pow_succ] at hhi
  rcases Nat.lt_trichotomy i (s + 2 ^ k) with hi | rfl | hi
  · exact h i hlo hi
  · exact hright
  · exact h' i hi (by omega)

/-- Only the entries that are there matter. -/
theorem Shows.congr (h : Shows tab t k s) (hends : Ends t k m)
    (hsame : ∀ i, s ≤ i → i < s + m → tab' i = tab i) : Shows tab' t k s := by
  induction hends generalizing s with
  | @free k | @used k =>
    have hpos := Nat.two_pow_pos k
    have hstart := hsame s le_rfl (by omega)
    exact ⟨hstart.trans h.1, h.2.congr hsame⟩
  | absent => trivial
  | left _ _ _ ih => exact ⟨ih h.1 hsame, trivial⟩
  | @right k m l r _ _ ihl ihr =>
    refine ⟨ihl h.1 fun i hlo hhi => hsame i hlo (by omega), ihr h.2 fun i hlo hhi => ?_⟩
    simp only [Nat.add_sub_cancel] at hhi
    exact hsame i (Nat.le_of_add_right_le hlo) (by omega)

/-- The order at the start of a range. -/
theorem Shows.order_le (h : Shows tab t k s) (hends : Ends t k m) (hpos : 0 < m) :
    (tab s).order ≤ k := by
  induction hends generalizing s with
  | free | used => rw [h.1]
  | absent => omega
  | left _ hm _ ih => exact (ih h.1 hm).trans (Nat.le_succ _)
  | right _ _ ih _ => exact (ih h.1 (Nat.two_pow_pos _)).trans (Nat.le_succ _)

theorem Ends.pos (h : Ends t k m) (hne : t ≠ .absent) : 0 < m := by
  cases h with
  | free | used => exact Nat.two_pow_pos k
  | absent => exact absurd rfl hne
  | left _ hpos _ => exact hpos
  | right _ _ => exact Nat.add_pos_left (Nat.two_pow_pos _) _

/-- If the range is cut, the order at its start is lower. -/
theorem Shows.order_lt {l r : Buddy} (h : Shows tab (node l r) k s) (hends : Ends (node l r) k m)
    (hpos : 0 < m) : (tab s).order < k := by
  cases hends with
  | left hl hm _ => exact Nat.lt_succ_of_le (h.1.order_le hl hm)
  | right hl _ => exact Nat.lt_succ_of_le (h.1.order_le hl (Nat.two_pow_pos _))

/-- A range with entries that is not one free block does not look like one. -/
theorem Shows.not_free (h : Shows tab t k s) (hends : Ends t k m) (hfree : t ≠ free)
    (habsent : t ≠ absent) : ¬((tab s).allocated = false ∧ (tab s).order = k) := by
  rintro ⟨halloc, horder⟩
  cases t with
  | free => exact hfree rfl
  | absent => exact habsent rfl
  | used =>
    rw [h.1] at halloc
    cases halloc
  | node l r => exact absurd horder (Nat.ne_of_lt (h.order_lt hends (hends.pos nofun)))

/-! ## Stepping from block to block -/

/-- From `s` one comes to `e` by stepping over the blocks that start in the list. -/
def Tiles (tab : Table) (e : Nat) : (s : Nat) → List Nat → Prop
  | s, [] => s = e
  | s, i :: l => i = s ∧ Tiles tab e (s + 2 ^ (tab s).order) l

/-- Where the blocks start. -/
def starts : (t : Buddy) → (k s : Nat) → List Nat
  | free, _, s | used, _, s => [s]
  | absent, _, _ => []
  | node l r, k, s => starts l (k - 1) s ++ starts r (k - 1) (s + 2 ^ (k - 1))

variable {e : Nat} {l : List Nat}

theorem Tiles.append {e' : Nat} {l' : List Nat} (h : Tiles tab e s l) (h' : Tiles tab e' e l') :
    Tiles tab e' s (l ++ l') := by
  induction l generalizing s with
  | nil =>
    cases h
    exact h'
  | cons i l ih => exact ⟨h.1, ih h.2⟩

theorem Shows.tiles (h : Shows tab t k s) (hends : Ends t k m) :
    Tiles tab (s + m) s (starts t k s) := by
  induction hends generalizing s with
  | free | used =>
    refine ⟨rfl, ?_⟩
    rw [h.1]
    rfl
  | absent => exact rfl
  | left _ _ _ ih =>
    rw [starts, starts, append_nil]
    exact ih h.1
  | right _ _ ihl ihr =>
    rw [← add_assoc]
    exact (ihl h.1).append (ihr h.2)

/-- The blocks lie one after the other. -/
theorem Tiles.bounds (h : Tiles tab e s l) :
    s ≤ e ∧ ∀ i ∈ l, s ≤ i ∧ i + 2 ^ (tab i).order ≤ e := by
  induction l generalizing s with
  | nil => exact ⟨h.le, nofun⟩
  | cons j l ih =>
    obtain ⟨rfl, htail⟩ := h
    obtain ⟨hle, hall⟩ := ih htail
    exact ⟨Nat.le_of_add_right_le hle, forall_mem_cons.mpr
      ⟨⟨le_rfl, hle⟩, fun i hi => ⟨Nat.le_of_add_right_le (hall i hi).1, (hall i hi).2⟩⟩⟩

theorem Tiles.apart {j : Nat} (h : Tiles tab e s l) (hi : i ∈ l) (hj : j ∈ l) (hij : i < j) :
    i + 2 ^ (tab i).order ≤ j := by
  induction l generalizing s with
  | nil => cases hi
  | cons x l ih =>
    obtain ⟨rfl, htail⟩ := h
    have hlo : ∀ y ∈ l, x + 2 ^ (tab x).order ≤ y := fun y hy => (htail.bounds.2 y hy).1
    rcases mem_cons.mp hi with rfl | hi'
    · rcases mem_cons.mp hj with rfl | hj'
      · exact absurd hij (Nat.lt_irrefl _)
      · exact hlo j hj'
    · rcases mem_cons.mp hj with rfl | hj'
      · have := Nat.le_of_add_right_le (hlo i hi')
        omega
      · exact ih htail hi' hj'

theorem Tiles.length_le (h : Tiles tab e s l) : s + l.length ≤ e := by
  induction l generalizing s with
  | nil => exact h.le
  | cons j l ih =>
    have hpos := Nat.two_pow_pos (tab s).order
    have := ih h.2
    rw [length_cons]
    omega

/-! ## The blocks of a division -/

/-- A block that is not cut, at `i` and of order `o`. -/
def Has (b : Bool) (i o : Nat) : (t : Buddy) → (k s : Nat) → Prop
  | free, k, s => b = false ∧ i = s ∧ o = k
  | used, k, s => b = true ∧ i = s ∧ o = k
  | absent, _, _ => False
  | node l r, k, s => Has b i o l (k - 1) s ∨ Has b i o r (k - 1) (s + 2 ^ (k - 1))

variable {b : Bool}

theorem Has.bounds (h : Has b i o t k s) (hends : Ends t k m) : s ≤ i ∧ i + 2 ^ o ≤ s + m := by
  induction hends generalizing s with
  | free | used =>
    obtain ⟨-, rfl, rfl⟩ := h
    exact ⟨le_rfl, le_rfl⟩
  | absent => exact h.elim
  | left _ _ _ ih =>
    rcases h with h | h
    · exact ih h
    · exact h.elim
  | @right k m l r _ _ ihl ihr =>
    have hpos := Nat.two_pow_pos k
    rcases h with h | h
    · have := ihl h
      omega
    · have := ihr h
      simp only [Nat.add_sub_cancel] at this
      omega

theorem Has.dvd (h : Has b i o t k s) (hends : Ends t k m) (hs : 2 ^ k ∣ s) : 2 ^ o ∣ i := by
  induction hends generalizing s with
  | free | used =>
    obtain ⟨-, rfl, rfl⟩ := h
    exact hs
  | absent => exact h.elim
  | left _ _ _ ih =>
    rcases h with h | h
    · exact ih h (dvd_left hs)
    · exact h.elim
  | right _ _ ihl ihr =>
    rcases h with h | h
    · exact ihl h (dvd_left hs)
    · exact ihr h (dvd_right hs)

theorem Has.shows (h : Has b i o t k s) (hshows : Shows tab t k s) :
    tab i = ⟨b, o⟩ ∧ Blank tab i o := by
  induction t generalizing k s with
  | free | used =>
    obtain ⟨rfl, rfl, rfl⟩ := h
    exact hshows
  | absent => exact h.elim
  | node l r ihl ihr =>
    rcases h with h | h
    · exact ihl h hshows.1
    · exact ihr h hshows.2

theorem mem_starts_iff : i ∈ starts t k s ↔ ∃ b o, Has b i o t k s := by
  induction t generalizing k s with
  | free =>
    rw [starts, mem_singleton]
    exact ⟨fun h => ⟨false, k, rfl, h, rfl⟩, fun ⟨_, _, h⟩ => h.2.1⟩
  | used =>
    rw [starts, mem_singleton]
    exact ⟨fun h => ⟨true, k, rfl, h, rfl⟩, fun ⟨_, _, h⟩ => h.2.1⟩
  | absent => exact ⟨nofun, fun ⟨_, _, h⟩ => h.elim⟩
  | node l r ihl ihr =>
    rw [starts, mem_append, ihl, ihr]
    constructor
    · rintro (⟨b, o, h⟩ | ⟨b, o, h⟩)
      · exact ⟨b, o, .inl h⟩
      · exact ⟨b, o, .inr h⟩
    · rintro ⟨b, o, h | h⟩
      · exact .inl ⟨b, o, h⟩
      · exact .inr ⟨b, o, h⟩

/-- An entry that is marked is the start of a block. -/
theorem Shows.has_of_allocated (h : Shows tab t k s) (hends : Ends t k m) (hlo : s ≤ i)
    (hhi : i < s + m) (halloc : (tab i).allocated = true) : Has true i (tab i).order t k s := by
  induction hends generalizing s with
  | free =>
    rcases hlo.eq_or_lt with rfl | hlt
    · rw [h.1] at halloc
      cases halloc
    · rw [h.2 i hlt hhi] at halloc
      cases halloc
  | used =>
    rcases hlo.eq_or_lt with rfl | hlt
    · rw [h.1]
      exact ⟨rfl, rfl, rfl⟩
    · rw [h.2 i hlt hhi] at halloc
      cases halloc
  | absent => omega
  | left _ _ _ ih => exact .inl (ih h.1 hlo hhi)
  | @right k m l r _ _ ihl ihr =>
    rcases Nat.lt_or_ge i (s + 2 ^ k) with hi | hi
    · exact .inl (ihl h.1 hlo hi)
    · exact .inr (ihr h.2 hi (by simp only [Nat.add_sub_cancel]; omega))

/-! ## The powers of two of a number -/

/-- The first `m` of `2 ^ k` entries, as free blocks that get smaller. -/
def build : (k m : Nat) → Buddy
  | 0, _ => absent
  | k + 1, m =>
    if m = 0 then absent
    else if 2 ^ k ≤ m then node free (build k (m - 2 ^ k))
    else node (build k m) absent

theorem ends_build (h : m < 2 ^ k) : Ends (build k m) k m := by
  induction k generalizing m with
  | zero =>
    cases Nat.lt_one_iff.mp h
    exact .absent
  | succ k ih =>
    unfold build
    split
    next hm =>
      subst hm
      exact .absent
    next hm =>
      split
      next hle =>
        have := Ends.right (@Ends.free k) (ih (by omega : m - 2 ^ k < 2 ^ k))
        rwa [Nat.add_sub_cancel' hle] at this
      next hle => exact .left (ih (by omega)) (by omega) (by omega)

/-! ## Taking a block -/

/-- A block of order `k` of which the first `2 ^ o` entries are taken. -/
def carve : (k o : Nat) → Buddy
  | 0, _ => used
  | k + 1, o => if k + 1 ≤ o then used else node (carve k o) free

theorem ends_carve (k o : Nat) : Ends (carve k o) k (2 ^ k) := by
  induction k with
  | zero => exact .used
  | succ k ih =>
    unfold carve
    split
    · exact .used
    · have := Ends.right ih (@Ends.free k)
      rwa [← Nat.two_mul, mul_comm] at this

/-- Of a block that has been carved only the start is marked. -/
theorem Shows.carve (h : Shows tab (carve k o) k s) (ho : o ≤ k) :
    tab s = ⟨true, o⟩ ∧ Blank tab s k := by
  induction k with
  | zero =>
    cases Nat.le_zero.mp ho
    exact h
  | succ k ih =>
    unfold Buddy.carve at h
    split at h
    next hk =>
      cases Nat.le_antisymm ho hk
      exact h
    next hk =>
      obtain ⟨hleft, hright, hblank'⟩ := h
      obtain ⟨hat, hblank⟩ := ih hleft (by omega)
      exact ⟨hat, hblank.join (congrArg Cell.allocated hright) hblank'⟩

/-- The free block at `i` is divided anew. -/
def put (g : Nat → Buddy) (i : Nat) : (t : Buddy) → (k s : Nat) → Buddy
  | free, k, _ => g k
  | used, _, _ => used
  | absent, _, _ => absent
  | node l r, k, s =>
    if i < s + 2 ^ (k - 1) then node (put g i l (k - 1) s) r
    else node l (put g i r (k - 1) (s + 2 ^ (k - 1)))

variable {g : Nat → Buddy}

theorem Ends.put (h : Ends t k m) (hg : ∀ k, Ends (g k) k (2 ^ k)) : Ends (put g i t k s) k m := by
  induction h generalizing s with
  | free => exact hg _
  | used => exact .used
  | absent => exact .absent
  | left hl hpos hlt ih =>
    unfold Buddy.put
    split
    · exact .left ih hpos hlt
    · exact .left hl hpos hlt
  | right hl hr ihl ihr =>
    unfold Buddy.put
    split
    · exact .right ihl hr
    · exact .right hl ihr

theorem Shows.put (h : Shows tab t k s) (hends : Ends t k m) (hhas : Has false i o t k s)
    (hsame : ∀ x, ¬(i ≤ x ∧ x < i + 2 ^ o) → tab' x = tab x) (hg : Shows tab' (g o) o i) :
    Shows tab' (put g i t k s) k s := by
  induction hends generalizing s with
  | free =>
    obtain ⟨-, rfl, rfl⟩ := hhas
    exact hg
  | used => cases hhas.1
  | absent => exact hhas.elim
  | left hl _ hlt ih =>
    rcases hhas with hhas | hhas
    · have hbounds := hhas.bounds hl
      have hpos := Nat.two_pow_pos o
      unfold Buddy.put
      rw [if_pos (by simp only [Nat.add_sub_cancel] at hbounds ⊢; omega)]
      exact ⟨ih h.1 hhas, trivial⟩
    · exact hhas.elim
  | right hl hr ihl ihr =>
    have hpos := Nat.two_pow_pos o
    unfold Buddy.put
    simp only [Nat.add_sub_cancel] at *
    rcases hhas with hhas | hhas
    · have hbounds := hhas.bounds hl
      rw [if_pos (by omega)]
      refine ⟨ihl h.1 hhas, h.2.congr hr fun x hlo _ => hsame x ?_⟩
      simp only [Nat.add_sub_cancel] at hlo
      omega
    · have hbounds := hhas.bounds hr
      rw [if_neg (by simp only [Nat.add_sub_cancel] at hbounds; omega)]
      refine ⟨h.1.congr hl fun x _ hhi => hsame x ?_, ihr h.2 hhas⟩
      simp only [Nat.add_sub_cancel] at hbounds
      omega

/-! ## Giving a block back -/

/-- Two buddies that are both free become one block. -/
def merge : Buddy → Buddy → Buddy
  | free, free => free
  | l, r => node l r

/-- The block at `i` is free again, and merged with its buddy as often as possible. -/
def release (i : Nat) : (t : Buddy) → (k s : Nat) → Buddy
  | free, _, _ | used, _, _ => free
  | absent, _, _ => absent
  | node l r, k, s =>
    if i < s + 2 ^ (k - 1) then merge (release i l (k - 1) s) r
    else merge l (release i r (k - 1) (s + 2 ^ (k - 1)))

variable {l r : Buddy}

theorem node_ne_free : node l r ≠ free := nofun

theorem merge_of_left_ne (h : l ≠ free) : merge l r = node l r := by
  cases l with
  | free => exact absurd rfl h
  | used | absent | node _ _ => rfl

theorem merge_of_right_ne (h : r ≠ free) : merge l r = node l r := by
  cases r with
  | free => exact absurd rfl h
  | used | absent | node _ _ => cases l <;> rfl

theorem merge_absent (l : Buddy) : merge l absent = node l absent :=
  merge_of_right_ne nofun

theorem eq_of_ends_free (h : Ends free k m) : m = 2 ^ k := by
  cases h
  rfl

theorem eq_of_ends_absent (h : Ends absent k m) : m = 0 := by
  cases h
  rfl

theorem Ends.merge (hl : Ends l k (2 ^ k)) (hr : Ends r k m) :
    Ends (merge l r) (k + 1) (2 ^ k + m) := by
  by_cases hfree : l = .free ∧ r = .free
  · obtain ⟨rfl, rfl⟩ := hfree
    rw [eq_of_ends_free hr, ← Nat.two_mul, mul_comm]
    exact .free
  · have hnode : Buddy.merge l r = node l r := by
      by_cases h : l = .free
      · exact merge_of_right_ne fun h' => hfree ⟨h, h'⟩
      · exact merge_of_left_ne h
    rw [hnode]
    exact .right hl hr

theorem Ends.release (h : Ends t k m) : Ends (release i t k s) k m := by
  induction h generalizing s with
  | free | used => exact .free
  | absent => exact .absent
  | left hl hpos hlt ih =>
    unfold Buddy.release
    split
    · rw [merge_absent]
      exact .left ih hpos hlt
    · rw [Buddy.release, merge_absent]
      exact .left hl hpos hlt
  | right hl hr ihl ihr =>
    unfold Buddy.release
    split
    · exact ihl.merge hr
    · exact hl.merge ihr

end Buddy

end AndroidKernel
