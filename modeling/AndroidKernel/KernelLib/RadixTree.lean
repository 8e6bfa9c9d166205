import AndroidKernel.Lib.Words

/-!
# Holes in a radix tree

`radix_tree_next_hole` and `radix_tree_prev_hole` look for the next index without an item. Both
are to stop when the index wraps around, but the scan downwards compares it with `LONG_MAX`, which
is in the middle of the indices (`unsigned long` has 32 bits).
-/

namespace AndroidKernel.RadixTree

/-- What a slot points to: nothing, an item or a node. -/
inductive Slot
  | null
  | item
  | node (slots : Nat → Slot)

/-- `struct radix_tree_root`. The height is 0 when the only item is in the root itself. -/
structure Root where
  height : Nat
  rnode : Slot

/-- The loop of `radix_tree_lookup_element` over the levels that are left. -/
def lookupElement (index : Nat) : Nat → Slot → Bool
  | 0, .item => true
  | h + 1, .node slots => lookupElement index h (slots (index / 2 ^ (6 * h) % 64))
  | _, _ => false

variable (root : Root)

/-- `radix_tree_lookup`: whether there is an item. -/
def radixTreeLookup (index : Nat) : Bool :=
  index < 2 ^ (6 * root.height) && lookupElement index root.height root.rnode

/-- `radix_tree_next_hole`. -/
def radixTreeNextHole : (maxScan index : Nat) → Nat
  | 0, index => index
  | n + 1, index =>
    if radixTreeLookup root index then
      if (index + 1) % 2 ^ 32 = 0 then 0 else radixTreeNextHole n ((index + 1) % 2 ^ 32)
    else index

/-- `radix_tree_prev_hole`. -/
def radixTreePrevHole : (maxScan index : Nat) → Nat
  | 0, index => index
  | n + 1, index =>
    if radixTreeLookup root index then
      let index := (index + (2 ^ 32 - 1)) % 2 ^ 32
      if index = longMax.toNat then index else radixTreePrevHole n index
    else index

variable (maxScan index r : Nat)

/-- `r` is the first hole, in the order `le`, of the indices with `P`; if these have no hole,
`Q` holds. -/
def FirstHole (P : Nat → Prop) (le : Nat → Nat → Prop) (Q : Prop) : Prop :=
  (∀ j, P j → ¬radixTreeLookup root j → P r ∧ ¬radixTreeLookup root r ∧ le r j) ∧
    ((∀ j, P j → radixTreeLookup root j) → Q)

/-- What `radix_tree_next_hole` is to return. -/
def NextHole : Prop :=
  let P := fun j => index ≤ j ∧ j < index + maxScan ∧ j < 2 ^ 32
  FirstHole root r P (· ≤ ·) (¬P r ∧ (2 ^ 32 ≤ index + maxScan → r = 0))

/-- What `radix_tree_prev_hole` is to return. -/
def PrevHole : Prop :=
  FirstHole root r (fun j => j ≤ index ∧ index < j + maxScan) (· ≥ ·)
    (maxScan ≤ (index + 2 ^ 32 - r) % 2 ^ 32 ∨ r = longMax.toNat)

variable {index}

/-- The scan upwards ends at a hole, after `maxScan` items or behind the last index. -/
theorem nextHole_cases (hindex : index < 2 ^ 32) : ∃ e, index ≤ e ∧ e ≤ index + maxScan ∧
    e ≤ 2 ^ 32 ∧ (∀ j, index ≤ j → j < e → radixTreeLookup root j) ∧
    radixTreeNextHole root maxScan index = e % 2 ^ 32 ∧
    (e < index + maxScan → e < 2 ^ 32 → ¬radixTreeLookup root e) := by
  induction maxScan generalizing index with
  | zero => exact ⟨index, by grind [radixTreeNextHole]⟩
  | succ n ih =>
    rw [radixTreeNextHole]
    split
    next hitem =>
      split
      next hend => exact ⟨2 ^ 32, by grind⟩
      next hend =>
        rw [Nat.mod_eq_of_lt (by omega)]
        obtain ⟨e, he⟩ := @ih (index + 1) (by omega)
        exact ⟨e, by grind⟩
    next hhole => exact ⟨index, by grind⟩

/-- The scan downwards ends after `k` steps: at a hole, after `maxScan` items or at `LONG_MAX`. -/
theorem prevHole_cases (hindex : index < 2 ^ 32) (hscan : maxScan < 2 ^ 32) : ∃ k ≤ maxScan,
    radixTreePrevHole root maxScan index = (index + 2 ^ 32 - k) % 2 ^ 32 ∧
    (∀ i < k, radixTreeLookup root ((index + 2 ^ 32 - i) % 2 ^ 32)) ∧
    (∀ i < k, 0 < i → (index + 2 ^ 32 - i) % 2 ^ 32 ≠ longMax.toNat) ∧
    (k < maxScan → ¬radixTreeLookup root ((index + 2 ^ 32 - k) % 2 ^ 32) ∨
      0 < k ∧ (index + 2 ^ 32 - k) % 2 ^ 32 = longMax.toNat) := by
  have hstart : (index + 2 ^ 32 - 0) % 2 ^ 32 = index := by omega
  induction maxScan generalizing index with
  | zero => exact ⟨0, by grind [radixTreePrevHole]⟩
  | succ n ih =>
    rw [radixTreePrevHole]
    split
    next hitem =>
      dsimp only
      generalize hprev : (index + (2 ^ 32 - 1)) % 2 ^ 32 = prev
      split
      next hmarker => exact ⟨1, by omega, by omega, by grind, by omega, by omega⟩
      next hmarker =>
        obtain ⟨k, hk, hr, hitems, hmarkers, hend⟩ := @ih prev (by omega) (by omega) (by omega)
        -- `i` steps from the previous index are `i + 1` from this one
        have hnext (i : Nat) (hi : i ≤ n) :
            (prev + 2 ^ 32 - i) % 2 ^ 32 = (index + 2 ^ 32 - (i + 1)) % 2 ^ 32 := by
          omega
        refine ⟨k + 1, by omega, by rw [hr, hnext k hk], fun i hi => ?_, fun i hi hpos => ?_, ?_⟩
        · obtain _ | i := i
          · rw [hstart]
            exact hitem
          · rw [← hnext i (by omega)]
            exact hitems i (by omega)
        · obtain _ | _ | i := i
          · omega
          · rw [← hnext 0 (by omega)]
            omega
          · rw [← hnext (i + 1) (by omega)]
            exact hmarkers (i + 1) (by omega) (by omega)
        · rw [← hnext k hk]
          exact fun hlt => (hend (by omega)).imp_right fun h => ⟨by omega, h.2⟩
    next hhole =>
      rw [← hstart] at hhole
      exact ⟨0, by omega, by omega, by omega, by omega, fun _ => .inl hhole⟩

variable (index)

/-- The scan downwards stops at `LONG_MAX`, where there is an item, with a hole below. -/
def StopsEarly : Prop :=
  longMax.toNat < index ∧ (∀ j, longMax.toNat ≤ j → j ≤ index → radixTreeLookup root j) ∧
    ∃ j < longMax.toNat, index < j + maxScan ∧ ¬radixTreeLookup root j

/-- There are items down to 0, and the scan downwards goes on to a hole at the other end. -/
def GoesAround : Prop :=
  index ≤ longMax.toNat ∧ (∀ j ≤ index, radixTreeLookup root j) ∧
    ∃ j < 2 ^ 32, longMax.toNat < j ∧ index + 2 ^ 32 < j + maxScan ∧ ¬radixTreeLookup root j

variable {index}

/-- **Both scans find the first hole**, the one downwards unless it stops at `LONG_MAX` too early or
goes around. -/
theorem holes_found_iff (hindex : index < 2 ^ 32) (hscan : maxScan < 2 ^ 32) :
    NextHole root maxScan index (radixTreeNextHole root maxScan index) ∧
    (PrevHole root maxScan index (radixTreePrevHole root maxScan index) ↔
      ¬StopsEarly root maxScan index ∧ ¬GoesAround root maxScan index) := by
  constructor
  · obtain ⟨e, hfrom, hto, htop, hitems, hr, hhole⟩ := nextHole_cases root maxScan hindex
    rw [NextHole, FirstHole, hr]
    obtain rfl | hlt := htop.eq_or_lt
    · grind
    · rw [Nat.mod_eq_of_lt hlt]
      grind
  obtain ⟨k, hk, hr, hitems, hmarkers, hend⟩ := prevHole_cases root maxScan hindex hscan
  have hmax : longMax.toNat = 2 ^ 31 - 1 := rfl
  simp only [hmax] at hmarkers hend
  simp only [PrevHole, FirstHole, StopsEarly, GoesAround, hr, hmax]
  -- the items down to 0, and those of the scan that goes on at the other end
  have hdown (j : Nat) (hj : j ≤ index) (hlt : index < j + k) : radixTreeLookup root j := by
    rw [show j = (index + 2 ^ 32 - (index - j)) % 2 ^ 32 by omega]
    exact hitems (index - j) (by omega)
  have haround (j : Nat) (hj : j < 2 ^ 32) (hlt : index + 2 ^ 32 < j + k) :
      radixTreeLookup root j := by
    rw [show j = (index + 2 ^ 32 - (index + 2 ^ 32 - j)) % 2 ^ 32 by omega]
    exact hitems (index + 2 ^ 32 - j) (by omega)
  have hstop : if 2 ^ 31 - 1 < index then k ≤ index - (2 ^ 31 - 1)
      else k ≤ index + 2 ^ 32 - (2 ^ 31 - 1) := by
    split <;> by_contra hlt
    · exact hmarkers (index - (2 ^ 31 - 1)) (by omega) (by omega) (by omega)
    · exact hmarkers (index + 2 ^ 32 - (2 ^ 31 - 1)) (by omega) (by omega) (by omega)
  have hpos : (index + 2 ^ 32 - k) % 2 ^ 32 = if k ≤ index then index - k
      else index + 2 ^ 32 - k := by
    split <;> omega
  have hsteps : (index + 2 ^ 32 - (index + 2 ^ 32 - k) % 2 ^ 32) % 2 ^ 32 = k := by omega
  rw [hsteps]
  generalize (index + 2 ^ 32 - k) % 2 ^ 32 = r at *
  constructor
  · rintro ⟨hfirst, hnone⟩
    constructor
    · -- the scan gets just to `LONG_MAX`
      rintro ⟨hlow, hall, j, hj, hrange, hhole⟩
      obtain ⟨hr, hitem, -⟩ := hfirst j (by omega) hhole
      rw [if_pos hlow] at hstop
      exact hitem (hall r (by omega) hr.1)
    · -- and to a hole behind the items down to 0
      rintro ⟨hlow, hall, j, hj, hhigh, hrange, hhole⟩
      have hk' : k ≤ index + 2 ^ 32 - j := by
        by_contra hlt
        exact hhole (haround j hj (by omega))
      obtain hle | heq := hnone fun i hi => hall i hi.1
      · omega
      split at hpos
      · obtain hitem | hmarker := hend (by omega)
        · exact hitem (hall r (by omega))
        · omega
      · omega
  · rintro ⟨hearly, hround⟩
    constructor
    · intro j hj hhole
      have hle : j + k ≤ index := by
        by_contra hlt
        exact hhole (hdown j hj.1 (by omega))
      rw [if_pos (by omega)] at hpos
      refine ⟨by omega, fun hitem => ?_, by omega⟩
      have hne : j ≠ r := fun heq => hhole (heq ▸ hitem)
      obtain hnot | ⟨hsome, heq⟩ := hend (by omega)
      · exact hnot hitem
      · refine hearly ⟨by omega, fun i hi hle => ?_, j, by omega, hj.2, hhole⟩
        obtain rfl | hlt := hi.eq_or_lt
        · rwa [← heq]
        · exact hdown i hle (by omega)
    · intro hall
      by_contra! hnot
      obtain hhole | ⟨-, heq⟩ := hend hnot.1
      · split at hpos
        · exact hhole (hall r (by omega))
        · refine hround ⟨by grind, fun j hj => hall j (by omega), r, by omega, ?_, by omega, hhole⟩
          split at hstop <;> omega
      · exact hnot.2 heq

/-- The tree of `height` levels with an item at every index but one. -/
def allBut (hole : Nat) : (height base : Nat) → Slot
  | 0, i => if i = hole then .null else .item
  | h + 1, i => .node fun k => allBut hole h (64 * i + k)

/-- The scan stops at `LONG_MAX`, but the hole below is not in its range. -/
theorem holes_found_iff_two :
    let root : Root := ⟨6, allBut (longMax.toNat - 1) 6 0⟩
    PrevHole root 2 (longMax.toNat + 1) (radixTreePrevHole root 2 (longMax.toNat + 1)) :=
  (holes_found_iff _ 2 (by decide) (by decide)).2.mpr
    ⟨fun ⟨_, _, j, hj, hrange, _⟩ => by omega, fun h => absurd h.1 (by decide)⟩

/-- The scan downwards from `LONG_MAX + 1` returns `LONG_MAX`, with an item there, and not the hole
below; the one from 0 goes on at the largest index. -/
theorem prev_hole_missed :
    (let root : Root := ⟨6, allBut (longMax.toNat - 1) 6 0⟩
     radixTreeLookup root longMax.toNat ∧
       ¬PrevHole root 5 (longMax.toNat + 1) (radixTreePrevHole root 5 (longMax.toNat + 1))) ∧
    ¬PrevHole ⟨0, .item⟩ 5 0 (radixTreePrevHole ⟨0, .item⟩ 5 0) := by
  refine ⟨⟨by decide +kernel, fun h => ?_⟩, fun h => ?_⟩
  · exact absurd (h.1 (longMax.toNat - 1) (by decide) (by decide +kernel)).2.1 (by decide +kernel)
  · refine absurd (h.2 ?_) (by decide +kernel)
    intro j hj
    obtain rfl : j = 0 := by omega
    rfl

end AndroidKernel.RadixTree
