import Mathlib.Algebra.Order.Ring.Int
import Mathlib.Data.List.TakeWhile

/-!
# Remapping bitmaps (`lib/bitmap.c`)

`bitmap_remap` maps the n-th bit of `old` to the n-th bit of `new`, modulo the weight of `new`, and
the other bits to themselves. `dst` is not one of the other bitmaps.
-/

namespace AndroidKernel.Bitmap

open List

variable (src src' old new buf : Nat → Bool) (bits : Nat)

/-- The positions that `find_first_bit` and `find_next_bit` go through. -/
def setBits : List Nat := (range bits).filter buf

/-- `bitmap_weight`. -/
def bitmapWeight : Nat := (setBits buf bits).length

/-- `bitmap_pos_to_ord`, with `none` for -1. -/
def bitmapPosToOrd (pos : Nat) : Option Nat :=
  if pos < bits ∧ buf pos then some ((setBits buf bits).takeWhile (· < pos)).length else none

/-- `bitmap_ord_to_pos`. -/
def bitmapOrdToPos (ord : Nat) : Nat :=
  if ord < bits then (setBits buf bits).getD ord 0 else 0

/-- `bitmap_bitremap`. -/
def bitmapBitremap (oldbit : Nat) : Nat :=
  match bitmapPosToOrd old bits oldbit with
  | some n =>
    if bitmapWeight new bits = 0 then oldbit
    else bitmapOrdToPos new bits (n % bitmapWeight new bits)
  | none => oldbit

/-- `set_bit`. -/
def setBit (nr : Nat) (p : Nat) : Bool := p = nr || buf p

/-- `bitmap_remap`. -/
def bitmapRemap : Nat → Bool :=
  (setBits src bits).foldl (fun dst oldbit =>
    match bitmapPosToOrd old bits oldbit with
    | some n =>
      if bitmapWeight new bits = 0 then setBit dst oldbit
      else setBit dst (bitmapOrdToPos new bits (n % bitmapWeight new bits))
    | none => setBit dst oldbit) fun _ => false

variable {src src' old new buf bits} {p q : Nat}

theorem mem_setBits : p ∈ setBits buf bits ↔ p < bits ∧ buf p := by
  rw [setBits, mem_filter, mem_range]

theorem ordToPos_of_getElem? {n : Nat} (h : (setBits buf bits)[n]? = some p) :
    bitmapOrdToPos buf bits n = p := by
  have hle : (setBits buf bits).length ≤ bits := by
    simpa [setBits] using length_filter_le buf (range bits)
  have hlt := (List.getElem?_eq_some_iff.mp h).1
  rw [bitmapOrdToPos, if_pos (hlt.trans_le hle), getD_eq_getElem?_getD, h]
  rfl

/-- The loop of `bitmap_pos_to_ord` ends at the position. -/
theorem posToOrd_spec (hp : p < bits) (hbuf : buf p) : ∃ n, bitmapPosToOrd buf bits p = some n ∧
    (setBits buf bits)[n]? = some p := by
  obtain ⟨l₁, l₂, hl⟩ := append_of_mem (mem_setBits.mpr ⟨hp, hbuf⟩)
  have hsorted : (setBits buf bits).Pairwise (· < ·) := pairwise_lt_range.filter _
  rw [hl] at hsorted
  have hbefore : ∀ x ∈ l₁, x < p := fun x hx =>
    (pairwise_append.mp hsorted).2.2 x hx p mem_cons_self
  refine ⟨l₁.length, ?_, by simp [hl]⟩
  rw [bitmapPosToOrd, if_pos ⟨hp, hbuf⟩, hl, takeWhile_append_of_pos (by simpa using hbefore)]
  simp

theorem posToOrd_of_getElem? {n : Nat} (h : (setBits buf bits)[n]? = some p) :
    bitmapPosToOrd buf bits p = some n := by
  obtain ⟨hp, hbuf⟩ := mem_setBits.mp (mem_of_getElem? h)
  obtain ⟨k, hk, hget⟩ := posToOrd_spec hp hbuf
  have hnodup : (setBits buf bits).Nodup := nodup_range.filter _
  have hlt := (List.getElem?_eq_some_iff.mp hget).1
  rw [hk, (getElem?_inj hlt hnodup).mp (hget.trans h.symm)]

/-- The n-th bit is mapped to the n-th bit. -/
theorem bitremap_of_getElem? {n : Nat} (hold : (setBits old bits)[n]? = some p)
    (hnew : (setBits new bits)[n]? = some q) : bitmapBitremap old new bits p = q := by
  have hlt : n < bitmapWeight new bits := (List.getElem?_eq_some_iff.mp hnew).1
  rw [bitmapBitremap, posToOrd_of_getElem? hold]
  simp only [Nat.mod_eq_of_lt hlt, ordToPos_of_getElem? hnew]
  rw [if_neg (by omega)]

theorem bitmapRemap_eq_true : bitmapRemap src old new bits p = true ↔
    ∃ q < bits, src q ∧ bitmapBitremap old new bits q = p := by
  have hfold : ∀ (l : List Nat) (dst : Nat → Bool),
      l.foldl (fun dst q => setBit dst (bitmapBitremap old new bits q)) dst p = true ↔
        dst p ∨ ∃ q ∈ l, bitmapBitremap old new bits q = p := by
    intro l
    induction l with
    | nil => simp
    | cons q l ih =>
      intro dst
      rw [foldl_cons, ih]
      grind [setBit]
  have hstep : bitmapRemap src old new bits = (setBits src bits).foldl
      (fun dst q => setBit dst (bitmapBitremap old new bits q)) fun _ => false := by
    unfold bitmapRemap bitmapBitremap
    congr
    grind
  rw [hstep, hfold]
  simp [mem_setBits, and_assoc]

/-- `bitmap_remap` gives the image. With the same weights it can be undone, and it keeps subsets and
unions. -/
theorem bitmapRemap_image :
    (∀ p, bitmapRemap src old new bits p ↔
      ∃ q < bits, src q ∧ bitmapBitremap old new bits q = p) ∧
    (bitmapWeight old bits = bitmapWeight new bits → (∀ q < bits, src q → old q) →
      ∀ p < bits, bitmapRemap (bitmapRemap src old new bits) new old bits p = src p) ∧
    ((∀ q < bits, src q → src' q) →
      ∀ p, bitmapRemap src old new bits p → bitmapRemap src' old new bits p) ∧
    ∀ p, bitmapRemap (fun q => src q || src' q) old new bits p =
      (bitmapRemap src old new bits p || bitmapRemap src' old new bits p) := by
  refine ⟨fun p => bitmapRemap_eq_true, fun hw hsub p hp => ?_, fun hsub p => ?_, fun p => ?_⟩
  · have hback : ∀ q < bits, src q → bitmapBitremap old new bits q < bits ∧
        bitmapBitremap new old bits (bitmapBitremap old new bits q) = q := by
      intro q hq hsrc
      obtain ⟨n, -, hget⟩ := posToOrd_spec hq (hsub q hq hsrc)
      have hlt : n < bitmapWeight new bits := hw ▸ (List.getElem?_eq_some_iff.mp hget).1
      have hnew := getElem?_eq_getElem hlt
      rw [bitremap_of_getElem? hget hnew, bitremap_of_getElem? hnew hget]
      exact ⟨(mem_setBits.mp (mem_of_getElem? hnew)).1, rfl⟩
    rw [Bool.eq_iff_iff, bitmapRemap_eq_true]
    constructor
    · rintro ⟨_, -, himage, rfl⟩
      obtain ⟨q, hq, hsrc, rfl⟩ := bitmapRemap_eq_true.mp himage
      rwa [(hback q hq hsrc).2]
    · intro hsrc
      obtain ⟨hlt, heq⟩ := hback p hp hsrc
      exact ⟨_, hlt, bitmapRemap_eq_true.mpr ⟨p, hp, hsrc, rfl⟩, heq⟩
  · rw [bitmapRemap_eq_true, bitmapRemap_eq_true]
    rintro ⟨q, hq, hsrc, rfl⟩
    exact ⟨q, hq, hsub q hq hsrc, rfl⟩
  · rw [Bool.eq_iff_iff, Bool.or_eq_true]
    simp only [bitmapRemap_eq_true, Bool.or_eq_true]
    grind

end AndroidKernel.Bitmap
