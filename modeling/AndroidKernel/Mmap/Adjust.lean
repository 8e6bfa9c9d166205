import AndroidKernel.Mmap.Links

/-!
# Adjustment and splits

`vma_adjust` on the pointers does to the address space what `adjusted` says, and `split_vma` puts
the two halves in the place of an area, whichever of them is the new one.
-/

namespace AndroidKernel.Mmap

open List

variable {m m' : Mm} {l a b : Space} {v n new addr start end_ pgoff fuel maxMapCount : Nat}
  {V N : Area}

namespace Holds

section

variable (h : Holds m (a ++ (v, V) :: (n, N) :: b))

include h

/-- One round of `vma_adjust` that removes an area. -/
theorem removed : Holds (((m.importAnon v v n).setRange v start N.end_ pgoff).vmaUnlink n v)
      (a ++ (v, V.ranged start N.end_ pgoff) :: b) :=
  ((h.importAnon v n).setRange start N.end_ pgoff).vmaUnlink

theorem removeNext_eq : Mm.removeNext v start pgoff (fuel + 1) m n end_ =
      let m := ((m.importAnon v v n).setRange v start N.end_ pgoff).vmaUnlink n v
      if N.end_ < end_ then (m.vmNext v).bind fun n => Mm.removeNext v start pgoff fuel m n N.end_
      else some m := by
  have hN : (m.vma n).toArea = N := h.area (n, N) (by simp)
  rw [Mm.removeNext, hN]

/-- The boundary between two areas moves. -/
theorem adjustNext (adjust : Int) : Holds (m.adjustNext v start end_ pgoff n adjust)
      (a ++ (v, V.ranged start end_ pgoff) ::
        (n, N.ranged (ulong (N.start + adjust * 4096)) N.end_ (ulong (N.pgoff + adjust))) ::
          b) := by
  have h' := h.setRange start end_ pgoff
  rw [append_cons] at h' ⊢
  have hN := h'.area_eq
  have := h'.setRange (ulong (N.start + adjust * 4096)) N.end_ (ulong (N.pgoff + adjust))
  unfold Mm.adjustNext
  simp only [hN]
  exact this

end

/-- `vma_adjust` without an area to insert. -/
theorem vmaAdjust (h : Holds m (a ++ (v, V) :: b)) (ht : Tidy (a ++ (v, V) :: b))
    (hpage : end_ % 4096 = 0) (hle : end_ ≤ taskSize) :
    (m.vmaAdjust v start end_ pgoff none = none ∧ adjusted v V start end_ pgoff b = none) ∨
    ∃ m' l, m.vmaAdjust v start end_ pgoff none = some m' ∧
      adjusted v V start end_ pgoff b = some l ∧ Holds m' (a ++ l) := by
  have hnext := h.vmNext
  cases b with
  | nil =>
    refine .inr ⟨_, _, ?_, rfl, h.setRange start end_ pgoff⟩
    unfold Mm.vmaAdjust
    rw [hnext]
    rfl
  | cons q b =>
    obtain ⟨n, N⟩ := q
    have hV := h.area_eq
    have hN : (m.vma n).toArea = N := h.area (n, N) (by simp)
    have hcount := h.count
    obtain ⟨hVt, hVb, hb⟩ := tidy_cons.mp (tidy_append.mp ht).2.1
    obtain ⟨hNt, hNb, hb⟩ := tidy_cons.mp hb
    have hVN : V.end_ ≤ N.start := hVb _ mem_cons_self
    have hNpage := hNt.start_page
    have hNle := hNt.end_le
    have hNlt := hNt.start_lt
    simp only [taskSize] at hle hNle hNpage hNlt
    simp only [length_append] at hcount
    unfold Mm.vmaAdjust
    rw [hnext, adjusted]
    simp only [head?_cons, Option.map_some, hV, hN]
    obtain ⟨fuel, hfuel⟩ : ∃ fuel, m.mapCount = fuel + 1 := ⟨a.length + (b.length + 1), by omega⟩
    split_ifs with h₁ h₂ h₃ h₄
    · rw [hfuel, removeNext_eq h]
      simp only [if_pos h₂]
      have hround := @removed m a _ v n start pgoff V N h
      rw [hround.vmNext]
      cases b with
      | nil => exact .inl ⟨rfl, rfl⟩
      | cons r b =>
        obtain ⟨n', X⟩ := r
        obtain ⟨hX, -, -⟩ := tidy_cons.mp hb
        have hNX : N.end_ ≤ X.start := hNb _ mem_cons_self
        have hXlt := hX.start_lt
        -- the second round ends at `X`, which does not end below `N`
        obtain ⟨fuel, rfl⟩ : ∃ fuel', fuel = fuel' + 1 :=
          ⟨fuel - 1, by simp only [length_cons] at hcount; omega⟩
        refine .inr ⟨_, _, ?_, rfl, hround.removed⟩
        show Mm.removeNext v start pgoff (fuel + 1) _ n' N.end_ = _
        rw [removeNext_eq hround]
        simp only at hXlt
        exact if_neg (by omega)
    · rw [hfuel, removeNext_eq h]
      exact .inr ⟨_, _, if_neg h₂, rfl, h.removed⟩
    · refine .inr ⟨_, _, rfl, rfl, ?_⟩
      have hupper : N.upper end_ = N.ranged
          (ulong (N.start + ((end_ - N.start) / 4096 : Nat) * 4096)) N.end_
          (ulong (N.pgoff + ((end_ - N.start) / 4096 : Nat))) := by
        rw [show ulong (N.start + ((end_ - N.start) / 4096 : Nat) * 4096) = end_ by
          unfold ulong; omega]
        rfl
      rw [hupper]
      exact (h.importAnon v n).adjustNext _
    · refine .inr ⟨_, _, rfl, rfl, ?_⟩
      have h' : Holds (m.importAnon n v n) (a ++ (v, V) :: (n, N) :: b) := by
        rw [append_cons] at h ⊢
        exact h.importAnon v n
      rw [show N.start - (V.end_ - end_) / 4096 * 4096 =
        ulong (N.start + -((V.end_ - end_) / 4096 : Nat) * 4096) by unfold ulong; omega]
      exact h'.adjustNext _
    · exact .inr ⟨_, _, rfl, rfl, h.setRange start end_ pgoff⟩

/-- An adjustment that does not run into the area before keeps the address space tidy. -/
theorem adjust {l' : Space} (h : Holds m (a ++ (v, V) :: b)) (ht : Tidy (a ++ (v, V) :: b))
    (hlt : start < end_) (hstart : start % 4096 = 0) (hpage : end_ % 4096 = 0)
    (hle : end_ ≤ taskSize) (ha : ∀ p ∈ a, p.2.end_ ≤ start) (hV : start < V.end_)
    (hl : adjusted v V start end_ pgoff b = some l') :
    ∃ m', m.vmaAdjust v start end_ pgoff none = some m' ∧ Holds m' (a ++ l') ∧ Tidy (a ++ l') := by
  have htidy := tidy_adjusted ht hlt hstart hpage hle ha hV hl
  rcases h.vmaAdjust ht hpage hle with ⟨-, hnone⟩ | ⟨m', l, hm', hsome, h'⟩
  · rw [hl] at hnone
    cases hnone
  · rw [hl] at hsome
    cases hsome
    exact ⟨m', hm', h', htidy⟩

/-- An area is inserted at a place where it fits. -/
theorem insert_at (h : Holds m (a ++ b)) (ht : Tidy (a ++ (n, N) :: b))
    (hn : n ∉ (a ++ b).map Prod.fst) (hN : (m.vma n).toArea = N) :
    ∃ m', m.insertVmStruct n = some m' ∧ Holds m' (a ++ (n, N) :: b) := by
  obtain ⟨hta, htb, hab⟩ := tidy_append.mp ht
  obtain ⟨hNv, hNb, htb⟩ := tidy_cons.mp htb
  have hlt := hNv.start_lt
  have ha : ∀ p ∈ a, p.2.end_ ≤ N.start := fun p hp => hab p hp _ mem_cons_self
  have hafter : ∀ {b : Space}, (∀ p ∈ b, p.2.Valid) → (∀ p ∈ b, N.end_ ≤ p.2.start) →
      ∀ p ∈ b, N.start < p.2.end_ := by
    intro b hv hb p hp
    have := hb p hp
    have := (hv p hp).start_lt
    simp only at hlt
    omega
  have hall : Tidy (a ++ b) :=
    tidy_append.mpr ⟨hta, htb, fun p hp q hq => hab p hp q (mem_cons_of_mem _ hq)⟩
  rcases h.insertVmStruct hall hn hN hlt with ⟨-, p, hp, h₁, h₂⟩ |
    ⟨a', b', m', heq, ha', hb', hm', h'⟩
  · rcases mem_append.mp hp with hp | hp
    · exact absurd (ha p hp) (by omega)
    · exact absurd (hNb p hp) (by simp only; omega)
  · have hv' : ∀ p ∈ b', p.2.Valid := fun p hp =>
      hall.valid p (heq ▸ mem_append_right a' hp)
    obtain ⟨rfl, rfl⟩ := split_unique heq ha (hafter htb.valid hNb) ha' (hafter hv' hb')
    exact ⟨m', hm', h'⟩

/-- `split_vma` fails only where `max_map_count` is reached or the allocation fails. -/
theorem splitVma (h : Holds m (a ++ (v, V) :: b)) (ht : Tidy (a ++ (v, V) :: b))
    (haddr : addr % 4096 = 0) (hlo : V.start < addr) (hhi : addr < V.end_) (below : Bool)
    {new : Option Nat} (hnew : ∀ n ∈ new, n ∉ (a ++ (v, V) :: b).map Prod.fst) :
    ((maxMapCount ≤ m.mapCount ∨ new = none) ∧
      m.splitVma maxMapCount v addr below new = some (some .enomem, m)) ∨
    ∃ n m', n ∈ new ∧ m.splitVma maxMapCount v addr below new = some (none, m') ∧
      Holds m' (a ++ (if below then n else v, V.lower addr) ::
        (if below then v else n, V.upper addr) :: b) := by
  unfold Mm.splitVma
  split
  next hmax => exact .inl ⟨.inl hmax, rfl⟩
  cases new with
  | none => exact .inl ⟨.inr rfl, rfl⟩
  | some n =>
    have hn := hnew n rfl
    obtain rfl := h.area_eq
    have hids : ∀ W : Area, n ∉ (a ++ (v, W) :: b).map Prod.fst := by
      intro W
      simpa using hn
    have hnv : n ≠ v := by
      rintro rfl
      exact hn (by simp)
    have hhalf : ∀ (w : Vma) (s e o : Nat), (((m.setVma n w).setRange v s e o).vma n).toArea
        = w.toArea := by
      intro w s e o
      rw [Mm.setRange, setVma_of_ne hnv]
      exact congrArg Vma.toArea (Function.update_self ..)
    have htidy := fun i j => @tidy_split a b v i _ addr j haddr hlo hhi ht
    refine .inr ⟨n, ?_⟩
    cases below with
    | true =>
      have h' := ((h.set_other hn { m.vma v with end_ := addr }).setRange addr (m.vma v).end_
        (ulong ((m.vma v).pgoff + (addr - (m.vma v).start) / 4096 : Nat)))
      obtain ⟨m', hm', h'⟩ := h'.insert_at (htidy n v) (hids _) (hhalf ..)
      exact ⟨m', rfl, congrArg (Option.map fun m => (none, m)) hm', h'⟩
    | false =>
      have h' := (h.set_other hn { m.vma v with
        start := addr, pgoff := ulong ((m.vma v).pgoff + (addr - (m.vma v).start) / 4096 : Nat)
          }).setRange (m.vma v).start
          addr (m.vma v).pgoff
      have ht' := htidy v n
      rw [append_cons] at h' ht'
      obtain ⟨m', hm', h'⟩ := h'.insert_at ht' (by simpa using hn) (hhalf ..)
      rw [← append_cons] at h'
      exact ⟨m', rfl, congrArg (Option.map fun m => (none, m)) hm', h'⟩

end Holds

end AndroidKernel.Mmap
