import AndroidKernel.Mmap.Adjust

/-!
# Unmapping

`do_munmap` first splits the areas that the range cuts, so that the areas to remove are whole ones.
A split changes no mapping, which is why the second one may fail after the first.
-/

namespace AndroidKernel.Mmap

open List Option

variable {m m' : Mm} {l a b c d : Space} {v n x start len end_ fuel maxMapCount : Nat} {V : Area}
  {new new' : Option Nat}

/-- The loop takes areas out of the tree, but not out of the list. -/
theorem detachLoop_spec (hrb : m.mmRb.toList = (a ++ (v, V) :: c ++ d).map Prod.fst)
    (hnodup : ((a ++ (v, V) :: c ++ d).map Prod.fst).Nodup)
    (hseg : Seg m.vmNext (some v) (((v, V) :: c ++ d).map Prod.fst) none)
    (hcount : m.mapCount = (a ++ (v, V) :: c ++ d).length)
    (hc : ∀ p ∈ c, (m.vma p.1).start < end_) (hd : ∀ p ∈ d, end_ ≤ (m.vma p.1).start)
    (hfuel : c.length < fuel) : ∃ rb tail, Mm.detachLoop end_ fuel m v =
        some ({ m with mmRb := rb, mapCount := (a ++ d).length }, tail, d.head?.map Prod.fst) ∧
      rb.toList = (a ++ d).map Prod.fst ∧ tail ∈ ((v, V) :: c).map Prod.fst := by
  rw [append_assoc, cons_append] at hrb hnodup hcount
  induction c generalizing m v V fuel with
  | nil =>
    obtain ⟨fuel, rfl⟩ := Nat.exists_eq_add_of_lt hfuel
    have hcount' : m.mapCount - 1 = (a ++ d).length := by
      rw [hcount]
      simp
    refine ⟨_, v, ?_, Holds.toList_rbErase hrb hnodup, by simp⟩
    rw [Mm.detachLoop]
    obtain ⟨-, hnext⟩ := hseg
    cases d with
    | nil =>
      obtain hnext : m.vmNext v = none := hnext
      simp only [hnext, hcount']
      rfl
    | cons q d =>
      obtain ⟨hnext, -⟩ := hnext
      have hq := hd q mem_cons_self
      simp only [hnext, if_neg (Nat.not_lt.mpr hq), hcount']
      rfl
  | cons q c ih =>
    obtain ⟨w, W⟩ := q
    obtain ⟨fuel, rfl⟩ : ∃ k, fuel = k + 1 := ⟨fuel - 1, by simp at hfuel; omega⟩
    obtain ⟨-, hnext⟩ := hseg
    have hw := hc (w, W) mem_cons_self
    obtain ⟨rb, tail, heq, hrb', htail⟩ := @ih
      { m with mmRb := m.mmRb.rbErase v, mapCount := m.mapCount - 1 } w fuel W
      (Holds.toList_rbErase hrb hnodup)
      (hnodup.sublist (by simp)) (hnext.1 ▸ hnext) (by
        rw [hcount]
        simp)
      (fun p hp => hc p (mem_cons_of_mem _ hp)) hd (by simp at hfuel; omega)
    refine ⟨rb, tail, ?_, hrb', mem_cons_of_mem _ htail⟩
    rw [Mm.detachLoop]
    simp only [hnext.1, if_pos hw]
    exact heq

namespace Holds

theorem archUnmapArea (h : Holds m l) : Holds (m.archUnmapArea x) l := by
  unfold Mm.archUnmapArea
  split
  · exact ⟨h.rb, h.area, h.seg, h.nodup, h.count, h.cache⟩
  · exact h

/-- `detach_vmas_to_be_unmapped` removes the areas that it finds from `v` on. -/
theorem detachVmasToBeUnmapped (h : Holds m (a ++ (v, V) :: c ++ d))
    (hc : ∀ p ∈ c, p.2.start < end_) (hd : ∀ p ∈ d, end_ ≤ p.2.start) :
    ∃ m', m.detachVmasToBeUnmapped v (a.getLast?.map Prod.fst) end_ = some m' ∧
      Holds m' (a ++ d) := by
  have hseg := h.seg
  have hnodup := h.nodup
  rw [append_assoc, map_append] at hseg
  obtain ⟨r, ha, hr⟩ := Seg.append_iff.mp hseg
  obtain ⟨rb, tail, hloop, hrb, htail⟩ := detachLoop_spec h.rb hnodup (hr.1 ▸ hr) h.count
    (fun p hp => by rw [h.area p (by simp [hp])]; exact hc p hp)
    (fun p hp => by rw [h.area p (by simp [hp])]; exact hd p hp)
    (show c.length < m.mapCount by rw [h.count]; simp; omega)
  -- what is removed is neither before nor after
  have htail' : tail ∉ a.map Prod.fst ∧ tail ∉ d.map Prod.fst := by
    simp only [map_append, append_assoc] at hnodup
    obtain ⟨-, hvd, hav⟩ := nodup_append.mp hnodup
    exact ⟨fun hmem => hav tail hmem tail (mem_append_left _ htail) rfl,
      fun hmem => (nodup_append.mp hvd).2.2 tail htail tail hmem rfl⟩
  have hnodup' : ((a ++ d).map Prod.fst).Nodup := hnodup.sublist (by simp)
  have harea : ∀ p ∈ a ++ d, (m.vma p.1).toArea = p.2 := fun p hp => h.area p (by
    rcases mem_append.mp hp with hp | hp <;> simp [hp])
  have hdseg : ∃ q, Seg m.vmNext q (d.map Prod.fst) none ∧ q = d.head?.map Prod.fst := by
    rw [map_append] at hr
    obtain ⟨q, -, hq⟩ := Seg.append_iff.mp hr
    exact ⟨q, hq, by rw [← head?_map, ← hq.head_eq]⟩
  obtain ⟨q, hd', rfl⟩ := hdseg
  have hcache : ∀ (m : Mm) (x : Nat), { m.archUnmapArea x with mmapCache := none } =
      ({ m with mmapCache := none } : Mm).archUnmapArea x := by
    intro m x
    unfold Mm.archUnmapArea
    split <;> rfl
  rw [Mm.detachVmasToBeUnmapped, hloop]
  simp only [hcache]
  refine ⟨_, rfl, archUnmapArea ?_⟩
  rcases eq_nil_or_concat' a with rfl | ⟨a, p, rfl⟩
  · exact ⟨hrb, harea, hd'.update htail'.2, hnodup', rfl, nofun⟩
  rw [getLast?_concat]
  refine ⟨hrb, harea, ?_, hnodup', rfl, nofun⟩
  obtain ⟨hpa, hpd⟩ : p.1 ∉ a.map Prod.fst ∧ p.1 ∉ ((v, V) :: c ++ d).map Prod.fst := by
    rw [append_assoc, append_assoc] at h
    exact h.not_mem
  rw [map_append, mem_append, not_or] at hpd
  simp only [map_append] at ha htail' ⊢
  exact ((ha.relink hpa).update htail'.1).append ((hd'.update hpd.2).update htail'.2)

/-- The second split changes no mapping, and no area is left that the end of the range cuts. -/
theorem splitLast (h : Holds m (a ++ b)) (ht : Tidy (a ++ b)) (ha : ∀ p ∈ a, p.2.end_ ≤ end_)
    (hend : end_ % 4096 = 0) (hnew : ∀ n ∈ new, n ∉ (a ++ b).map Prod.fst) :
    ∃ e m', m.splitLast maxMapCount end_ new = some (e, m') ∧
      ((e = some .enomem ∧ (maxMapCount ≤ m.mapCount ∨ new = none) ∧ Holds m' (a ++ b)) ∨
        e = none ∧ ∃ c d, Holds m' (a ++ c ++ d) ∧
        Tidy (a ++ c ++ d) ∧ (∀ p ∈ c, p.2.end_ ≤ end_) ∧ (∀ p ∈ d, end_ ≤ p.2.start) ∧
        ∀ x, lookup (c ++ d) x = lookup b x) := by
  obtain ⟨hta, htb, -⟩ := tidy_append.mp ht
  obtain ⟨c, d, rfl, hc, hd⟩ := htb.split end_
  rw [← append_assoc] at h ht hnew
  obtain ⟨hfind, h'⟩ := h.findVma ht (forall_mem_append.mpr ⟨ha, hc⟩) hd
  rw [Mm.splitLast]
  generalize m.findVma end_ = found at hfind h'
  obtain ⟨last, m'⟩ := found
  obtain rfl : last = d.head?.map Prod.fst := hfind
  cases d with
  | nil => exact ⟨none, m', rfl, .inr ⟨rfl, c, [], h', ht, hc, nofun, fun _ => rfl⟩⟩
  | cons q d =>
    obtain ⟨w, W⟩ := q
    have hW : end_ < W.end_ := hd (w, W) mem_cons_self
    obtain ⟨hWv, hWd, -⟩ := tidy_cons.mp (tidy_append.mp ht).2.1
    simp only [head?_cons, map_some]
    split
    next hlt =>
      rw [h'.area_eq] at hlt
      rcases h'.splitVma ht hend hlt hW true hnew with ⟨hwhy, heq⟩ | ⟨n, m'', -, heq, h''⟩
      · rw [h'.count, ← h.count] at hwhy
        exact ⟨_, _, heq, .inl ⟨rfl, hwhy, append_assoc a c _ ▸ h'⟩⟩
      refine ⟨_, _, heq, .inr ⟨rfl, c ++ [(n, W.lower end_)], (w, W.upper end_) :: d, ?_⟩⟩
      have ht' := @tidy_split _ d w n W end_ w hend hlt hW ht
      rw [append_assoc] at h'' ht'
      rw [append_assoc a, append_assoc c]
      refine ⟨h'', ht', ?_, ?_, fun x => ?_⟩
      · exact forall_mem_append.mpr ⟨hc, forall_mem_singleton.mpr le_rfl⟩
      · exact forall_mem_cons.mpr ⟨le_rfl, fun q hq => hW.le.trans (hWd q hq)⟩
      · rw [lookup_append, singleton_append, lookup_split hWv hend hlt hW, ← lookup_append]
    next hle =>
      rw [h'.area_eq] at hle
      refine ⟨none, m', rfl, .inr ⟨rfl, c, (w, W) :: d, h', ht, hc, ?_, fun _ => rfl⟩⟩
      exact forall_mem_cons.mpr ⟨Nat.not_lt.mp hle, fun q hq => by
        have := hWd q hq
        simp only at this
        omega⟩

/-- The areas in the range are removed. -/
theorem unmapFrom (h : Holds m (a ++ c ++ d)) (ht : Tidy (a ++ c ++ d)) (hne : c ≠ [])
    (ha : ∀ p ∈ a, p.2.end_ ≤ start) (hc : ∀ p ∈ c, start ≤ p.2.start ∧ p.2.end_ ≤ end_)
    (hd : ∀ p ∈ d, end_ ≤ p.2.start) :
    ∃ m', m.unmapFrom end_ (a.getLast?.map Prod.fst) = some (none, m') ∧ Holds m' (a ++ d) ∧
      Tidy (a ++ d) ∧
      ∀ x, lookup (a ++ d) x = if start ≤ x ∧ x < end_ then none else lookup (a ++ c ++ d) x := by
  obtain ⟨⟨w, W⟩, c, rfl⟩ := exists_cons_of_ne_nil hne
  have hfollow : m.following (a.getLast?.map Prod.fst) = some w :=
    (append_assoc a ((w, W) :: c) d ▸ h).following
  obtain ⟨m', hm', hd'⟩ := h.detachVmasToBeUnmapped (fun p hp => by
    have := hc p (mem_cons_of_mem _ hp)
    have := (ht.valid p (by simp [hp])).start_lt
    omega) hd
  refine ⟨m', ?_, hd', ⟨fun p hp => ht.valid p ?_, ht.sorted.sublist (by simp)⟩, fun x => ?_⟩
  · simp only [Mm.unmapFrom, hfollow, hm', bind_eq_bind, bind_some]
    rfl
  · rcases mem_append.mp hp with hp | hp <;> simp [hp]
  rw [lookup_append, lookup_append, lookup_append]
  split
  · rw [lookup_eq_none (not_contains ha fun p hp => .inl (by omega)),
      lookup_eq_none (not_contains hd fun p hp => .inr (by omega))]
    rfl
  · rw [lookup_eq_none (not_contains hc fun p hp => by omega), or_none]

/-- `do_munmap` from the second split on, where no area is left that the start of the range cuts. -/
theorem unmapRest (h : Holds m (a ++ (v, V) :: b)) (ht : Tidy (a ++ (v, V) :: b))
    (hend : end_ % 4096 = 0) (ha : ∀ p ∈ a, p.2.end_ ≤ start) (hV : start ≤ V.start)
    (hV' : V.start < end_) (hnew : ∀ n ∈ new, n ∉ (a ++ (v, V) :: b).map Prod.fst) :
    ∃ e m' l, m.unmapRest maxMapCount end_ (a.getLast?.map Prod.fst) new = some (e, m') ∧
      (e = none ∨ e = some .enomem ∧ (maxMapCount ≤ m.mapCount ∨ new = none)) ∧
      Holds m' l ∧ Tidy l ∧ ∀ x, lookup l x =
        if e = none ∧ start ≤ x ∧ x < end_ then none else lookup (a ++ (v, V) :: b) x := by
  have ha' : ∀ p ∈ a, p.2.end_ ≤ end_ := fun p hp => (ha p hp).trans (hV.trans hV'.le)
  obtain ⟨e, m', heq, ⟨rfl, hwhy, h'⟩ | ⟨rfl, c, d, h', ht', hc, hd, hsame⟩⟩ :=
    h.splitLast ht ha' hend hnew
  · refine ⟨some .enomem, m', _, ?_, .inr ⟨rfl, hwhy⟩, h', ht, fun x =>
      (if_neg fun h => nomatch h.1).symm⟩
    rw [Mm.unmapRest, heq]
    rfl
  · obtain ⟨hVv, hVb, hb⟩ := tidy_cons.mp (tidy_append.mp ht).2.1
    have hVlt := hVv.start_lt
    -- nothing below `V` is mapped after `a`, so neither is it after the split
    have hlow : ∀ p ∈ c, start ≤ p.2.start := by
      intro p hp
      by_contra hlt
      have hpv := ht'.valid p (by simp [hp])
      have hp' : lookup (c ++ d) p.2.start = lookup ((v, V) :: b) p.2.start := hsame _
      rw [lookup_eq_none (l := (v, V) :: b)] at hp'
      · rw [lookup, findSome?_eq_none_iff] at hp'
        have := hp' p (mem_append_left d hp)
        rw [if_pos ⟨le_rfl, hpv.start_lt⟩] at this
        cases this
      · refine forall_mem_cons.mpr ⟨fun hcon => ?_, fun q hq hcon => ?_⟩
        · have := hcon.1
          simp only at this
          omega
        · have := hVb q hq
          have := hcon.1
          simp only at *
          omega
    have hne : c ≠ [] := by
      rintro rfl
      have hp' := hsame V.start
      rw [nil_append, lookup_cons, if_pos ⟨le_rfl, hVlt⟩,
        lookup_eq_none (not_contains hd fun p hp => .inr (by omega))] at hp'
      cases hp'
    obtain ⟨m'', heq', h'', ht'', hlookup⟩ := h'.unmapFrom ht' hne ha
      (fun p hp => ⟨hlow p hp, hc p hp⟩) hd
    refine ⟨none, m'', _, ?_, .inl rfl, h'', ht'', fun x => ?_⟩
    · rw [Mm.unmapRest, heq]
      exact heq'
    · rw [hlookup, append_assoc, lookup_append, hsame, ← lookup_append]
      simp only [true_and]

end Holds

/-! ## `do_munmap` -/

/-- What `kmem_cache_alloc` returns for the two splits is not in use. -/
@[mk_iff]
structure Mm.Fresh (m : Mm) (new new' : Option Nat) : Prop where
  fst : ∀ n ∈ new, n ∉ m.mmRb.toList
  snd : ∀ n ∈ new', n ∉ m.mmRb.toList
  ne : ∀ n ∈ new, n ∉ new'

instance (m : Mm) (new new' : Option Nat) : Decidable (m.Fresh new new') :=
  decidable_of_iff' _ (m.fresh_iff new new')

/-- What `do_munmap` rejects. -/
def Rejected (start len : Nat) : Prop :=
  start % 4096 ≠ 0 ∨ taskSize < start ∨ taskSize - start < len ∨ pageAlign len = 0
  deriving Decidable

/-- `do_munmap` with its verdict: `-EINVAL` is what is rejected, and a split that fails does so for
want of memory, where the first may have made one more area. -/
theorem Holds.doMunmap (h : Holds m l) (ht : Tidy l) (hnew : m.Fresh new new') :
    ∃ e m' l', m.doMunmap maxMapCount start len new new' = some (e, m') ∧
      (Rejected start len ∧ e = some .einval ∨ ¬Rejected start len ∧ (e = none ∨
        e = some .enomem ∧ (maxMapCount ≤ m.mapCount + 1 ∨ new = none ∨ new' = none))) ∧
      Holds m' l' ∧ Tidy l' ∧
      ∀ x, lookup l' x =
        if e = none ∧ start ≤ x ∧ x < start + pageAlign len then none else lookup l x := by
  obtain ⟨hfst, hsnd, hne⟩ := hnew
  rw [h.rb] at hfst hsnd
  -- where nothing in the range is mapped, nothing has to be done
  have hkeep : (∀ p ∈ l, p.2.end_ ≤ start ∨ start + pageAlign len ≤ p.2.start) → ∀ x, lookup l x =
      if (none : Option Errno) = none ∧ start ≤ x ∧ x < start + pageAlign len then none
      else lookup l x := by
    intro hout x
    split
    · exact lookup_eq_none (not_contains hout fun p hp => by omega)
    · rfl
  rw [Mm.doMunmap]
  split
  next hbad =>
    have hbad : Rejected start len := hbad.imp_right (.imp_right .inl)
    exact ⟨_, m, l, rfl, .inl ⟨hbad, rfl⟩, h, ht, fun x => (if_neg fun h => nomatch h.1).symm⟩
  split
  next hzero =>
    have hbad : Rejected start len := .inr (.inr (.inr hzero))
    exact ⟨_, m, l, rfl, .inl ⟨hbad, rfl⟩, h, ht, fun x => (if_neg fun h => nomatch h.1).symm⟩
  have hok : ¬Rejected start len := by
    unfold Rejected
    omega
  have hpage : (start + pageAlign len) % 4096 = 0 := by
    have := pageAlign_mod len
    omega
  obtain ⟨a, b, rfl, ha, hb⟩ := ht.split start
  rw [h.findVmaPrev ht ha hb]
  cases b with
  | nil =>
    exact ⟨none, m, _, rfl, .inr ⟨hok, .inl rfl⟩, h, ht,
      hkeep fun p hp => .inl (ha p (append_nil a ▸ hp))⟩
  | cons q b =>
    obtain ⟨v, V⟩ := q
    have hV : start < V.end_ := hb (v, V) mem_cons_self
    obtain ⟨hVv, hVb, -⟩ := tidy_cons.mp (tidy_append.mp ht).2.1
    have hVlt := hVv.start_lt
    simp only [head?_cons, map_some]
    split
    next hle =>
      rw [h.area_eq] at hle
      refine ⟨none, m, _, rfl, .inr ⟨hok, .inl rfl⟩, h, ht, hkeep (forall_mem_append.mpr
        ⟨fun p hp => .inl (ha p hp), forall_mem_cons.mpr ⟨.inr hle, fun q hq => .inr ?_⟩⟩)⟩
      have := hVb q hq
      simp only at this hVlt
      omega
    rename_i hle
    rw [h.area_eq] at hle
    split
    next hlt =>
      rw [h.area_eq] at hlt
      have hstart : start % 4096 = 0 := by omega
      rcases h.splitVma ht hstart hlt hV false hfst with ⟨hwhy, heq⟩ | ⟨n, m', hn, heq, h'⟩
      · refine ⟨some .enomem, m, _, ?_, .inr ⟨hok, .inr ⟨rfl, hwhy.imp (Nat.le_succ_of_le ·) .inl⟩⟩,
          h, ht, fun x => (if_neg fun h => nomatch h.1).symm⟩
        rw [heq]
        rfl
      · have ht' := @tidy_split a b v v V start n hstart hlt hV ht
        rw [append_cons] at h' ht'
        have hfresh : ∀ i ∈ new', i ∉ (a ++ [(v, V.lower start)] ++ (n, V.upper start) :: b).map
            Prod.fst := by
          intro i hi hmem
          have := hsnd i hi
          simp only [map_append, map_cons, map_nil, mem_append, mem_cons,
            not_mem_nil, or_false] at hmem this
          rcases hmem with (hmem | rfl) | rfl | hmem
          · exact this (.inl hmem)
          · exact this (.inr (.inl rfl))
          · exact hne i hn hi
          · exact this (.inr (.inr hmem))
        have hcount : m'.mapCount = m.mapCount + 1 := by
          rw [h'.count, h.count]
          simp
          omega
        obtain ⟨e, m'', l', heq', hwhy, h'', ht'', hl'⟩ := h'.unmapRest ht' hpage
          (forall_mem_append.mpr ⟨ha, forall_mem_singleton.mpr le_rfl⟩)
          le_rfl (show start < start + pageAlign len by omega) hfresh
        rw [hcount] at hwhy
        refine ⟨e, m'', l', ?_, .inr ⟨hok, hwhy.imp_right (.imp_right (.imp_right .inr))⟩, h'',
          ht'', fun x => ?_⟩
        · rw [heq]
          rw [getLast?_concat] at heq'
          exact heq'
        · rw [hl', ← append_cons, lookup_append, lookup_split hVv hstart hlt hV, ← lookup_append]
    next hge =>
      rw [h.area_eq] at hge
      obtain ⟨e, m', l', heq, hwhy, hrest⟩ :=
        h.unmapRest ht hpage ha (Nat.not_lt.mp hge) (Nat.not_le.mp hle) hsnd
      exact ⟨e, m', l', heq,
        .inr ⟨hok, hwhy.imp_right (.imp_right (.imp (Nat.le_succ_of_le ·) .inr))⟩, hrest⟩

/-- What `do_munmap` does to the address space: on success the range is unmapped and every other
address keeps its mapping; on an error every address does. The error is `-EINVAL` exactly where the
range is rejected, and there is none where the two splits can be made. -/
theorem doMunmap_effect (hm : Consistent m) (hnew : m.Fresh new new') :
    ∃ e m', m.doMunmap maxMapCount start len new new' = some (e, m') ∧
      (e = none → ∀ x, lookup m'.space x =
        if start ≤ x ∧ x < start + pageAlign len then none else lookup m.space x) ∧
      (e ≠ none → ∀ x, lookup m'.space x = lookup m.space x) ∧
      (e = some .einval ↔ Rejected start len) ∧
      (¬Rejected start len → m.mapCount + 1 < maxMapCount → new.isSome → new'.isSome →
        e = none) := by
  obtain ⟨e, m', l', heq, hend, h', -, hl'⟩ := hm.holds.doMunmap hm.tidy hnew
  refine ⟨e, m', heq, fun he x => ?_, fun he x => ?_, ?_, fun hok hmax hs hs' => ?_⟩
  · rw [h'.space_eq, hl', he]
    simp only [true_and]
  · rw [h'.space_eq, hl', if_neg fun h => he h.1]
  · rcases hend with ⟨hbad, rfl⟩ | ⟨hok, rfl | ⟨rfl, -⟩⟩
    · exact iff_of_true rfl hbad
    · exact iff_of_false nofun hok
    · exact iff_of_false nofun hok
  · rcases hend with ⟨hbad, -⟩ | ⟨-, he | ⟨-, hfull | rfl | rfl⟩⟩
    · exact absurd hbad hok
    · exact he
    · omega
    · cases hs
    · cases hs'

/-- A file mapping with `VM_CAN_NONLINEAR`, and another one. -/
def fileMappings : Mm where
  vma i :=
    if i = 0 then ⟨⟨0x40000000, 0x40004000, 0, vmCanNonlinear, some 7, 0⟩, none, false⟩
    else ⟨⟨0x40005000, 0x40006000, 9, 0, some 7, 0⟩, none, false⟩
  vmNext i := if i = 0 then some 1 else none
  mmap := some 0
  mmRb := .node .black .nil 0 (.node .red .nil 1 .nil)
  mapCount := 2
  mmapCache := none
  freeAreaCache := taskUnmappedBase
  cachedHoleSize := 0

theorem consistent_fileMappings : Consistent fileMappings :=
  ⟨⟨rfl, rfl, rfl⟩, by decide, rfl, nofun⟩

/-- A page in the middle of the first of them. -/
theorem doMunmap_effect_middle : Consistent fileMappings ∧ fileMappings.Fresh (some 2) (some 3) ∧
    ¬Rejected 0x40001000 1 ∧
    ∃ m', fileMappings.doMunmap 65536 0x40001000 1 (some 2) (some 3) = some (none, m') ∧
      ∀ x, lookup m'.space x =
        if 0x40001000 ≤ x ∧ x < 0x40001000 + pageAlign 1 then none
        else lookup fileMappings.space x := by
  have hfresh : fileMappings.Fresh (some 2) (some 3) := by decide
  have hok : ¬Rejected 0x40001000 1 := by decide
  obtain ⟨e, m', heq, hdone, -, -, hnone⟩ :=
    @doMunmap_effect _ 0x40001000 1 65536 _ _ consistent_fileMappings hfresh
  obtain rfl := hnone hok (by decide) rfl rfl
  exact ⟨consistent_fileMappings, hfresh, hok, m', heq, hdone rfl⟩

end AndroidKernel.Mmap
