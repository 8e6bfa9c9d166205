import AndroidKernel.Mmap.Space

/-!
# The list and the tree of the areas

`Holds m l` says that the list, the tree, the count and the cache of `m` are those of the address
space `l`. The order of the addresses is not part of it, since `vma_adjust` lets areas overlap
before it removes one; `Tidy l` is what the searches need.
-/

namespace AndroidKernel.Mmap

open Function List

structure Holds (m : Mm) (l : Space) : Prop where
  rb : m.mmRb.toList = l.map Prod.fst
  area : ∀ p ∈ l, (m.vma p.1).toArea = p.2
  seg : Seg m.vmNext m.mmap (l.map Prod.fst) none
  nodup : (l.map Prod.fst).Nodup
  count : m.mapCount = l.length
  cache : ∀ c ∈ m.mmapCache, c ∈ l.map Prod.fst

namespace Holds

variable {m m' : Mm} {l a b : Space} {v n new addr x : Nat} {V N : Area} {w : Vma}
  {prev vma : Option Nat} {t : Rbtree Nat} {p : Rbtree.Path Nat}

theorem setVma_of_ne (hne : x ≠ v) : (m.setVma v w).vma x = m.vma x := update_of_ne hne ..

/-- The fields of an area outside the list are set. -/
theorem set_other (h : Holds m l) (hv : v ∉ l.map Prod.fst) (w : Vma) : Holds (m.setVma v w) l := by
  refine ⟨h.rb, fun q hq => ?_, h.seg, h.nodup, h.count, h.cache⟩
  have hne : q.1 ≠ v := by
    rintro rfl
    exact hv (mem_map_of_mem hq)
  rw [setVma_of_ne hne]
  exact h.area q hq

/-- The pointer that leads to the rest of the list. -/
theorem following (h : Holds m (a ++ b)) :
    m.following (a.getLast?.map Prod.fst) = b.head?.map Prod.fst := by
  have hseg := h.seg
  rw [map_append] at hseg
  obtain ⟨r, hr, hb⟩ := Seg.append_iff.mp hseg
  rw [← head?_map, ← hb.head_eq]
  rcases eq_nil_or_concat' a with rfl | ⟨a, q, rfl⟩
  · exact hr
  · rw [getLast?_concat]
    rw [map_append] at hr
    obtain ⟨-, -, -, hq⟩ := Seg.append_iff.mp hr
    exact hq

section

variable (h : Holds m (a ++ (v, V) :: b))

include h

theorem not_mem : v ∉ a.map Prod.fst ∧ v ∉ b.map Prod.fst := by
  have hn := h.nodup
  rw [map_append, map_cons, nodup_append, nodup_cons] at hn
  obtain ⟨-, ⟨hb, -⟩, ha⟩ := hn
  exact ⟨fun hv => ha v hv v mem_cons_self rfl, hb⟩

theorem area_eq : (m.vma v).toArea = V :=
  h.area (v, V) (mem_append_right a mem_cons_self)

/-- The fields of an area in the list are set. -/
theorem set (w : Vma) : Holds (m.setVma v w) (a ++ (v, w.toArea) :: b) := by
  have hids : (a ++ (v, w.toArea) :: b).map Prod.fst = (a ++ (v, V) :: b).map Prod.fst := by simp
  obtain ⟨ha, hb⟩ := h.not_mem
  refine ⟨hids ▸ h.rb, ?_, hids ▸ h.seg, hids ▸ h.nodup, h.count.trans (by simp), hids ▸ h.cache⟩
  have hother : ∀ l : List (Nat × Area), v ∉ l.map Prod.fst →
      (∀ q ∈ l, (m.vma q.1).toArea = q.2) → ∀ q ∈ l, ((m.setVma v w).vma q.1).toArea = q.2 := by
    intro l hv hl q hq
    have hne : q.1 ≠ v := fun heq => hv (heq ▸ mem_map_of_mem hq)
    rw [setVma_of_ne hne]
    exact hl q hq
  obtain ⟨hbefore, hrest⟩ := forall_mem_append.mp h.area
  exact forall_mem_append.mpr ⟨hother a ha hbefore, forall_mem_cons.mpr
    ⟨congrArg Vma.toArea (update_self ..), hother b hb (forall_mem_cons.mp hrest).2⟩⟩

theorem setRange (start end_ pgoff : Nat) :
    Holds (m.setRange v start end_ pgoff) (a ++ (v, V.ranged start end_ pgoff) :: b) := by
  have := h.set { m.vma v with start, end_, pgoff }
  rw [← h.area_eq]
  exact this

/-- An `anon_vma` is not part of the address space. -/
theorem importAnon (i j : Nat) : Holds (m.importAnon v i j) (a ++ (v, V) :: b) := by
  have := h.set { m.vma v with
    anonVma := (m.vma v).anonVma <|> ((m.vma i).anonVma <|> (m.vma j).anonVma) }
  rw [show (a ++ (v, V) :: b) = a ++ (v, (m.vma v).toArea) :: b by rw [h.area_eq]]
  exact this

theorem vmNext : m.vmNext v = b.head?.map Prod.fst := by
  rw [append_cons] at h
  have := h.following
  rwa [getLast?_concat] at this

end

/-- An area is taken out of the tree. -/
theorem toList_rbErase (h : t.toList = (a ++ (v, V) :: b).map Prod.fst)
    (hnodup : ((a ++ (v, V) :: b).map Prod.fst).Nodup) :
    (t.rbErase v).toList = (a ++ b).map Prod.fst := by
  rw [map_append] at h hnodup
  have hv : v ∉ a.map Prod.fst := fun hv => (nodup_append.mp hnodup).2.2 v hv v mem_cons_self rfl
  rw [Rbtree.toList_rbErase, h, erase_append_right _ hv, map_cons, erase_cons_head, map_append]

/-- `__vma_unlink`. -/
theorem vmaUnlink (h : Holds m (a ++ (v, V) :: (n, N) :: b)) :
    Holds (m.vmaUnlink n v) (a ++ (v, V) :: b) := by
  have hv := h.not_mem
  have hseg := h.seg
  have hnodup := h.nodup
  simp only [map_append, map_cons] at hseg
  refine ⟨?_, fun q hq => h.area q ?_, ?_, ?_, ?_, ?_⟩
  · rw [append_cons] at h ⊢
    exact toList_rbErase h.rb h.nodup
  · simp only [mem_append, mem_cons] at hq ⊢
    exact hq.imp_right fun hq => hq.imp_right .inr
  · simp only [map_append, map_cons]
    rw [append_cons] at hseg ⊢
    obtain ⟨r, hr, hrn, hb⟩ := Seg.append_iff.mp hseg
    exact (hr.relink hv.1).append (hb.update fun hvb => hv.2 (mem_cons_of_mem n hvb))
  · refine hnodup.sublist ?_
    simp
  · show m.mapCount - 1 = _
    rw [h.count]
    simp
  · intro c hc
    simp only [map_append, map_cons, mem_append, mem_cons]
    change c ∈ (if m.mmapCache = some n then some v else m.mmapCache) at hc
    split at hc
    · cases hc
      exact .inr (.inl rfl)
    rename_i hne
    have := h.cache c hc
    simp only [map_append, map_cons, mem_append, mem_cons] at this
    rcases this with hc' | rfl | rfl | hc'
    · exact .inl hc'
    · exact .inr (.inl rfl)
    · exact absurd hc hne
    · exact .inr (.inr hc')

/-! ## Searches -/

/-- The order that the searches rely on. -/
theorem ordered (h : Holds m l) (ht : Tidy l) : m.mmRb.toList.Pairwise fun i j =>
    (m.vma i).end_ ≤ (m.vma j).start ∧ (m.vma j).start < (m.vma j).end_ := by
  rw [h.rb, pairwise_map]
  refine ht.sorted.imp_of_mem fun {p q} hp hq hpq => ?_
  have hq' := h.area q hq
  rw [h.area p hp, hq']
  exact ⟨hpq, (ht.valid q hq).start_lt⟩

section

variable
  (hs : t.toList.Pairwise fun i j => (m.vma i).end_ ≤ (m.vma j).start ∧
    (m.vma j).start < (m.vma j).end_)

include hs

/-- `find_vma` finds the first area that ends above the address. -/
theorem findLoop_eq :
    m.findLoop addr t vma = (t.toList.find? fun i => addr < (m.vma i).end_).or vma := by
  induction t generalizing vma with
  | nil => rfl
  | node c l y r ihl ihr =>
    rw [Rbtree.toList, pairwise_append, pairwise_cons] at hs
    obtain ⟨hl, ⟨-, hr⟩, hlr⟩ := hs
    rw [Mm.findLoop, Rbtree.toList, find?_append, find?_cons]
    have hnone : (m.vma y).start ≤ addr →
      l.toList.find? (fun i => addr < (m.vma i).end_) = none := by
      intro hy
      rw [find?_eq_none]
      intro i hi
      have := hlr i hi y mem_cons_self
      simp only [decide_eq_true_eq]
      omega
    by_cases hend : addr < (m.vma y).end_
    · rw [if_pos hend, decide_eq_true hend]
      split
      next hstart =>
        rw [hnone hstart]
        rfl
      · rw [ihl hl]
        cases l.toList.find? fun i => addr < (m.vma i).end_ <;> rfl
    · rw [if_neg hend, decide_eq_false hend, ihr hr]
      cases hl : l.toList.find? fun i => addr < (m.vma i).end_ with
      | none => rfl
      | some i =>
        have hi := hlr i (mem_of_find?_eq_some hl) y mem_cons_self
        have := find?_some hl
        simp only [decide_eq_true_eq] at this
        omega

/-- The loop of `find_vma_prev` finds the last area that does not. Where it stops early, the areas
further to the right end above the address since the next one does. -/
theorem prevLoop_eq (hnext : t.toList.Pairwise fun i j =>
      (∀ n ∈ m.vmNext i, addr < (m.vma n).end_) → addr < (m.vma j).end_) : m.prevLoop addr t prev =
      ((t.toList.filter fun i => (m.vma i).end_ ≤ addr).getLast?).or prev := by
  induction t generalizing prev with
  | nil => rfl
  | node c l y r ihl ihr =>
    rw [Rbtree.toList, pairwise_append, pairwise_cons] at hs hnext
    obtain ⟨hl, ⟨hyr, hr⟩, hlr⟩ := hs
    obtain ⟨hl', ⟨hyr', hr'⟩, -⟩ := hnext
    have hright : (∀ i ∈ r.toList, addr < (m.vma i).end_) →
        r.toList.filter (fun i => (m.vma i).end_ ≤ addr) = [] := by
      intro h
      rw [filter_eq_nil_iff]
      intro i hi
      have := h i hi
      simp only [decide_eq_true_eq]
      omega
    rw [Mm.prevLoop, Rbtree.toList, filter_append, filter_cons]
    by_cases hend : addr < (m.vma y).end_
    · have hskip : r.toList.filter (fun i => (m.vma i).end_ ≤ addr) = [] := hright fun i hi => by
        have := hyr i hi
        omega
      rw [if_pos hend, ihl hl hl', hskip, decide_eq_false (Nat.not_le.mpr hend)]
      simp
    · rw [if_neg hend, if_pos (decide_eq_true (Nat.not_lt.mp hend))]
      split
      next hbreak =>
        rw [hright fun i hi => hyr' i hi hbreak, getLast?_concat]
        rfl
      · rw [ihr hr hr', getLast?_append, getLast?_cons]
        cases (r.toList.filter fun i => (m.vma i).end_ ≤ addr).getLast? <;> rfl

end

section

variable (h : Holds m (a ++ b)) (ht : Tidy (a ++ b)) (ha : ∀ p ∈ a, p.2.end_ ≤ addr)
  (hb : ∀ p ∈ b, addr < p.2.end_)

include h ha hb

theorem find?_areas :
    (m.mmRb.toList.find? fun i => addr < (m.vma i).end_) = b.head?.map Prod.fst := by
  rw [h.rb, map_append, find?_append]
  have hnone : (a.map Prod.fst).find? (fun i => addr < (m.vma i).end_) = none := by
    rw [find?_eq_none]
    intro i hi
    obtain ⟨q, hq, rfl⟩ := mem_map.mp hi
    have := ha q hq
    rw [h.area q (mem_append_left b hq)]
    simpa using this
  rw [hnone]
  cases b with
  | nil => rfl
  | cons q b =>
    have := hb q mem_cons_self
    rw [map_cons, find?_cons, h.area q (by simp), decide_eq_true this]
    rfl

include ht

theorem findVma :
    (m.findVma addr).1 = b.head?.map Prod.fst ∧ Holds (m.findVma addr).2 (a ++ b) := by
  have hfind := @findLoop_eq m addr none m.mmRb (h.ordered ht)
  rw [h.find?_areas ha hb] at hfind
  rw [Mm.findVma]
  split
  · -- the cached area contains the address, so it is the first that ends above it
    rename_i hcache
    obtain ⟨c, hc, hend, hstart⟩ := hcache
    refine ⟨?_, h⟩
    obtain ⟨q, hq, rfl⟩ := mem_map.mp (h.cache c hc)
    rw [h.area q hq] at hend hstart
    rw [show m.mmapCache = some q.1 from hc]
    rcases mem_append.mp hq with hq | hq
    · have := ha q hq
      omega
    cases b with
    | nil => cases hq
    | cons r b =>
      rcases mem_cons.mp hq with rfl | hq
      · rfl
      · have := hb r mem_cons_self
        obtain ⟨-, hlt, -⟩ := tidy_cons.mp (tidy_append.mp ht).2.1
        have := hlt q hq
        omega
  · rw [hfind]
    cases b with
    | nil => exact ⟨rfl, h⟩
    | cons r b =>
      refine ⟨rfl, { h with cache := ?_ }⟩
      rintro c ⟨⟩
      simp

theorem findVmaPrev : m.findVmaPrev addr = (b.head?.map Prod.fst, a.getLast?.map Prod.fst) := by
  -- what the early exit of the loop relies on
  have hnext : m.mmRb.toList.Pairwise fun i j =>
      (∀ n ∈ m.vmNext i, addr < (m.vma n).end_) → addr < (m.vma j).end_ := by
    rw [h.rb, pairwise_map]
    have hsuffix : ∀ s r : Space, a ++ b = r ++ s → s.Pairwise fun p q =>
        (∀ n ∈ m.vmNext p.1, addr < (m.vma n).end_) → addr < (m.vma q.1).end_ := by
      intro s
      induction s with
      | nil => exact fun _ _ => .nil
      | cons p s ih =>
        intro r hr
        refine pairwise_cons.mpr ⟨fun q hq hall => ?_, ih (r ++ [p]) (by simp [hr])⟩
        rw [hr] at h ht
        rw [h.vmNext] at hall
        cases s with
        | nil => cases hq
        | cons n s =>
          have hn := hall n.1 rfl
          rcases mem_cons.mp hq with rfl | hq
          · exact hn
          · obtain ⟨-, -, htn⟩ := tidy_cons.mp (tidy_append.mp ht).2.1
            obtain ⟨-, hns, hts⟩ := tidy_cons.mp htn
            have := hns q hq
            have := (hts.valid q hq).start_lt
            rw [h.area n (by simp)] at hn
            rw [h.area q (by simp [hq])]
            omega
    exact hsuffix _ [] rfl
  have hfilter : m.mmRb.toList.filter (fun i => (m.vma i).end_ ≤ addr) = a.map Prod.fst := by
    rw [h.rb, map_append, filter_append, filter_eq_self.mpr, filter_eq_nil_iff.mpr,
      append_nil]
    · intro i hi
      obtain ⟨q, hq, rfl⟩ := mem_map.mp hi
      have := hb q hq
      rw [h.area q (mem_append_right a hq)]
      simpa using this
    · intro i hi
      obtain ⟨q, hq, rfl⟩ := mem_map.mp hi
      have := ha q hq
      rw [h.area q (mem_append_left b hq)]
      simpa using this
  have hprev := @prevLoop_eq m addr none m.mmRb (h.ordered ht) hnext
  rw [hfilter, Option.or_none, getLast?_map] at hprev
  rw [Mm.findVmaPrev, hprev]
  rw [h.following]

end

/-! ## Insertion -/

/-- Where the way down to a place never goes right, its parent is the first element. -/
theorem rbParent_eq (hp : p.before = []) : Mm.rbParent p = p.after.head? := by
  cases p with
  | root | left c p x r => rfl
  | right c l x p => simp [Rbtree.Path.before] at hp

/-- The loop of `find_vma_prepare` ends at an area that contains the address, or at an empty place
with the areas it returns on its two sides. -/
theorem prepareLoop_spec (hprev : prev = p.before.getLast?) (hvma : vma = p.after.head?)
    (hend : ∀ i ∈ prev, (m.vma i).end_ ≤ addr) (hlt : ∀ i ∈ vma, addr < (m.vma i).end_) :
    (∃ i ∈ t.toList, (m.prepareLoop addr t p vma prev).1 = some i ∧ (m.vma i).start ≤ addr ∧
      addr < (m.vma i).end_) ∨
    ∃ q, m.prepareLoop addr t p vma prev = (q.after.head?, q.before.getLast?, q) ∧
      q.before ++ q.after = p.before ++ t.toList ++ p.after ∧
      (∀ i ∈ q.before.getLast?, (m.vma i).end_ ≤ addr) ∧
      ∀ i ∈ q.after.head?, addr < (m.vma i).end_ := by
  induction t generalizing p vma prev with
  | nil =>
    subst hprev hvma
    exact .inr ⟨p, rfl, by simp [Rbtree.toList], hend, hlt⟩
  | node c l y r ihl ihr =>
    rw [Mm.prepareLoop]
    split
    next hy =>
      split
      next hy' =>
        exact .inl ⟨y, by simp [Rbtree.toList], rfl, hy', hy⟩
      · rcases @ihl prev (some y) (.left c p y r) hprev rfl hend (by rintro i ⟨⟩; exact hy) with
          ⟨i, hi, hrest⟩ | ⟨q, hq, hlist, hrest⟩
        · exact .inl ⟨i, by simp [Rbtree.toList, hi], hrest⟩
        · exact .inr ⟨q, hq, by simp [hlist, Rbtree.Path.before, Rbtree.Path.after, Rbtree.toList],
            hrest⟩
    · have hlast : some y = (Rbtree.Path.right c l y p).before.getLast? := by
        rw [Rbtree.Path.before, ← append_assoc, getLast?_concat]
      rcases @ihr (some y) vma (.right c l y p) hlast hvma (by rintro i ⟨⟩; omega) hlt with
        ⟨i, hi, hrest⟩ | ⟨q, hq, hlist, hrest⟩
      · exact .inl ⟨i, by simp [Rbtree.toList, hi], hrest⟩
      · exact .inr ⟨q, hq, by simp [hlist, Rbtree.Path.before, Rbtree.Path.after, Rbtree.toList],
          hrest⟩

/-- `vma_link`. -/
theorem vmaLink (h : Holds m (a ++ b)) (hnew : new ∉ (a ++ b).map Prod.fst)
    (hbefore : p.before = a.map Prod.fst) (hafter : p.after = b.map Prod.fst) :
    Holds (m.vmaLink new p.before.getLast? p) (a ++ (new, (m.vma new).toArea) :: b) := by
  have hsame : (m.vmaLink new p.before.getLast? p).vma = m.vma ∧
      (m.vmaLink new p.before.getLast? p).mmapCache = m.mmapCache ∧
      (m.vmaLink new p.before.getLast? p).mapCount = m.mapCount + 1 := by
    cases p.before.getLast? <;> exact ⟨rfl, rfl, rfl⟩
  obtain ⟨hvma, hcache, hcount⟩ := hsame
  have hseg := h.seg
  have hnodup := h.nodup
  rw [map_append] at hseg hnew hnodup
  rw [mem_append, not_or] at hnew
  refine ⟨?_, ?_, ?_, ?_, ?_, ?_⟩
  · show (Rbtree.rbInsertColor _ p).toList = _
    rw [Rbtree.toList_rbInsertColor, hbefore, hafter]
    simp [Rbtree.toList]
  · rw [hvma]
    obtain ⟨hbefore, hbehind⟩ := forall_mem_append.mp h.area
    exact forall_mem_append.mpr ⟨hbefore, forall_mem_cons.mpr ⟨rfl, hbehind⟩⟩
  · rw [map_append]
    obtain ⟨r, hr, hb⟩ := Seg.append_iff.mp hseg
    rcases eq_nil_or_concat' a with rfl | ⟨a, q, rfl⟩
    · -- `new` becomes the head of the list
      have hlast : p.before.getLast? = none := by rw [hbefore]; rfl
      rw [hlast]
      refine ⟨rfl, ?_⟩
      show Seg (update m.vmNext new (Mm.rbParent p)) (update m.vmNext new _ new) _ _
      rw [update_self, rbParent_eq hbefore, hafter]
      exact hb.head_eq ▸ hb.update hnew.2
    · have hlast : p.before.getLast? = some q.1 := by
        rw [hbefore, map_append, map_cons, map_nil, getLast?_concat]
      rw [hlast]
      rw [map_append] at hr hnew ⊢
      obtain ⟨hqa, hqb⟩ := (append_assoc a [q] b ▸ h).not_mem
      have hqnew : new ≠ q.1 := fun heq => hnew.1 (by simp [heq])
      refine ((hr.update hnew.1).relink hqa).append ⟨rfl, ?_⟩
      rw [update_of_ne hqnew, update_self]
      obtain ⟨-, -, -, hnext⟩ := Seg.append_iff.mp hr
      rw [hnext]
      exact (hb.update hnew.2).update hqb
  · rw [map_append]
    refine (perm_middle.nodup_iff).mpr (nodup_cons.mpr ⟨?_, hnodup⟩)
    simpa using hnew
  · rw [hcount, h.count]
    simp
    omega
  · rw [hcache]
    intro c hc
    have := h.cache c hc
    simp only [map_append, map_cons, mem_append, mem_cons] at this ⊢
    exact this.imp_right .inr

/-- `insert_vm_struct` fails only where an area overlaps the new one. -/
theorem insertVmStruct (h : Holds m l) (ht : Tidy l) (hnew : new ∉ l.map Prod.fst)
    (hV : (m.vma new).toArea = V) (hlt : V.start < V.end_) :
    (m.insertVmStruct new = none ∧ ∃ p ∈ l, p.2.start < V.end_ ∧ V.start < p.2.end_) ∨
    ∃ a b m', l = a ++ b ∧ (∀ p ∈ a, p.2.end_ ≤ V.start) ∧ (∀ p ∈ b, V.end_ ≤ p.2.start) ∧
      m.insertVmStruct new = some m' ∧ Holds m' (a ++ (new, V) :: b) := by
  have hstart : (m.vma new).start = V.start := congrArg Area.start hV
  have hend : (m.vma new).end_ = V.end_ := congrArg Area.end_ hV
  have hmem : ∀ i ∈ m.mmRb.toList, ∃ q ∈ l, q.1 = i ∧ (m.vma i).toArea = q.2 := by
    intro i hi
    rw [h.rb] at hi
    obtain ⟨q, hq, rfl⟩ := mem_map.mp hi
    exact ⟨q, hq, rfl, h.area q hq⟩
  rw [Mm.insertVmStruct, hstart, hend]
  rcases @prepareLoop_spec m V.start none none m.mmRb .root rfl rfl (by simp) (by simp) with
    ⟨i, hi, heq, hle, hlt'⟩ | ⟨q, heq, hlist, hbefore, hafter⟩
  · obtain ⟨r, hr, rfl, harea⟩ := hmem i hi
    rw [harea] at hle hlt'
    refine .inl ⟨?_, r, hr, by omega, hlt'⟩
    exact if_pos ⟨r.1, heq, by rw [harea]; omega⟩
  · rw [heq]
    simp only [Rbtree.Path.before, Rbtree.Path.after, nil_append, append_nil] at hlist
    split
    next hover =>
      obtain ⟨i, hi, hi'⟩ := hover
      have hi₂ := hafter i hi
      obtain ⟨r, hr, rfl, harea⟩ := hmem i (by
        rw [← hlist]
        exact mem_append_right _ (mem_of_mem_head? hi))
      rw [harea] at hi' hi₂
      exact .inl ⟨rfl, r, hr, hi', hi₂⟩
    next hno =>
      rw [h.rb] at hlist
      obtain ⟨a, b, rfl, hqa, hqb⟩ := map_eq_append_iff.mp hlist.symm
      refine .inr ⟨a, b, _, rfl, ?_, ?_, rfl, hV ▸ h.vmaLink hnew hqa.symm hqb.symm⟩
      · -- the last of them does not end above the address
        rcases eq_nil_or_concat' a with rfl | ⟨a, r, rfl⟩
        · exact fun p hp => absurd hp not_mem_nil
        have hr := hbefore r.1 (by rw [← hqa]; simp)
        rw [h.area r (by simp)] at hr
        obtain ⟨hta, -, -⟩ := tidy_append.mp ht
        obtain ⟨-, hr', har⟩ := tidy_append.mp hta
        have := (hr'.valid r mem_cons_self).start_lt
        intro s hs
        rcases mem_append.mp hs with hs | hs
        · have := har s hs r mem_cons_self
          omega
        · cases mem_singleton.mp hs
          exact hr
      · cases b with
        | nil => exact fun p hp => absurd hp not_mem_nil
        | cons r b =>
          have hr : V.end_ ≤ r.2.start := by
            by_contra hover
            refine hno ⟨r.1, by rw [← hqb]; rfl, ?_⟩
            rw [h.area r (by simp)]
            omega
          obtain ⟨hr', hrb, -⟩ := tidy_cons.mp (tidy_append.mp ht).2.1
          refine forall_mem_cons.mpr ⟨hr, fun s hs => ?_⟩
          have := hrb s hs
          have := hr'.start_lt
          omega

end Holds

/-! ## Consistent states -/

/-- The areas with their numbers, in the order of the tree. -/
def Mm.space (m : Mm) : Space := m.mmRb.toList.map fun i => (i, (m.vma i).toArea)

/-- The list leads through the areas in the order of the tree, they are valid and in the order of
their addresses, their number is the count, and the cached area is one of them. -/
structure Consistent (m : Mm) : Prop where
  list : Seg m.vmNext m.mmap m.mmRb.toList none
  tidy : Tidy m.space
  count : m.mapCount = m.mmRb.toList.length
  cache : ∀ c ∈ m.mmapCache, c ∈ m.mmRb.toList

section

variable {m : Mm} {l : Space}

theorem Mm.fst_space (m : Mm) : m.space.map Prod.fst = m.mmRb.toList := by
  simp [Mm.space, comp_def]

theorem Consistent.holds (h : Consistent m) : Holds m m.space := by
  have hids := m.fst_space
  refine ⟨hids.symm, fun p hp => ?_, hids ▸ h.list, ?_, ?_, hids ▸ h.cache⟩
  · obtain ⟨i, -, rfl⟩ := mem_map.mp hp
    rfl
  · -- an area does not end before it starts, so none is in the list twice
    rw [nodup_iff_pairwise_ne, pairwise_map]
    refine h.tidy.sorted.imp_of_mem fun {p q} hp hq hpq heq => ?_
    obtain ⟨i, -, rfl⟩ := mem_map.mp hp
    obtain ⟨j, -, rfl⟩ := mem_map.mp hq
    obtain rfl : i = j := heq
    exact absurd (h.tidy.valid _ hp).start_lt (Nat.not_lt.mpr hpq)
  · rw [h.count, Mm.space, length_map]

theorem Holds.space_eq (h : Holds m l) : m.space = l := by
  rw [Mm.space, h.rb, map_map]
  refine (map_congr_left fun p hp => ?_).trans (map_id l)
  show (p.1, (m.vma p.1).toArea) = p
  rw [h.area p hp]

theorem Holds.consistent (h : Holds m l) (ht : Tidy l) : Consistent m :=
  ⟨h.rb ▸ h.seg, h.space_eq ▸ ht, by rw [h.count, h.rb, length_map], h.rb ▸ h.cache⟩

end

end AndroidKernel.Mmap
