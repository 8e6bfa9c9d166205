import AndroidKernel.Resource.Insertion

/-!
# Ranges of resources

What a change of a range does: nothing for a resource that is in no tree (`Forest.setRange`), and
for one in a tree nothing that `adjust_resource` has not checked (`adjustResource_cases`,
`Adjusts.forest`).
-/

namespace AndroidKernel.Resource

open Function List Option

namespace Resources

variable {m : Resources} {parent new res start end_ x y : Nat} {kids pre post : List Nat}

/-! ## Ranges -/

/-- The range of a resource that is in no tree does not matter. -/
theorem Forest.setRange (hm : Forest m) (hdet : Detached m new) :
    Forest (m.setRange new start end_) := by
  refine ⟨fun x => ?_, hm.ranked⟩
  obtain ⟨kids, hkids⟩ := hm.kids x
  refine ⟨kids, hkids.setRange (hdet.not_mem hkids) ?_⟩
  rintro rfl y hy
  obtain rfl := hkids.unique (hdet.childless hm.kids)
  cases hy

/-- What `adjust_resource` has checked before it changes the range of `res`. -/
structure Adjusts (m : Resources) (parent res : Nat) (pre post kids : List Nat) (start end_ : Nat) :
    Prop where
  ne : parent ≠ res
  kids_parent : Kids m parent (pre ++ res :: post)
  kids_res : Kids m res kids
  proper : start ≤ end_
  inside : m.start parent ≤ start ∧ end_ ≤ m.end_ parent
  holds : ∀ y ∈ kids, start ≤ m.start y ∧ m.end_ y ≤ end_
  before : ∀ y ∈ pre, m.end_ y < start
  behind : ∀ y ∈ post, end_ < m.start y

namespace Adjusts

variable (h : Adjusts m parent res pre post kids start end_)
include h

theorem res_notMem : res ∉ pre ++ post := (nodup_cons.mp (nodup_middle.mp h.kids_parent.nodup)).1

theorem parent_setRange : (m.setRange res start end_).start parent = m.start parent ∧
      (m.setRange res start end_).end_ parent = m.end_ parent :=
  ⟨update_of_ne h.ne .., update_of_ne h.ne ..⟩

theorem setRange_of_mem (hy : y ∈ pre ++ post) : (m.setRange res start end_).start y = m.start y ∧
    (m.setRange res start end_).end_ y = m.end_ y := by
  have hne : y ≠ res := fun heq => h.res_notMem (heq ▸ hy)
  exact ⟨update_of_ne hne .., update_of_ne hne ..⟩

omit h in
theorem setRange_res :
    (m.setRange res start end_).start res = start ∧ (m.setRange res start end_).end_ res = end_ :=
  ⟨update_self .., update_self ..⟩

/-- The brothers of `res`, and `res` with its new range. -/
theorem siblings : Kids (m.setRange res start end_) parent (pre ++ res :: post) := by
  have hmem : ∀ y ∈ pre ++ res :: post, y = res ∨ y ∈ pre ++ post := by
    intro y hy
    simp only [mem_append, mem_cons] at hy ⊢
    tauto
  refine ⟨h.kids_parent.chain, h.kids_parent.parent, h.kids_parent.known, fun y hy => ?_,
    fun y hy => ?_, ?_⟩
  · rcases hmem y hy with rfl | hin
    · rw [setRange_res.1, setRange_res.2]
      exact h.proper
    · rw [(h.setRange_of_mem hin).1, (h.setRange_of_mem hin).2]
      exact h.kids_parent.proper y hy
  · rw [h.parent_setRange.1, h.parent_setRange.2]
    rcases hmem y hy with rfl | hin
    · rw [setRange_res.1, setRange_res.2]
      exact h.inside
    · rw [(h.setRange_of_mem hin).1, (h.setRange_of_mem hin).2]
      exact h.kids_parent.inside y hy
  · obtain ⟨hpre, hrest, hacross⟩ := pairwise_append.mp h.kids_parent.sorted
    refine pairwise_append.mpr ⟨?_, pairwise_cons.mpr ⟨fun z hz => ?_, ?_⟩, fun y hy z hz => ?_⟩
    · refine hpre.imp_of_mem fun {y z} hy hz hyz => ?_
      rw [(h.setRange_of_mem (mem_append_left post hy)).2,
        (h.setRange_of_mem (mem_append_left post hz)).1]
      exact hyz
    · rw [setRange_res.2, (h.setRange_of_mem (mem_append_right pre hz)).1]
      exact h.behind z hz
    · refine hrest.of_cons.imp_of_mem fun {y z} hy hz hyz => ?_
      rw [(h.setRange_of_mem (mem_append_right pre hy)).2,
        (h.setRange_of_mem (mem_append_right pre hz)).1]
      exact hyz
    · rw [(h.setRange_of_mem (mem_append_left post hy)).2]
      rcases mem_cons.mp hz with rfl | hz
      · rw [setRange_res.1]
        exact h.before y hy
      · rw [(h.setRange_of_mem (mem_append_right pre hz)).1]
        exact hacross y hy z (mem_cons_of_mem res hz)

theorem forest (hm : Forest m) : Forest (m.setRange res start end_) := by
  refine ⟨fun x => ?_, hm.ranked⟩
  by_cases hparent : x = parent
  · subst hparent
    exact ⟨_, h.siblings⟩
  obtain ⟨kids', hkids⟩ := hm.kids x
  have hres : res ∉ kids' := by
    have hmem : res ∈ pre ++ res :: post := mem_append_right pre mem_cons_self
    exact fun hin => h.kids_parent.ne_of_mem hparent hkids hmem hin rfl
  refine ⟨kids', hkids.setRange hres ?_⟩
  rintro rfl
  obtain rfl := hkids.unique h.kids_res
  exact h.holds

end Adjusts

/-! ## Adjustment -/

theorem holdsLoop_eq {fuel : Nat} {p : Option Nat} (hchain : Seg m.sibling p kids none)
    (hfuel : kids.length ≤ fuel) : m.holdsLoop start end_ fuel p =
      some (decide (∀ y ∈ kids, start ≤ m.start y ∧ m.end_ y ≤ end_)) := by
  induction kids generalizing fuel p with
  | nil =>
    cases hchain
    simp [holdsLoop]
  | cons t kids ih =>
    obtain ⟨rfl, hchain⟩ := hchain
    cases fuel with
    | zero => cases hfuel
    | succ fuel =>
      rw [holdsLoop, ih hchain (Nat.le_of_succ_le_succ hfuel)]
      by_cases ht : m.start t < start ∨ end_ < m.end_ t
      · rw [if_pos ht]
        have hnot : ¬∀ y ∈ t :: kids, start ≤ m.start y ∧ m.end_ y ≤ end_ := fun hall => by
          have := hall t mem_cons_self
          omega
        rw [decide_eq_false hnot]
      · rw [if_neg ht]
        have hin : start ≤ m.start t ∧ m.end_ t ≤ end_ := by omega
        simp only [forall_mem_cons, hin, true_and]

theorem clearsBefore_eq (h : Kids m parent (pre ++ res :: post)) :
    m.clearsBefore parent res start = some (decide (∀ t ∈ pre.getLast?, m.end_ t < start)) := by
  obtain ⟨r, hpre, rfl, -⟩ := Seg.append_iff.mp h.chain
  unfold clearsBefore
  cases pre with
  | nil =>
    rw [if_pos (show m.child parent = some res from hpre)]
    simp
  | cons s pre =>
    have hs : m.child parent = some s := hpre.1
    have hres : res ∉ s :: pre := fun hmem =>
      (nodup_cons.mp (nodup_middle.mp h.nodup)).1 (mem_append_left post hmem)
    have hne : some s ≠ some res := by
      rintro ⟨⟩
      exact hres mem_cons_self
    have hlength := h.length_le
    simp only [length_append, length_cons] at hlength
    rw [hs] at hpre
    have hbefore := beforeLoop_eq hpre (fun hmem => hres (mem_cons_of_mem s hmem))
      (show pre.length < m.num + 1 by omega)
    rw [hs, if_neg hne]
    simp only [bind_eq_bind, bind_some, hbefore, getLast?_cons]
    simp

theorem forall_lt_of_getLast (h : Kids m parent (pre ++ post))
    (hlast : ∀ t ∈ pre.getLast?, m.end_ t < start) : ∀ y ∈ pre, m.end_ y < start := by
  cases pre using reverseRecOn with
  | nil => exact fun _ hy => absurd hy not_mem_nil
  | append_singleton l t =>
    have ht := hlast t (getLast?_concat ..)
    have hproper := h.proper t (mem_append_left post (mem_append_right l mem_cons_self))
    obtain ⟨hsorted, -, -⟩ := pairwise_append.mp h.sorted
    intro y hy
    rcases mem_append.mp hy with hy | hy
    · have := (pairwise_append.mp hsorted).2.2 y hy t mem_cons_self
      omega
    · obtain rfl := mem_singleton.mp hy
      exact ht

theorem forall_lt_of_head (h : Kids m parent (pre ++ post))
    (hhead : ∀ s ∈ post.head?, end_ < m.start s) : ∀ y ∈ post, end_ < m.start y := by
  cases post with
  | nil => exact fun _ hy => absurd hy not_mem_nil
  | cons s post =>
    have hs := hhead s rfl
    have hproper := h.proper s (mem_append_right pre mem_cons_self)
    obtain ⟨-, hsorted, -⟩ := pairwise_append.mp h.sorted
    intro y hy
    rcases mem_cons.mp hy with rfl | hy
    · exact hs
    · have := rel_of_pairwise_cons hsorted hy
      omega

theorem adjustResource_cases {size : Nat} (hm : Forest m) (hparent : m.parent res = some parent)
    (hproper : start ≤ ulong ((start : Int) + size - 1)) :
    m.adjustResource res start size = some (false, m) ∨
      ∃ pre post kids, Adjusts m parent res pre post kids start (ulong ((start : Int) + size - 1)) ∧
        m.adjustResource res start size =
          some (true, m.setRange res start (ulong ((start : Int) + size - 1))) := by
  obtain ⟨brothers, hbrothers⟩ := hm.kids parent
  obtain ⟨kids, hkids⟩ := hm.kids res
  obtain ⟨pre, post, rfl⟩ := append_of_mem ((hbrothers.parent res).mpr hparent)
  have hne : parent ≠ res := by
    obtain ⟨rank, hrank⟩ := hm.ranked
    rintro rfl
    exact Nat.lt_irrefl _ (hrank _ _ hparent)
  have hsplit := hbrothers
  rw [append_cons] at hsplit
  have hnext : m.sibling res = post.head? := by
    have hlink := hsplit.link_eq
    rwa [getLast?_concat] at hlink
  unfold adjustResource
  rw [hparent]
  simp only [bind_eq_bind, bind_some]
  generalize ulong ((start : Int) + size - 1) = end_ at hproper
  by_cases hinside : start < m.start parent ∨ m.end_ parent < end_
  · exact .inl (if_pos hinside)
  rw [if_neg hinside, holdsLoop_eq hkids.chain (Nat.le_succ_of_le hkids.length_le)]
  by_cases hholds : ∀ y ∈ kids, start ≤ m.start y ∧ m.end_ y ≤ end_
  swap
  · rw [decide_eq_false hholds]
    exact .inl rfl
  rw [decide_eq_true hholds]
  by_cases hbehind : ∃ s ∈ m.sibling res, m.start s ≤ end_
  · exact .inl (if_pos hbehind)
  rw [if_neg hbehind, clearsBefore_eq hbrothers]
  by_cases hbefore : ∀ t ∈ pre.getLast?, m.end_ t < start
  swap
  · rw [decide_eq_false hbefore]
    exact .inl rfl
  rw [decide_eq_true hbefore]
  refine .inr ⟨pre, post, kids, ⟨hne, hbrothers, hkids, hproper, by omega, hholds, ?_, ?_⟩, rfl⟩
  · exact forall_lt_of_getLast hbrothers hbefore
  · refine forall_lt_of_head hsplit fun s hs => ?_
    rw [← hnext] at hs
    exact Nat.not_le.mp fun hle => hbehind ⟨s, hs, hle⟩

end Resources

end AndroidKernel.Resource
