import AndroidKernel.Resource.Links

/-!
# Insertion

What `__insert_resource` does. It goes down the tree as long as a child contains `new`
(`descend_descended`), and there `new` is put between two children, or takes the place of those
that lie in it, which become its own (`adopt_eq`, `WellFormed.adopted`).

It comes to an end because a rank rises along the way down: `Ranked` says that no resource is
above itself.
-/

namespace AndroidKernel.Resource

open Function List Option

namespace Resources

variable {m m' : Resources} {root parent new first last x y : Nat} {kids pre run post : List Nat}

/-- No resource is above itself. -/
def Ranked (m : Resources) : Prop :=
  ∃ rank : Nat → Nat, ∀ y x, m.parent y = some x → rank x < rank y

/-! ## The way down -/

/-- Where the first loop ends. -/
inductive Descended (m : Resources) (root new : Nat) : Descent → Prop
  | placed (parent : Nat) (pre post : List Nat) (hkids : Kids m parent (pre ++ post))
      (hne : parent ≠ new) (hfits : m.Fits parent new) (hpre : ∀ y ∈ pre, m.end_ y < m.start new)
      (hpost : ∀ y ∈ post, m.end_ new < m.start y) :
      Descended m root new (.returns none (m.insertAt parent new pre.getLast?))
  | refused (hfits : ¬m.Fits root new) : Descended m root new (.returns (some root) m)
  | breaks (parent first : Nat) (pre post : List Nat) (hkids : Kids m parent (pre ++ first :: post))
      (hne : parent ≠ new) (hfits : m.Fits parent new)
      (hpre : ∀ y ∈ pre, m.end_ y < m.start new) (hstart : m.start first ≤ m.end_ new)
      (hend : m.start new ≤ m.end_ first) : Descended m root new (.breaks parent first)

theorem descend_descended {rank : Nat → Nat} {path : List Nat} {fuel : Nat} (hm : WellFormed m)
    (hrank : ∀ y x, m.parent y = some x → rank x < rank y) (hdet : Detached m new)
    (hfits : parent = root ∨ m.Fits parent new) (hne : parent ≠ new) (hnd : path.Nodup)
    (hknown : ∀ y ∈ path, y < m.num) (habove : ∀ y ∈ path, rank y ≤ rank parent)
    (hfuel : m.num < fuel + path.length) :
    ∃ d, m.descend new fuel parent = some d ∧ Descended m root new d := by
  -- `path` are the resources that the loop has gone through, without the first.
  induction fuel generalizing parent path with
  | zero =>
    have hlength := length_le_of_nodup hnd hknown
    omega
  | succ fuel ih =>
    obtain ⟨kids, h⟩ := hm parent
    obtain ⟨r, hr, hcases⟩ := @requestResource_cases m parent new kids h
    unfold descend
    rw [hr]
    rcases hcases with ⟨rfl, hnot⟩ | ⟨hfits, hreq⟩
    · obtain rfl := hfits.resolve_right hnot
      exact ⟨_, if_pos rfl, .refused hnot⟩
    cases hreq with
    | placed pre post hkids hpre hpost =>
      subst hkids
      exact ⟨_, rfl, .placed parent pre post h hne hfits hpre hpost⟩
    | conflict pre first post hkids hpre hstart hend =>
      subst hkids
      have hmem : first ∈ pre ++ first :: post := mem_append_right pre mem_cons_self
      have hparent := (h.parent first).mp hmem
      have hrise := hrank first parent hparent
      have hfirst : first ≠ parent := by
        rintro rfl
        exact Nat.lt_irrefl _ hrise
      have hbreaks : Descended m root new (.breaks parent first) :=
        .breaks parent first pre post h hne hfits hpre hstart hend
      show ∃ d, (if first = parent then _ else _) = some d ∧ _
      rw [if_neg hfirst]
      by_cases houtside : m.start new < m.start first ∨ m.end_ first < m.end_ new
      · rw [if_pos houtside]
        exact ⟨_, rfl, hbreaks⟩
      rw [if_neg houtside]
      by_cases hsame : m.start first = m.start new ∧ m.end_ first = m.end_ new
      · rw [if_pos hsame]
        exact ⟨_, rfl, hbreaks⟩
      rw [if_neg hsame]
      -- `new` lies in `first`, so that the next round is not refused.
      have hfits' : m.Fits first new := ⟨hfits.1, by omega, by omega⟩
      have hne' : first ≠ new := by
        rintro rfl
        cases hdet.parent.symm.trans hparent
      have hfresh : first ∉ path := fun hin => absurd (habove first hin) (Nat.not_le.mpr hrise)
      refine @ih first (first :: path) (.inr hfits') hne' (nodup_cons.mpr ⟨hfresh, hnd⟩) ?_ ?_ ?_
      · exact forall_mem_cons.mpr ⟨h.known first hmem, hknown⟩
      · exact forall_mem_cons.mpr ⟨le_rfl, fun y hy => (habove y hy).trans hrise.le⟩
      · rw [length_cons]
        omega

/-! ## The resources that are adopted -/

/-- The loop ends at a resource that is in `new` in part only, or at the last that is in it. -/
theorem adoptLoop_adopts {fuel next : Nat} (hchain : Seg m.sibling (some next) (next :: post) none)
    (hsorted : (next :: post).Pairwise fun y z => m.end_ y < m.start z)
    (hproper : ∀ y ∈ next :: post, m.start y ≤ m.end_ y) (hfuel : post.length < fuel) :
    (∃ c, m.adoptLoop new fuel next = some (.inl c) ∧
      (m.start c < m.start new ∨ m.end_ new < m.end_ c)) ∨
    ∃ run last rest, next :: post = run ++ last :: rest ∧
      m.adoptLoop new fuel next = some (.inr last) ∧
      (∀ y ∈ run ++ [last], m.start new ≤ m.start y ∧ m.end_ y ≤ m.end_ new) ∧
      ∀ y ∈ rest, m.end_ new < m.start y := by
  induction post generalizing fuel next with
  | nil =>
    obtain ⟨fuel, rfl⟩ := Nat.exists_eq_add_of_lt hfuel
    obtain ⟨-, hnext⟩ := hchain
    rw [adoptLoop]
    by_cases hpart : m.start next < m.start new ∨ m.end_ new < m.end_ next
    · exact .inl ⟨next, if_pos hpart, hpart⟩
    · refine .inr ⟨[], next, [], rfl, ?_, ?_, fun _ hy => absurd hy not_mem_nil⟩
      · rw [if_neg hpart, show m.sibling next = none from hnext]
      · intro y hy
        obtain rfl := mem_singleton.mp hy
        omega
  | cons s post ih =>
    cases fuel with
    | zero => cases hfuel
    | succ fuel =>
      obtain ⟨-, hnext, hrest⟩ := hchain
      rw [adoptLoop]
      by_cases hpart : m.start next < m.start new ∨ m.end_ new < m.end_ next
      · exact .inl ⟨next, if_pos hpart, hpart⟩
      rw [if_neg hpart, hnext]
      -- The siblings from `s` on lie behind `new`, or `s` has to be adopted as well.
      by_cases hbehind : m.end_ new < m.start s
      · refine .inr ⟨[], next, s :: post, rfl, if_pos hbehind, ?_, ?_⟩
        · intro y hy
          obtain rfl := mem_singleton.mp hy
          omega
        · intro y hy
          rcases mem_cons.mp hy with rfl | hy
          · exact hbehind
          · have hsy := rel_of_pairwise_cons hsorted.of_cons hy
            have hs := hproper s (mem_cons_of_mem next mem_cons_self)
            omega
      · simp only [if_neg hbehind]
        have hnext := @ih fuel s ⟨rfl, hrest⟩ hsorted.of_cons
          (fun y hy => hproper y (mem_cons_of_mem next hy)) (Nat.lt_of_succ_lt_succ hfuel)
        refine hnext.imp_right ?_
        rintro ⟨run, last, rest, hsplit, hr, hin, hbeyond⟩
        exact ⟨next :: run, last, rest, by rw [hsplit, cons_append], hr,
          forall_mem_cons.mpr ⟨by omega, hin⟩, hbeyond⟩

theorem reparentLoop_eq {fuel : Nat} {p : Option Nat} (hchain : Seg m.sibling p run none)
    (hfuel : run.length ≤ fuel) : reparentLoop new fuel p m =
      some { m with parent := fun y => if y ∈ run then some new else m.parent y } := by
  induction run generalizing fuel p m with
  | nil =>
    cases hchain
    simp [reparentLoop]
  | cons t run ih =>
    obtain ⟨rfl, hchain⟩ := hchain
    cases fuel with
    | zero => cases hfuel
    | succ fuel =>
      refine (ih (m := { m with parent := update m.parent t (some new) }) hchain
        (Nat.le_of_succ_le_succ hfuel)).trans ?_
      congr 2
      funext y
      by_cases hy : y = t
      · subst hy
        simp
      · simp [hy]

/-- The loop stops at the last of the resources that lead to `first`. -/
theorem beforeLoop_eq {fuel next : Nat}
    (hchain : Seg m.sibling (some next) (next :: pre) (some first))
    (hfirst : first ∉ pre) (hfuel : pre.length < fuel) :
    m.beforeLoop first fuel next = (next :: pre).getLast? := by
  induction pre generalizing fuel next with
  | nil =>
    obtain ⟨fuel, rfl⟩ := Nat.exists_eq_add_of_lt hfuel
    rw [beforeLoop, show m.sibling next = some first from hchain.2]
    exact if_pos rfl
  | cons s pre ih =>
    cases fuel with
    | zero => cases hfuel
    | succ fuel =>
      obtain ⟨-, hnext, hrest⟩ := hchain
      have hs : some s ≠ some first := by
        rintro ⟨⟩
        exact hfirst mem_cons_self
      rw [beforeLoop, hnext, if_neg hs]
      exact ih ⟨rfl, hrest⟩ (fun hmem => hfirst (mem_cons_of_mem s hmem))
        (Nat.lt_of_succ_lt_succ hfuel)

/-! ## Adoption -/

/-- The resources `first` to `last` as children of `new`, before `new` is linked. -/
def cutOut (m : Resources) (parent new first last : Nat) : Resources :=
  { m with
    parent := update m.parent new (some parent)
    sibling := update (update m.sibling new (m.sibling last)) last none
    child := update m.child new (some first) }

/-- What `adopt` leaves, where `run` are the resources `first` to `last`. -/
def adopted (m : Resources) (parent new first last : Nat) (run : List Nat) (p : Option Nat) :
    Resources :=
  let m := m.cutOut parent new first last
  { m with parent := fun y => if y ∈ run then some new else m.parent y }.setLink parent p (some new)

section Adopted

variable {p : Option Nat}

theorem start_adopted : (m.adopted parent new first last run p).start = m.start := start_setLink

theorem end_adopted : (m.adopted parent new first last run p).end_ = m.end_ := end_setLink

theorem num_adopted : (m.adopted parent new first last run p).num = m.num := num_setLink

theorem parent_adopted : (m.adopted parent new first last run p).parent =
    fun y => if y ∈ run then some new else update m.parent new (some parent) y :=
  parent_setLink

theorem sibling_adopted_of_ne (hnew : y ≠ new) (hlast : y ≠ last) (hprev : ∀ t ∈ p, y ≠ t) :
    (m.adopted parent new first last run p).sibling y = m.sibling y :=
  (sibling_setLink_of_ne hprev).trans
    ((update_of_ne hlast ..).trans (update_of_ne hnew ..))

end Adopted

/-- What holds where `__insert_resource` adopts `run` and `last`: they are the children of `parent`
that lie in `new`, which is not in the tree. -/
structure Adopts (m : Resources) (parent new : Nat) (pre run : List Nat) (last : Nat)
    (post : List Nat) : Prop where
  kids : Kids m parent (pre ++ (run ++ last :: post))
  ne : parent ≠ new
  detached : Detached m new
  childless : Kids m new []
  known : new < m.num
  fits : m.Fits parent new
  before : ∀ y ∈ pre, m.end_ y < m.start new
  within : ∀ y ∈ run ++ [last], m.start new ≤ m.start y ∧ m.end_ y ≤ m.end_ new
  behind : ∀ y ∈ post, m.end_ new < m.start y

namespace Adopts

variable (h : Adopts m parent new pre run last post)
include h

theorem nodup : (pre ++ ((run ++ [last]) ++ post)).Nodup := by
  have hnd := h.kids.nodup
  rwa [append_cons run last post] at hnd

theorem not_mem : new ∉ pre ++ (run ++ last :: post) := h.detached.not_mem h.kids

theorem new_notMem_pre : new ∉ pre := fun hmem => h.not_mem (mem_append_left _ hmem)

theorem parent_of_run (hy : y ∈ run ++ [last]) : m.parent y = some parent := by
  refine (h.kids.parent y).mp (mem_append_right pre ?_)
  rw [append_cons run last post]
  exact mem_append_left post hy

theorem new_notMem_run : new ∉ run ++ [last] := by
  intro hmem
  cases h.detached.parent.symm.trans (h.parent_of_run hmem)

theorem new_notMem_post : new ∉ post := by
  intro hmem
  refine h.not_mem (mem_append_right pre ?_)
  exact mem_append_right run (mem_cons_of_mem last hmem)

theorem notMem_run_of_pre (hy : y ∈ pre) : y ∉ run ++ [last] := by
  intro hmem
  exact (nodup_append.mp h.nodup).2.2 y hy y (mem_append_left post hmem) rfl

theorem notMem_pre_of_post (hy : y ∈ post) : y ∉ pre := by
  intro hmem
  exact (nodup_append.mp h.nodup).2.2 y hmem y (mem_append_right _ hy) rfl

theorem notMem_run_of_post (hy : y ∈ post) : y ∉ run ++ [last] := by
  intro hmem
  exact (nodup_append.mp (nodup_append.mp h.nodup).2.1).2.2 y hmem y hy rfl

section

variable (hfirst : (run ++ [last]).head? = some first)

include hfirst

/-- The three parts of the chain. -/
theorem segs : Seg m.sibling (m.child parent) pre (some first) ∧
      Seg m.sibling (some first) (run ++ [last]) (m.sibling last) ∧
      Seg m.sibling (m.sibling last) post none := by
  have hchain := h.kids.chain
  rw [append_cons run last post] at hchain
  obtain ⟨r, hpre, hrest⟩ := Seg.append_iff.mp hchain
  obtain ⟨q, hrun, hpost⟩ := Seg.append_iff.mp hrest
  have hq : m.sibling last = q := by
    obtain ⟨_, -, -, hlast⟩ := Seg.append_iff.mp hrun
    exact hlast
  have hr : r = some first := by
    cases hl : run ++ [last] with
    | nil =>
      rw [hl] at hfirst
      cases hfirst
    | cons t l =>
      rw [hl] at hrun hfirst
      exact hrun.1.trans hfirst
  subst hq hr
  exact ⟨hpre, hrun, hpost⟩

theorem seg_run :
    Seg (m.cutOut parent new first last).sibling (some first) (run ++ [last]) none := by
  obtain ⟨-, hrun, -⟩ := h.segs hfirst
  have hlast : last ∉ run := by
    have hnd := (nodup_append.mp (nodup_append.mp h.nodup).2.1).1
    intro hmem
    exact (nodup_append.mp hnd).2.2 last hmem last mem_cons_self rfl
  exact (hrun.update h.new_notMem_run).relink hlast

theorem seg_pre :
    Seg (m.cutOut parent new first last).sibling ((m.cutOut parent new first last).child parent) pre
      (some first) := by
  obtain ⟨hpre, -, -⟩ := h.segs hfirst
  show Seg _ (update m.child new (some first) parent) pre (some first)
  rw [update_of_ne h.ne]
  refine (hpre.update h.new_notMem_pre).update fun hmem => ?_
  exact h.notMem_run_of_pre hmem (mem_append_right run mem_cons_self)

theorem adopt_eq : m.adopt parent new first last =
      some (m.adopted parent new first last (run ++ [last]) pre.getLast?) := by
  have hlength : (run ++ [last]).length ≤ m.num + 1 ∧ pre.length < m.num + 1 := by
    have hle := h.kids.length_le
    simp only [length_append, length_cons, length_nil] at hle ⊢
    omega
  have hre := @reparentLoop_eq _ new _ _ _ (h.seg_run hfirst) hlength.1
  have hpre := h.seg_pre hfirst
  refine (congrArg (· >>= _) hre).trans ?_
  simp only [bind_eq_bind, bind_some]
  cases pre with
  | nil =>
    rw [if_pos (show (m.cutOut parent new first last).child parent = some first from hpre)]
    rfl
  | cons s pre =>
    have hs : (m.cutOut parent new first last).child parent = some s := hpre.1
    have hfs : first ∉ s :: pre := fun hmem =>
      h.notMem_run_of_pre hmem (mem_of_mem_head? hfirst)
    have hne : some s ≠ some first := by
      rintro ⟨⟩
      exact hfs mem_cons_self
    rw [hs] at hpre
    have hbefore := beforeLoop_eq (m := { m.cutOut parent new first last with
      parent := fun y => if y ∈ run ++ [last] then some new else
        (m.cutOut parent new first last).parent y }) hpre
      (fun hmem => hfs (mem_cons_of_mem s hmem)) (Nat.lt_of_succ_lt hlength.2)
    rw [hs, if_neg hne]
    refine (congrArg (· >>= _) hbefore).trans ?_
    rfl

/-- `new` takes the place of the resources it has adopted. -/
theorem kids_parent : Kids (m.adopted parent new first last (run ++ [last]) pre.getLast?) parent
      (pre ++ new :: post) := by
  obtain ⟨-, -, hpost⟩ := h.segs hfirst
  have hndpre := (nodup_append.mp h.nodup).1
  have hlast : new ≠ last := fun heq =>
    h.new_notMem_run (heq ▸ mem_append_right run mem_cons_self)
  have hsub : (pre ++ post).Sublist (pre ++ (run ++ last :: post)) :=
    (Sublist.refl pre).append ((sublist_cons_self last post).trans (sublist_append_right run _))
  refine h.kids.put hsub h.known h.fits h.before h.behind start_adopted end_adopted num_adopted ?_
    fun y => ?_
  · refine Seg.append (seg_setLink (h.seg_pre hfirst) hndpre) ⟨rfl, ?_⟩
    have hnext : (m.adopted parent new first last (run ++ [last]) pre.getLast?).sibling new =
        m.sibling last :=
      (sibling_setLink_of_ne (ne_getLast_of_notMem h.new_notMem_pre)).trans
        ((update_of_ne hlast ..).trans (update_self ..))
    refine hnext ▸ hpost.congr fun y hy => sibling_adopted_of_ne ?_ ?_ ?_
    · rintro rfl
      exact h.new_notMem_post hy
    · rintro rfl
      exact h.notMem_run_of_post hy (mem_append_right run mem_cons_self)
    · exact ne_getLast_of_notMem (h.notMem_pre_of_post hy)
  · rw [perm_middle.mem_iff, mem_cons, mem_append, parent_adopted]
    by_cases hrun : y ∈ run ++ [last]
    · simp only [if_pos hrun, some.injEq, h.ne.symm, iff_false]
      rintro (rfl | hy | hy)
      · exact h.new_notMem_run hrun
      · exact h.notMem_run_of_pre hy hrun
      · exact h.notMem_run_of_post hy hrun
    simp only [if_neg hrun]
    by_cases hnew : y = new
    · subst hnew
      rw [update_self]
      exact iff_of_true (.inl rfl) rfl
    · rw [update_of_ne hnew, ← h.kids.parent y]
      simp only [mem_append, mem_cons] at hrun ⊢
      tauto

/-- The resources that `new` has adopted are its children. -/
theorem kids_new :
    Kids (m.adopted parent new first last (run ++ [last]) pre.getLast?) new (run ++ [last]) := by
  have hsub : (run ++ [last]).Sublist (pre ++ (run ++ last :: post)) := by
    refine .trans ?_ (sublist_append_right pre _)
    exact (Sublist.refl run).append ((nil_sublist post).cons_cons last)
  refine ⟨?_, fun y => ?_, fun y hy => ?_, fun y hy => ?_, fun y hy => ?_, ?_⟩
  · have hchild : (m.adopted parent new first last (run ++ [last]) pre.getLast?).child new =
        some first :=
      (child_setLink_of_ne h.ne.symm).trans (update_self ..)
    rw [hchild]
    refine (h.seg_run hfirst).congr fun y hy => sibling_setLink_of_ne (ne_getLast_of_notMem ?_)
    exact fun hmem => h.notMem_run_of_pre hmem hy
  · rw [parent_adopted]
    by_cases hrun : y ∈ run ++ [last]
    · exact iff_of_true hrun (if_pos hrun)
    · simp only [hrun, false_iff]
      by_cases hnew : y = new
      · subst hnew
        rw [update_self]
        exact fun heq => h.ne (some.inj heq)
      · rw [update_of_ne hnew]
        exact mt (h.childless.parent y).mpr not_mem_nil
  · rw [num_adopted]
    exact h.kids.known y (hsub.mem hy)
  · rw [start_adopted, end_adopted]
    exact h.kids.proper y (hsub.mem hy)
  · rw [start_adopted, end_adopted]
    exact h.within y hy
  · rw [start_adopted, end_adopted]
    exact h.kids.sorted.sublist hsub

end

theorem wellFormed (hm : WellFormed m) (hfirst : (run ++ [last]).head? = some first) :
    WellFormed (m.adopted parent new first last (run ++ [last]) pre.getLast?) := by
  intro x
  by_cases hparent : x = parent
  · subst hparent
    exact ⟨_, h.kids_parent hfirst⟩
  by_cases hnew : x = new
  · subst hnew
    exact ⟨_, h.kids_new hfirst⟩
  obtain ⟨kids, hkids⟩ := hm x
  have hlast : last ∈ pre ++ (run ++ last :: post) :=
    mem_append_right pre (mem_append_right run mem_cons_self)
  refine ⟨kids, hkids.frame ((child_setLink_of_ne hparent).trans (update_of_ne hnew ..))
    (fun y hy => ?_) (fun y => ?_) num_adopted start_adopted end_adopted⟩
  · refine sibling_adopted_of_ne (fun heq => h.detached.not_mem hkids (heq ▸ hy)) ?_ fun t ht => ?_
    · exact h.kids.ne_of_mem hparent hkids hlast hy
    · exact h.kids.ne_of_mem hparent hkids (mem_append_left _ (mem_of_getLast? ht)) hy
  · rw [parent_adopted]
    by_cases hrun : y ∈ run ++ [last]
    · -- The adopted resources were children of `parent`, and `x` is neither that nor `new`.
      simp only [if_pos hrun, h.parent_of_run hrun, some.injEq]
      exact iff_of_false (fun heq => hnew heq.symm) fun heq => hparent heq.symm
    simp only [if_neg hrun]
    by_cases hy : y = new
    · subst hy
      rw [update_self, h.detached.parent]
      exact iff_of_false (fun heq => hparent (some.inj heq).symm) nofun
    · rw [update_of_ne hy]

/-- The ranks are spread, so that there is room for `new` between its parent and its children. -/
theorem ranked (hm : Ranked m) :
    Ranked (m.adopted parent new first last (run ++ [last]) pre.getLast?) := by
  obtain ⟨rank, hrank⟩ := hm
  refine ⟨update (fun y => 2 * rank y) new (2 * rank parent + 1), fun y x hyx => ?_⟩
  rw [parent_adopted] at hyx
  by_cases hrun : y ∈ run ++ [last]
  · simp only [if_pos hrun, some.injEq] at hyx
    subst hyx
    have hne : y ≠ new := fun heq => h.new_notMem_run (heq ▸ hrun)
    have hy := hrank y parent (h.parent_of_run hrun)
    rw [update_self, update_of_ne hne]
    omega
  simp only [if_neg hrun] at hyx
  by_cases hy : y = new
  · subst hy
    rw [update_self] at hyx
    cases hyx
    rw [update_self, update_of_ne h.ne]
    omega
  · rw [update_of_ne hy] at hyx
    have hx : x ≠ new := by
      rintro rfl
      exact not_mem_nil ((h.childless.parent y).mpr hyx)
    have := hrank y x hyx
    rw [update_of_ne hy, update_of_ne hx]
    omega

end Adopts

/-! ## The call -/

theorem Ranked.insertAt {p : Option Nat} (hm : Ranked m) (hchildless : Kids m new [])
    (hne : parent ≠ new) : Ranked (m.insertAt parent new p) := by
  obtain ⟨rank, hrank⟩ := hm
  refine ⟨update rank new (rank parent + 1), fun y x hyx => ?_⟩
  rw [parent_insertAt] at hyx
  by_cases hy : y = new
  · subst hy
    rw [update_self] at hyx
    cases hyx
    rw [update_self, update_of_ne hne]
    omega
  · rw [update_of_ne hy] at hyx
    have hx : x ≠ new := by
      rintro rfl
      exact not_mem_nil ((hchildless.parent y).mpr hyx)
    rw [update_of_ne hy, update_of_ne hx]
    exact hrank y x hyx

/-- Each resource has its children, and none is above itself. -/
structure Forest (m : Resources) : Prop where
  kids : WellFormed m
  ranked : Ranked m

/-- A request leaves a forest with the same ranges. -/
theorem Forest.requestResource (hm : Forest m) (hdet : Detached m new) (hknown : new < m.num)
    (hne : root ≠ new) : ∃ r, m.requestResource root new = some r ∧ Forest r.2 ∧
      r.2.start = m.start ∧ r.2.end_ = m.end_ := by
  obtain ⟨kids, h⟩ := hm.kids root
  obtain ⟨r, hr, hcases⟩ := @requestResource_cases m root new kids h
  refine ⟨r, hr, ?_⟩
  rcases hcases with ⟨rfl, -⟩ | ⟨hfits, hreq⟩
  · exact ⟨hm, rfl, rfl⟩
  cases hreq with
  | placed pre post hkids hpre hpost =>
    subst hkids
    have hforest : Forest (m.insertAt root new pre.getLast?) :=
      ⟨hm.kids.insertAt h hdet hknown hfits hpre hpost,
        hm.ranked.insertAt (hdet.childless hm.kids) hne⟩
    exact ⟨hforest, start_insertAt, end_insertAt⟩
  | conflict pre t post hkids hpre hstart hend => exact ⟨hm, rfl, rfl⟩

/-- What `__insert_resource` does: it leaves a forest with the same ranges, or returns a resource in
conflict and leaves everything as it was. -/
inductive Inserted (m : Resources) (root new : Nat) : Option Nat × Resources → Prop
  | done (m' : Resources) (hforest : Forest m') (hstart : m'.start = m.start)
      (hend : m'.end_ = m.end_)
      (hnum : m'.num = m.num) : Inserted m root new (none, m')
  | refused : Inserted m root new (some root, m)
  | overlap (next : Nat) (hproper : m.start new ≤ m.end_ new)
      (hpart : m.start next < m.start new ∨ m.end_ new < m.end_ next) :
      Inserted m root new (some next, m)

theorem Forest.insertResource (hm : Forest m) (hdet : Detached m new) (hknown : new < m.num)
    (hne : root ≠ new) : ∃ r, m.insertResource root new = some r ∧ Inserted m root new r := by
  have hchildless := hdet.childless hm.kids
  obtain ⟨rank, hrank⟩ := hm.ranked
  obtain ⟨d, hd, hdesc⟩ := @descend_descended m root root new rank [] (m.num + 1) hm.kids hrank hdet
    (.inl rfl) hne nodup_nil (fun _ hy => absurd hy not_mem_nil)
    (fun _ hy => absurd hy not_mem_nil) (Nat.lt_succ_self m.num)
  unfold Resources.insertResource
  rw [hd]
  cases hdesc with
  | placed parent pre post hkids hne hfits hpre hpost =>
    refine ⟨_, rfl, .done _ ⟨?_, ?_⟩ start_insertAt end_insertAt num_insertAt⟩
    · exact hm.kids.insertAt hkids hdet hknown hfits hpre hpost
    · exact hm.ranked.insertAt hchildless hne
  | refused hfits => exact ⟨_, rfl, .refused⟩
  | breaks parent first pre post hkids hne hfits hpre hstart hend =>
    obtain ⟨r, -, hchain⟩ := Seg.append_iff.mp hkids.chain
    have hlength := hkids.length_le
    rw [length_append, length_cons] at hlength
    have hloop := @adoptLoop_adopts m new post (m.num + 1) first ⟨rfl, hchain.2⟩
      (pairwise_append.mp hkids.sorted).2.1
      (fun y hy => hkids.proper y (mem_append_right pre hy)) (by omega)
    obtain ⟨c, hc, hpart⟩ | ⟨run, last, rest, hsplit, hl, hin, hbehind⟩ := hloop
    · refine ⟨(some c, m), ?_, .overlap c hfits.1 hpart⟩
      simp only [bind_eq_bind, bind_some, hc]
      rfl
    · rw [hsplit] at hkids
      have hadopts : Adopts m parent new pre run last rest :=
        ⟨hkids, hne, hdet, hchildless, hknown, hfits, hpre, hin, hbehind⟩
      have hfirst : (run ++ [last]).head? = some first := by
        have hhead := congrArg head? hsplit
        cases run <;> exact hhead.symm
      refine ⟨_, ?_, .done _ ⟨hadopts.wellFormed hm.kids hfirst, hadopts.ranked hm.ranked⟩
        start_adopted end_adopted num_adopted⟩
      simp only [bind_eq_bind, bind_some, hl, hadopts.adopt_eq hfirst]
      rfl

end Resources

end AndroidKernel.Resource
