import AndroidKernel.Resource.Tree
import Mathlib.Data.List.Induction
import Mathlib.Data.List.Perm.Subperm

/-!
# The children of a resource

What the calls do to the lists of children. `Kids m x l` says that `l` are the children of `x` in
the order of their `sibling` links, that these and no others have `x` as their parent, and that
they are sorted, apart from each other and inside the range of `x`.

- `requestLoop_requested`: a request is put between two children, or it is in conflict with the
  first child that it overlaps.
- `WellFormed.insertAt`, `WellFormed.releaseResource`: with one resource more or less, each still
  has its children.
-/

namespace AndroidKernel.Resource

open Function List

namespace Resources

variable {m m' : Resources} {root new x y z w : Nat} {kids pre post : List Nat}

structure Kids (m : Resources) (x : Nat) (kids : List Nat) : Prop where
  chain : Seg m.sibling (m.child x) kids none
  parent : ∀ y, y ∈ kids ↔ m.parent y = some x
  known : ∀ y ∈ kids, y < m.num
  proper : ∀ y ∈ kids, m.start y ≤ m.end_ y
  inside : ∀ y ∈ kids, m.start x ≤ m.start y ∧ m.end_ y ≤ m.end_ x
  sorted : kids.Pairwise fun y z => m.end_ y < m.start z

/-- Each resource has its children. -/
def WellFormed (m : Resources) : Prop := ∀ x, ∃ kids, Kids m x kids

theorem length_le_of_nodup {l : List Nat} {n : Nat} (hnd : l.Nodup) (hlt : ∀ y ∈ l, y < n) :
    l.length ≤ n := by
  have hsub : l ⊆ range n := fun y hy => mem_range.mpr (hlt y hy)
  have hle := (subperm_of_subset hnd hsub).length_le
  rwa [length_range] at hle

namespace Kids

theorem nodup (h : Kids m x kids) : kids.Nodup := by
  refine h.sorted.imp_of_mem fun {y z} hy _ hyz heq => ?_
  have hproper := h.proper y hy
  subst heq
  omega

theorem unique {kids' : List Nat} (h : Kids m x kids) (h' : Kids m x kids') : kids = kids' :=
  h.chain.unique h'.chain

/-- There are not more children than resources. -/
theorem length_le (h : Kids m x kids) : kids.length ≤ m.num := length_le_of_nodup h.nodup h.known

/-- What other resources point to does not matter. -/
theorem frame (h : Kids m x kids) (hchild : m'.child x = m.child x)
    (hsibling : ∀ y ∈ kids, m'.sibling y = m.sibling y)
    (hparent : ∀ y, m'.parent y = some x ↔ m.parent y = some x) (hnum : m'.num = m.num)
    (hstart : m'.start = m.start) (hend : m'.end_ = m.end_) : Kids m' x kids where
  chain := by
    rw [hchild]
    exact h.chain.congr hsibling
  parent y := (h.parent y).trans (hparent y).symm
  known := by
    rw [hnum]
    exact h.known
  proper := by
    rw [hstart, hend]
    exact h.proper
  inside := by
    rw [hstart, hend]
    exact h.inside
  sorted := by
    rw [hstart, hend]
    exact h.sorted

/-- Nor does the range of a resource that is none of them, as long as they are inside it. -/
theorem setRange {res start end_ : Nat} (h : Kids m x kids) (hres : res ∉ kids)
    (hinside : x = res → ∀ y ∈ kids, start ≤ m.start y ∧ m.end_ y ≤ end_) :
    Kids (m.setRange res start end_) x kids := by
  have hne : ∀ y ∈ kids, y ≠ res := fun y hy heq => hres (heq ▸ hy)
  have hstart : ∀ y ∈ kids, (m.setRange res start end_).start y = m.start y :=
    fun y hy => update_of_ne (hne y hy) ..
  have hend : ∀ y ∈ kids, (m.setRange res start end_).end_ y = m.end_ y :=
    fun y hy => update_of_ne (hne y hy) ..
  refine ⟨h.chain, h.parent, h.known, fun y hy => ?_, fun y hy => ?_, ?_⟩
  · rw [hstart y hy, hend y hy]
    exact h.proper y hy
  · rw [hstart y hy, hend y hy]
    show update m.start res start x ≤ _ ∧ _ ≤ update m.end_ res end_ x
    by_cases hx : x = res
    · subst hx
      rw [update_self, update_self]
      exact hinside rfl y hy
    · rw [update_of_ne hx, update_of_ne hx]
      exact h.inside y hy
  · refine h.sorted.imp_of_mem fun {y z} hy hz hyz => ?_
    rw [hend y hy, hstart z hz]
    exact hyz

/-- The link behind the first few children leads to the others. -/
theorem link_eq (h : Kids m x (pre ++ post)) : m.link x pre.getLast? = post.head? := by
  obtain ⟨r, hpre, hpost⟩ := Seg.append_iff.mp h.chain
  obtain rfl := hpost.head_eq
  cases pre using reverseRecOn with
  | nil => exact hpre
  | append_singleton l t =>
    rw [getLast?_concat]
    obtain ⟨_, -, -, ht⟩ := Seg.append_iff.mp hpre
    exact ht

end Kids

/-! ## Requests -/

/-- What the loop of `__request_resource` does: `new` is put behind the children that end before it,
or the first of the others is in conflict. -/
inductive Requested (m : Resources) (root new : Nat) (kids : List Nat) :
    Option Nat × Resources → Prop
  | placed (pre post : List Nat) (hkids : kids = pre ++ post)
      (hpre : ∀ y ∈ pre, m.end_ y < m.start new) (hpost : ∀ y ∈ post, m.end_ new < m.start y) :
      Requested m root new kids (none, m.insertAt root new pre.getLast?)
  | conflict (pre : List Nat) (t : Nat) (post : List Nat) (hkids : kids = pre ++ t :: post)
      (hpre : ∀ y ∈ pre, m.end_ y < m.start new) (hstart : m.start t ≤ m.end_ new)
      (hend : m.start new ≤ m.end_ t) : Requested m root new kids (some t, m)

theorem requestLoop_requested {fuel : Nat} (h : Kids m root (pre ++ post))
    (hpre : ∀ y ∈ pre, m.end_ y < m.start new) (hfuel : post.length < fuel) :
    ∃ r, m.requestLoop root new fuel pre.getLast? = some r ∧
      Requested m root new (pre ++ post) r := by
  -- The children that the loop has passed are `pre`.
  induction post generalizing fuel pre with
  | nil =>
    obtain ⟨fuel, rfl⟩ := Nat.exists_eq_add_of_lt hfuel
    have hlink : m.link root pre.getLast? = none := h.link_eq
    refine ⟨_, ?_, .placed pre [] rfl hpre fun _ hy => absurd hy not_mem_nil⟩
    rw [requestLoop, hlink]
  | cons t post ih =>
    cases fuel with
    | zero => cases hfuel
    | succ fuel =>
      have hlink : m.link root pre.getLast? = some t := h.link_eq
      have hfuel : post.length < fuel := Nat.lt_of_succ_lt_succ hfuel
      rw [requestLoop, hlink]
      -- `t` lies behind `new`, before it, or in conflict with it.
      by_cases hafter : m.end_ new < m.start t
      · refine ⟨_, if_pos hafter, .placed pre (t :: post) rfl hpre fun y hy => ?_⟩
        rcases mem_cons.mp hy with rfl | hy
        · exact hafter
        · have hsorted := (pairwise_append.mp h.sorted).2.1
          have hty := rel_of_pairwise_cons hsorted hy
          have hproper := h.proper t (mem_append_right pre mem_cons_self)
          omega
      · by_cases hbefore : m.end_ t < m.start new
        · have hsplit : pre ++ t :: post = (pre ++ [t]) ++ post := by simp
          have hpre' : ∀ y ∈ pre ++ [t], m.end_ y < m.start new := by
            intro y hy
            rcases mem_append.mp hy with hy | hy
            · exact hpre y hy
            · rw [mem_singleton.mp hy]
              exact hbefore
          rw [hsplit] at h
          obtain ⟨r, hr, hreq⟩ := ih h hpre' hfuel
          rw [getLast?_concat] at hr
          refine ⟨r, ?_, hsplit ▸ hreq⟩
          simp only [if_neg hafter, if_pos hbefore]
          exact hr
        · refine ⟨_, ?_,
            .conflict pre t post rfl hpre (Nat.not_lt.mp hafter) (Nat.not_lt.mp hbefore)⟩
          simp only [if_neg hafter, if_neg hbefore]

/-- The range of `new` is one, and it lies in the range of `root`. -/
def Fits (m : Resources) (root new : Nat) : Prop :=
  m.start new ≤ m.end_ new ∧ m.start root ≤ m.start new ∧ m.end_ new ≤ m.end_ root

/-- What `__request_resource` does. -/
theorem requestResource_cases (h : Kids m root kids) : ∃ r, m.requestResource root new = some r ∧
      (r = (some root, m) ∧ ¬m.Fits root new ∨ m.Fits root new ∧ Requested m root new kids r) := by
  unfold requestResource
  by_cases hproper : m.end_ new < m.start new
  · exact ⟨_, if_pos hproper, .inl ⟨rfl, fun hfits => Nat.not_lt.mpr hfits.1 hproper⟩⟩
  rw [if_neg hproper]
  by_cases hstart : m.start new < m.start root
  · exact ⟨_, if_pos hstart, .inl ⟨rfl, fun hfits => Nat.not_lt.mpr hfits.2.1 hstart⟩⟩
  rw [if_neg hstart]
  by_cases hend : m.end_ root < m.end_ new
  · exact ⟨_, if_pos hend, .inl ⟨rfl, fun hfits => Nat.not_lt.mpr hfits.2.2 hend⟩⟩
  rw [if_neg hend]
  have hfits : m.Fits root new :=
    ⟨Nat.not_lt.mp hproper, Nat.not_lt.mp hstart, Nat.not_lt.mp hend⟩
  obtain ⟨r, hr, hreq⟩ := @requestLoop_requested m root new [] kids (m.num + 1) h
    (fun _ hy => absurd hy not_mem_nil) (Nat.lt_succ_of_le h.length_le)
  exact ⟨r, hr, .inr ⟨hfits, hreq⟩⟩

/-! ## Putting in -/

/-- A resource that is in no tree and has no children. -/
structure Detached (m : Resources) (new : Nat) : Prop where
  parent : m.parent new = none
  child : m.child new = none

theorem Detached.not_mem (h : Detached m new) (hkids : Kids m x kids) : new ∉ kids := by
  intro hmem
  cases h.parent.symm.trans ((hkids.parent new).mp hmem)

theorem Detached.childless (h : Detached m new) (hm : WellFormed m) : Kids m new [] := by
  obtain ⟨kids, hkids⟩ := hm new
  have hchain := hkids.chain
  rw [h.child] at hchain
  exact hchain.eq_nil ▸ hkids

theorem ne_getLast_of_notMem (hy : y ∉ pre) : ∀ t ∈ pre.getLast?, y ≠ t := by
  rintro t ht rfl
  exact hy (mem_of_getLast? ht)

theorem Kids.ne_of_mem (h : Kids m x kids) (hxz : z ≠ x) {kids' : List Nat} (h' : Kids m z kids')
    (hy : y ∈ kids) (hw : w ∈ kids') : w ≠ y := by
  rintro rfl
  cases ((h.parent w).mp hy).symm.trans ((h'.parent w).mp hw)
  exact hxz rfl

section SetLink

variable {p q q' : Option Nat}

theorem start_setLink : (m.setLink root p q).start = m.start := by
  cases p <;> rfl

theorem end_setLink : (m.setLink root p q).end_ = m.end_ := by
  cases p <;> rfl

theorem num_setLink : (m.setLink root p q).num = m.num := by
  cases p <;> rfl

theorem parent_setLink : (m.setLink root p q).parent = m.parent := by
  cases p <;> rfl

theorem child_setLink_of_ne (hx : x ≠ root) : (m.setLink root p q).child x = m.child x := by
  cases p with
  | none => exact update_of_ne hx ..
  | some prev => rfl

theorem sibling_setLink_of_ne (hprev : ∀ t ∈ p, y ≠ t) :
    (m.setLink root p q).sibling y = m.sibling y := by
  cases p with
  | none => rfl
  | some prev => exact update_of_ne (hprev prev rfl) ..

/-- The link behind the first few children is made to lead elsewhere. -/
theorem seg_setLink (h : Seg m.sibling (m.child root) pre q') (hnd : pre.Nodup) :
    Seg (m.setLink root pre.getLast? q).sibling ((m.setLink root pre.getLast? q).child root) pre
      q := by
  cases pre using reverseRecOn with
  | nil =>
    exact update_self ..
  | append_singleton l t =>
    have htl : t ∉ l := fun hmem => (nodup_append.mp hnd).2.2 t hmem t mem_cons_self rfl
    rw [getLast?_concat]
    exact Seg.relink h htl

end SetLink

section InsertAt

variable {p : Option Nat}

theorem start_insertAt : (m.insertAt root new p).start = m.start := start_setLink

theorem end_insertAt : (m.insertAt root new p).end_ = m.end_ := end_setLink

theorem num_insertAt : (m.insertAt root new p).num = m.num := num_setLink

theorem parent_insertAt : (m.insertAt root new p).parent = update m.parent new (some root) := by
  show update (setLink _ root p (some new)).parent new (some root) = _
  rw [parent_setLink]

theorem sibling_insertAt_of_ne (hnew : y ≠ new) (hprev : ∀ t ∈ p, y ≠ t) :
    (m.insertAt root new p).sibling y = m.sibling y :=
  (sibling_setLink_of_ne hprev).trans (update_of_ne hnew ..)

theorem seg_insertAt (h : Kids m root (pre ++ post)) (hnew : new ∉ pre ++ post) :
    Seg (m.insertAt root new pre.getLast?).sibling ((m.insertAt root new pre.getLast?).child root)
      (pre ++ new :: post) none := by
  obtain ⟨r, hpre, hpost⟩ := Seg.append_iff.mp h.chain
  obtain ⟨hnd, -, hapart⟩ := nodup_append.mp h.nodup
  obtain ⟨hnewpre, hnewpost⟩ := not_or.mp (mt mem_append.mpr hnew)
  have hr : m.link root pre.getLast? = r := by
    rw [h.link_eq]
    cases post with
    | nil => exact hpost.symm
    | cons y l => exact hpost.1.symm
  have hset : Seg _ _ pre (some new) := seg_setLink (m := { m with
    sibling := update m.sibling new (m.link root pre.getLast?) }) (hpre.update hnewpre) hnd
  refine hset.append ⟨rfl, ?_⟩
  have hnext : (m.insertAt root new pre.getLast?).sibling new = r :=
    (sibling_setLink_of_ne (ne_getLast_of_notMem hnewpre)).trans ((update_self ..).trans hr)
  refine hnext ▸ hpost.congr fun y hy => ?_
  have hypre : y ∉ pre := fun hmem => hapart y hmem y hy rfl
  refine sibling_insertAt_of_ne ?_ (ne_getLast_of_notMem hypre)
  rintro rfl
  exact hnewpost hy

end InsertAt

/-- `new` is put between children that end before it and some that start behind it. -/
theorem Kids.put (h : Kids m root kids) (hsub : (pre ++ post).Sublist kids) (hnew : new < m.num)
    (hfits : m.Fits root new) (hpre : ∀ y ∈ pre, m.end_ y < m.start new)
    (hpost : ∀ y ∈ post, m.end_ new < m.start y) (hstart : m'.start = m.start)
    (hend : m'.end_ = m.end_) (hnum : m'.num = m.num)
    (hchain : Seg m'.sibling (m'.child root) (pre ++ new :: post) none)
    (hparent : ∀ y, y ∈ pre ++ new :: post ↔ m'.parent y = some root) :
    Kids m' root (pre ++ new :: post) := by
  have hmem : ∀ y ∈ pre ++ new :: post, y = new ∨ y ∈ kids := fun y hy =>
    (mem_cons.mp (perm_middle.mem_iff.mp hy)).imp_right hsub.mem
  refine ⟨hchain, hparent, fun y hy => ?_, fun y hy => ?_, fun y hy => ?_, ?_⟩
  · rw [hnum]
    rcases hmem y hy with rfl | hy
    · exact hnew
    · exact h.known y hy
  · rw [hstart, hend]
    rcases hmem y hy with rfl | hy
    · exact hfits.1
    · exact h.proper y hy
  · rw [hstart, hend]
    rcases hmem y hy with rfl | hy
    · exact hfits.2
    · exact h.inside y hy
  · rw [hstart, hend]
    obtain ⟨hbefore, hbehind, hacross⟩ := pairwise_append.mp (h.sorted.sublist hsub)
    exact pairwise_append.mpr ⟨hbefore, pairwise_cons.mpr ⟨hpost, hbehind⟩,
      fun y hy => forall_mem_cons.mpr ⟨hpre y hy, hacross y hy⟩⟩

theorem Kids.insertAt (h : Kids m root (pre ++ post)) (hdet : Detached m new) (hnum : new < m.num)
    (hfits : m.Fits root new) (hpre : ∀ y ∈ pre, m.end_ y < m.start new)
    (hpost : ∀ y ∈ post, m.end_ new < m.start y) :
    Kids (m.insertAt root new pre.getLast?) root (pre ++ new :: post) := by
  refine h.put (.refl _) hnum hfits hpre hpost start_insertAt end_insertAt num_insertAt
    (seg_insertAt h (hdet.not_mem h)) fun y => ?_
  rw [perm_middle.mem_iff, mem_cons, parent_insertAt]
  by_cases hy : y = new
  · subst hy
    rw [update_self]
    exact iff_of_true (.inl rfl) rfl
  · rw [update_of_ne hy, or_iff_right hy]
    exact h.parent y

theorem WellFormed.insertAt (hm : WellFormed m) (h : Kids m root (pre ++ post))
    (hdet : Detached m new) (hnum : new < m.num) (hfits : m.Fits root new)
    (hpre : ∀ y ∈ pre, m.end_ y < m.start new) (hpost : ∀ y ∈ post, m.end_ new < m.start y) :
    WellFormed (m.insertAt root new pre.getLast?) := by
  intro x
  by_cases hx : x = root
  · subst hx
    exact ⟨_, h.insertAt hdet hnum hfits hpre hpost⟩
  obtain ⟨kids, hkids⟩ := hm x
  refine ⟨kids, hkids.frame (child_setLink_of_ne hx) (fun y hy => ?_) (fun y => ?_) num_insertAt
    start_insertAt end_insertAt⟩
  · have hyn : y ≠ new := fun heq => hdet.not_mem hkids (heq ▸ hy)
    refine sibling_insertAt_of_ne hyn fun t ht => ?_
    exact h.ne_of_mem hx hkids (mem_append_left post (mem_of_getLast? ht)) hy
  · rw [parent_insertAt]
    by_cases hy : y = new
    · subst hy
      rw [update_self, hdet.parent]
      exact iff_of_false (fun heq => hx (Option.some.inj heq).symm) nofun
    · rw [update_of_ne hy]

/-! ## Taking out -/

/-- The end of the loop of `__release_resource`. -/
def unlink (m : Resources) (parent old : Nat) (p : Option Nat) : Resources :=
  let m := m.setLink parent p (m.sibling old)
  { m with parent := update m.parent old none }

section Unlink

variable {old : Nat} {p : Option Nat}

theorem start_unlink : (m.unlink root old p).start = m.start := start_setLink

theorem end_unlink : (m.unlink root old p).end_ = m.end_ := end_setLink

theorem num_unlink : (m.unlink root old p).num = m.num := num_setLink

theorem parent_unlink : (m.unlink root old p).parent = update m.parent old none := by
  show update (m.setLink root p (m.sibling old)).parent old none = _
  rw [parent_setLink]

/-- The loop goes past the children other than `old`. -/
theorem releaseLoop_unlinks {fuel : Nat} (h : Kids m root (pre ++ post)) (hold : old ∉ pre)
    (hfuel : post.length < fuel) :
    m.releaseLoop root old fuel pre.getLast? = some (false, m) ∧ old ∉ post ∨
      ∃ pre' post', pre ++ post = pre' ++ old :: post' ∧
        m.releaseLoop root old fuel pre.getLast? =
          some (true, m.unlink root old pre'.getLast?) := by
  induction post generalizing fuel pre with
  | nil =>
    obtain ⟨fuel, rfl⟩ := Nat.exists_eq_add_of_lt hfuel
    have hlink : m.link root pre.getLast? = none := h.link_eq
    refine .inl ⟨?_, not_mem_nil⟩
    rw [releaseLoop, hlink]
  | cons t post ih =>
    cases fuel with
    | zero => cases hfuel
    | succ fuel =>
      have hlink : m.link root pre.getLast? = some t := h.link_eq
      rw [releaseLoop, hlink]
      by_cases ht : t = old
      · subst ht
        exact .inr ⟨pre, post, rfl, if_pos rfl⟩
      have hsplit : pre ++ t :: post = (pre ++ [t]) ++ post := by simp
      have hold' : old ∉ pre ++ [t] := by
        simp only [mem_append, mem_singleton, not_or]
        exact ⟨hold, fun heq => ht heq.symm⟩
      rw [hsplit] at h ⊢
      have hnext := ih h hold' (Nat.lt_of_succ_lt_succ hfuel)
      rw [getLast?_concat] at hnext
      simp only [if_neg ht]
      refine hnext.imp_left fun ⟨hr, hpost⟩ => ⟨hr, ?_⟩
      rw [mem_cons, not_or]
      exact ⟨fun heq => ht heq.symm, hpost⟩

theorem Kids.unlink (h : Kids m root (pre ++ old :: post)) :
    Kids (m.unlink root old pre.getLast?) root (pre ++ post) := by
  obtain ⟨r, hpre, -, hpost⟩ := Seg.append_iff.mp h.chain
  have hnd := h.nodup
  obtain ⟨hndpre, -, hapart⟩ := nodup_append.mp hnd
  obtain ⟨hold, -⟩ := nodup_cons.mp (nodup_middle.mp hnd)
  have hsub : (pre ++ post).Sublist (pre ++ old :: post) :=
    (Sublist.refl pre).append (sublist_cons_self old post)
  refine ⟨?_, fun y => ?_, fun y hy => ?_, fun y hy => ?_, fun y hy => ?_, ?_⟩
  · refine (seg_setLink hpre hndpre).append (hpost.congr fun y hy => ?_)
    refine sibling_setLink_of_ne (ne_getLast_of_notMem fun hmem => ?_)
    exact hapart y hmem y (mem_cons_of_mem old hy) rfl
  · rw [parent_unlink]
    by_cases hy : y = old
    · subst hy
      rw [update_self]
      exact iff_of_false hold nofun
    · rw [update_of_ne hy, ← h.parent y]
      simp only [mem_append, mem_cons, hy, false_or]
  · rw [num_unlink]
    exact h.known y (hsub.mem hy)
  · rw [start_unlink, end_unlink]
    exact h.proper y (hsub.mem hy)
  · rw [start_unlink, end_unlink]
    exact h.inside y (hsub.mem hy)
  · rw [start_unlink, end_unlink]
    exact h.sorted.sublist hsub

/-- What `__release_resource` does with a resource that has a parent. -/
theorem WellFormed.releaseResource (hm : WellFormed m) (hparent : m.parent old = some root) :
    ∃ p, m.releaseResource old = some (true, m.unlink root old p) ∧
      WellFormed (m.unlink root old p) := by
  obtain ⟨kids, h⟩ := hm root
  have hold := (h.parent old).mpr hparent
  have hloop := @releaseLoop_unlinks m root [] kids old (m.num + 1) h not_mem_nil
    (Nat.lt_succ_of_le h.length_le)
  obtain ⟨-, hnot⟩ | ⟨pre, post, hsplit, hr⟩ := hloop
  · exact absurd hold hnot
  subst hsplit
  refine ⟨pre.getLast?, ?_, fun x => ?_⟩
  · unfold Resources.releaseResource
    rw [hparent]
    exact hr
  · by_cases hx : x = root
    · subst hx
      exact ⟨_, h.unlink⟩
    obtain ⟨kids, hkids⟩ := hm x
    refine ⟨kids, hkids.frame (child_setLink_of_ne hx) (fun y hy => ?_) (fun y => ?_) num_unlink
      start_unlink end_unlink⟩
    · refine sibling_setLink_of_ne fun t ht => ?_
      exact h.ne_of_mem hx hkids (mem_append_left _ (mem_of_getLast? ht)) hy
    · rw [parent_unlink]
      by_cases hy : y = old
      · subst hy
        rw [update_self, hparent]
        exact iff_of_false nofun fun heq => hx (Option.some.inj heq).symm
      · rw [update_of_ne hy]

end Unlink

end Resources

end AndroidKernel.Resource
