import AndroidKernel.Lib.Runs
import AndroidKernel.Resource.Adjustment
import AndroidKernel.Resource.Search

/-!
# Runs of calls on resources

In every state that calls lead to, the children of each resource are sorted, apart from each
other, inside its range, and linked to it (`children_wellFormed`). Besides, each call returns: the
loops along the links end because these do not go round in a circle, and the one of
`insert_resource_expand_to_fit` because the range grows each time.

A call gets a resource that is in no tree and has no children, and another one as the root;
`adjust_resource` and `release_resource` get one that is in a tree, as they look at its parent.
-/

namespace AndroidKernel.Resource

open Function Option List

namespace Resources

variable {m m' : Resources} {root new old res start end_ x : Nat} {kids : List Nat} {req : Request}

/-- What holds between the calls. -/
structure Consistent (m : Resources) : Prop where
  forest : Forest m
  words : ∀ x, m.start x < 2 ^ 32 ∧ m.end_ x < 2 ^ 32

theorem Consistent.of_ranges (hm : Consistent m) (hforest : Forest m') (hstart : m'.start = m.start)
    (hend : m'.end_ = m.end_) : Consistent m' := by
  refine ⟨hforest, fun x => ?_⟩
  rw [hstart, hend]
  exact hm.words x

theorem words_setRange (hm : ∀ x, m.start x < 2 ^ 32 ∧ m.end_ x < 2 ^ 32) (hstart : start < 2 ^ 32)
    (hend : end_ < 2 ^ 32) (x : Nat) :
    (m.setRange new start end_).start x < 2 ^ 32 ∧ (m.setRange new start end_).end_ x < 2 ^ 32 := by
  show update m.start new start x < _ ∧ update m.end_ new end_ x < _
  by_cases hx : x = new
  · subst hx
    rw [update_self, update_self]
    exact ⟨hstart, hend⟩
  · rw [update_of_ne hx, update_of_ne hx]
    exact hm x

theorem Consistent.setRange (hm : Consistent m) (hdet : Detached m new) (hstart : start < 2 ^ 32)
    (hend : end_ < 2 ^ 32) : Consistent (m.setRange new start end_) :=
  ⟨hm.forest.setRange hdet, words_setRange hm.words hstart hend⟩

/-! ## The calls -/

section

variable (hm : Consistent m) (hdet : Detached m new) (hknown : new < m.num) (hne : root ≠ new)

include hm hdet hknown hne

theorem Consistent.requestResource : ∃ r, m.requestResource root new = some r ∧ Consistent r.2 := by
  obtain ⟨r, hr, hforest, hstart, hend⟩ := hm.forest.requestResource hdet hknown hne
  exact ⟨r, hr, hm.of_ranges hforest hstart hend⟩

theorem Consistent.insertResource : ∃ r, m.insertResource root new = some r ∧ Consistent r.2 := by
  obtain ⟨r, hr, hins⟩ := hm.forest.insertResource hdet hknown hne
  refine ⟨r, hr, ?_⟩
  cases hins with
  | done m' hforest hstart hend hnum => exact hm.of_ranges hforest hstart hend
  | refused | overlap next hproper hpart => exact hm

theorem Consistent.allocateResource :
    ∃ r, m.allocateResource root new req = some r ∧ Consistent r.2 := by
  obtain ⟨kids, h⟩ := hm.forest.kids root
  obtain ⟨s, e, hfind, hs, he, -⟩ :=
    (@findResource_returns m root kids req h (hm.words root).2 (hm.words root).1).eq
  have hset : Consistent (m.setRange new s e) := hm.setRange hdet hs he
  have hdet' : Detached (m.setRange new s e) new := ⟨hdet.parent, hdet.child⟩
  unfold Resources.allocateResource
  rw [hfind]
  simp only [bind_eq_bind, bind_some]
  by_cases hfound : (search req (m.rootGaps root kids)).isSome = true
  · obtain ⟨r, hr, hcons⟩ := hset.requestResource hdet' hknown hne
    rw [if_pos hfound, hr]
    exact ⟨_, rfl, hcons⟩
  · rw [if_neg hfound]
    exact ⟨_, rfl, hset⟩

end

/-- Each time round the range of `new` grows, and it does not grow beyond all numbers. -/
theorem expandLoop_consistent {fuel : Nat} (hm : Consistent m) (hdet : Detached m new)
    (hknown : new < m.num) (hne : root ≠ new) (hfuel : 2 ^ 32 < fuel + (m.end_ new - m.start new)) :
    ∃ m', expandLoop root new fuel m = some m' ∧ Consistent m' := by
  induction fuel generalizing m with
  | zero =>
    have hwords := (hm.words new).2
    omega
  | succ fuel ih =>
    obtain ⟨r, hr, hins⟩ := hm.forest.insertResource hdet hknown hne
    unfold expandLoop
    rw [hr]
    simp only [bind_eq_bind, bind_some]
    cases hins with
    | done m' hforest hstart hend hnum => exact ⟨m', rfl, hm.of_ranges hforest hstart hend⟩
    | refused =>
      simp only [if_pos]
      exact ⟨m, rfl, hm⟩
    | overlap next hproper hpart =>
      by_cases hroot : next = root
      · simp only [if_pos hroot]
        exact ⟨m, rfl, hm⟩
      simp only [if_neg hroot]
      have hnew := hm.words new
      have hnext := hm.words next
      refine ih (hm.setRange hdet ?_ ?_) ⟨hdet.parent, hdet.child⟩ hknown ?_
      · split <;> omega
      · split <;> omega
      · show _ < fuel + (update m.end_ new _ new - update m.start new _ new)
        rw [update_self, update_self]
        split <;> split <;> omega

/-! ## Runs -/

inductive Op
  | request (root new start end_ : Nat)
  | insert (root new start end_ : Nat)
  | expandToFit (root new start end_ : Nat)
  | adjust (res start size : Nat)
  | allocate (root new : Nat) (req : Request)
  | release (old : Nat)

/-- The resources are set up by the caller and in no tree. -/
def init (num : Nat) (start end_ : Nat → Nat) : Resources where
  start := start
  end_ := end_
  parent _ := none
  sibling _ := none
  child _ := none
  num := num

/-- The caller sets the range of a resource before it hands it over. -/
def step (m : Resources) : Op → Option Resources
  | .request root new start end_ => ((m.setRange new start end_).requestResource root new).map (·.2)
  | .insert root new start end_ => ((m.setRange new start end_).insertResource root new).map (·.2)
  | .expandToFit root new start end_ =>
      (m.setRange new start end_).insertResourceExpandToFit root new
  | .adjust res start size => (m.adjustResource res start size).map (·.2)
  | .allocate root new req => (m.allocateResource root new req).map (·.2)
  | .release old => (m.releaseResource old).map (·.2)

/-- What a caller has to see to of a resource that it hands over. -/
def Given (m : Resources) (root new : Nat) : Prop :=
  (m.parent new = none ∧ m.child new = none) ∧ new < m.num ∧ root ≠ new
  deriving Decidable

def Allowed (m : Resources) : Op → Prop
  | .request root new start end_ | .insert root new start end_ | .expandToFit root new start end_ =>
    Given m root new ∧ start < 2 ^ 32 ∧ end_ < 2 ^ 32
  | .adjust res start size => (m.parent res).isSome ∧ 1 ≤ size ∧ start + size - 1 < 2 ^ 32
  | .allocate root new _ => Given m root new
  | .release old => (m.parent old).isSome

instance (m : Resources) (op : Op) : Decidable (Allowed m op) := by
  unfold Allowed
  split <;> infer_instance

theorem consistent_init {num : Nat} {start end_ : Nat → Nat}
    (hwords : ∀ x, start x < 2 ^ 32 ∧ end_ x < 2 ^ 32) : Consistent (init num start end_) := by
  refine ⟨⟨fun x => ⟨[], rfl, fun y => iff_of_false not_mem_nil nofun, ?_, ?_, ?_, .nil⟩, ?_⟩,
    hwords⟩
  · exact fun y hy => absurd hy not_mem_nil
  · exact fun y hy => absurd hy not_mem_nil
  · exact fun y hy => absurd hy not_mem_nil
  · exact ⟨fun _ => 0, fun y x hyx => nomatch hyx⟩

theorem Consistent.adjustResource {size : Nat} (hm : Consistent m) (hres : (m.parent res).isSome)
    (hsize : 1 ≤ size) (hwrap : start + size - 1 < 2 ^ 32) :
    ∃ r, m.adjustResource res start size = some r ∧ Consistent r.2 := by
  obtain ⟨parent, hparent⟩ := isSome_iff_exists.mp hres
  have hend : ulong ((start : Int) + size - 1) = start + size - 1 := by
    unfold ulong
    omega
  have hcases := @adjustResource_cases m parent res start size hm.forest hparent (by omega)
  obtain hr | ⟨pre, post, kids, hadj, hr⟩ := hcases
  · exact ⟨_, hr, hm⟩
  · refine ⟨_, hr, hadj.forest hm.forest, words_setRange hm.words ?_ (ulong_lt _)⟩
    omega

theorem Consistent.releaseResource (hm : Consistent m) (hold : (m.parent old).isSome) :
    ∃ r, m.releaseResource old = some r ∧ Consistent r.2 := by
  obtain ⟨parent, hparent⟩ := isSome_iff_exists.mp hold
  obtain ⟨p, hr, hkids⟩ := hm.forest.kids.releaseResource hparent
  refine ⟨_, hr, hm.of_ranges ⟨hkids, ?_⟩ start_unlink end_unlink⟩
  obtain ⟨rank, hrank⟩ := hm.forest.ranked
  refine ⟨rank, fun y x hyx => ?_⟩
  rw [parent_unlink] at hyx
  by_cases hy : y = old
  · subst hy
    rw [update_self] at hyx
    cases hyx
  · rw [update_of_ne hy] at hyx
    exact hrank y x hyx

/-- A call that is allowed returns, and what holds between the calls holds again. -/
theorem Consistent.step {op : Op} (hm : Consistent m) (hok : Allowed m op) :
    ∃ m', m.step op = some m' ∧ Consistent m' := by
  -- The range that the caller sets does not matter before the resource is in a tree.
  have hgiven : ∀ {root new start end_}, Given m root new ∧ start < 2 ^ 32 ∧ end_ < 2 ^ 32 →
      Consistent (m.setRange new start end_) ∧ Detached (m.setRange new start end_) new := by
    rintro root new start end_ ⟨⟨⟨hparent, hchild⟩, -, -⟩, hstart, hend⟩
    exact ⟨hm.setRange ⟨hparent, hchild⟩ hstart hend, hparent, hchild⟩
  have hreturns : ∀ {α} {o : Option (α × Resources)}, (∃ r, o = some r ∧ Consistent r.2) →
      ∃ m', o.map (·.2) = some m' ∧ Consistent m' :=
    fun ⟨r, hr, hcons⟩ => ⟨r.2, congrArg (Option.map _) hr, hcons⟩
  cases op with
  | request root new start end_ =>
    obtain ⟨hset, hdet⟩ := hgiven hok
    exact hreturns (hset.requestResource hdet hok.1.2.1 hok.1.2.2)
  | insert root new start end_ =>
    obtain ⟨hset, hdet⟩ := hgiven hok
    exact hreturns (hset.insertResource hdet hok.1.2.1 hok.1.2.2)
  | expandToFit root new start end_ =>
    obtain ⟨hset, hdet⟩ := hgiven hok
    show ∃ m', (m.setRange new start end_).insertResourceExpandToFit root new = some m' ∧ _
    unfold insertResourceExpandToFit
    rw [hdet.parent]
    exact expandLoop_consistent hset hdet hok.1.2.1 hok.1.2.2 (by omega)
  | adjust res start size => exact hreturns (hm.adjustResource hok.1 hok.2.1 hok.2.2)
  | allocate root new req =>
    obtain ⟨⟨hparent, hchild⟩, hknown, hne⟩ := hok
    exact hreturns (@Consistent.allocateResource m root new req hm ⟨hparent, hchild⟩ hknown hne)
  | release old => exact hreturns (hm.releaseResource hok)

/-- After any calls, the children of each resource are sorted, apart from each other, inside its
range, and linked to it; and the next call returns. -/
theorem children_wellFormed {num : Nat} {start end_ : Nat → Nat}
    (hwords : ∀ x, start x < 2 ^ 32 ∧ end_ x < 2 ^ 32)
    (h : Reached step Allowed (init num start end_) m) :
    (∀ x, ∃ kids, Kids m x kids) ∧ ∀ op, Allowed m op → ∃ m', m.step op = some m' := by
  have hm : Consistent m := h.invariant (consistent_init hwords) fun m m' op hm hok hs => by
    obtain ⟨m'', hs', hcons⟩ := hm.step hok
    cases hs.symm.trans hs'
    exact hcons
  refine ⟨hm.forest.kids, fun op hok => ?_⟩
  obtain ⟨m', hs, -⟩ := hm.step hok
  exact ⟨m', hs⟩

/-- A resource is expanded around two others, which become its children; a fourth is put into one of
these, the first is made larger, and another one is taken out. -/
theorem children_wellFormed_adopted :
    ∃ m, (Reached step Allowed (init 6 (fun _ => 0) (fun x => if x = 0 then 0xFFFF else 0)) m ∧
      m.parent 1 = some 4 ∧ m.start 4 = 0x100 ∧ m.end_ 4 = 0x50F) ∧
      (∀ x, ∃ kids, Kids m x kids) ∧ ∀ op, Allowed m op → ∃ m', m.step op = some m' := by
  have hwords : ∀ x : Nat, (fun _ : Nat => 0) x < 2 ^ 32 ∧
      (if x = 0 then 0xFFFF else 0) < 2 ^ 32 := by
    intro x
    refine ⟨Nat.two_pow_pos 32, ?_⟩
    split <;> decide
  exact (exists_congr fun _ => and_assoc).mpr (Reached.exists_of_checked_and
    [.request 0 1 0x100 0x1FF, .request 0 2 0x400 0x4FF, .request 0 3 0x180 0x27F,
      .expandToFit 0 4 0x180 0x47F, .insert 0 3 0x110 0x11F, .adjust 4 0x100 0x410,
      .allocate 0 5 ⟨0x10, 0, 0xFFFF, 0x10⟩, .release 2] (by decide +kernel)
    fun _ hm _ => children_wellFormed hwords hm)

end Resources

end AndroidKernel.Resource
