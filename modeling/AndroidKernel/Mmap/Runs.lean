import AndroidKernel.Lib.Runs
import AndroidKernel.Mmap.Merge

/-!
# Runs

The calls on one `mm_struct` in any order. Each is made as its callers make it: new areas are valid
and not in use, an area is split inside, `vma_merge` is told what is before the request, and
`vma_adjust` on its own (`mremap`, `shift_arg_pages`) does not move an area into the one before.
-/

namespace AndroidKernel.Mmap

open List Option

variable {m m' : Mm} {v : Nat}

inductive Op
  | find (addr : Nat)
  | insert (vma : Nat) (v : Vma) (enough : Bool)
  | merge (prev : Option Nat) (req : Request)
  | split (maxMapCount vma addr : Nat) (newBelow : Bool) (new : Option Nat)
  | adjust (vma start end_ pgoff : Nat)
  | munmap (maxMapCount start len : Nat) (new new' : Option Nat)

def step (m : Mm) : Op → Option Mm
  | .find addr => some (m.findVma addr).2
  | .insert vma v enough => some (m.insert vma v enough).2
  | .merge prev req => (m.vmaMerge prev req).map Prod.snd
  | .split maxMapCount vma addr newBelow new =>
    (m.splitVma maxMapCount vma addr newBelow new).map Prod.snd
  | .adjust vma start end_ pgoff => m.vmaAdjust vma start end_ pgoff none
  | .munmap maxMapCount start len new new' =>
    (m.doMunmap maxMapCount start len new new').map Prod.snd

def Allowed (m : Mm) : Op → Prop
  | .find _ => True
  | .insert vma v _ => vma ∉ m.mmRb.toList ∧ v.Valid
  | .merge prev req => req.Valid ∧ Placed m.space prev req
  | .split _ vma addr _ new => vma ∈ m.mmRb.toList ∧ addr % 4096 = 0 ∧ (m.vma vma).start < addr ∧
      addr < (m.vma vma).end_ ∧ ∀ n ∈ new, n ∉ m.mmRb.toList
  | .adjust vma start end_ _ => vma ∈ m.mmRb.toList ∧ start < end_ ∧ start % 4096 = 0 ∧
      end_ % 4096 = 0 ∧ end_ ≤ taskSize ∧ start < (m.vma vma).end_ ∧
      ∀ i ∈ m.mmRb.toList, (m.vma i).end_ ≤ (m.vma vma).start → (m.vma i).end_ ≤ start
  | .munmap _ _ _ new new' => m.Fresh new new'

instance (m : Mm) (op : Op) : Decidable (Allowed m op) := by
  unfold Allowed
  split <;> infer_instance

/-- No area is mapped. -/
def init : Mm where
  vma _ := ⟨⟨0, 0, 0, 0, none, 0⟩, none, false⟩
  vmNext _ := none
  mmap := none
  mmRb := .nil
  mapCount := 0
  mmapCache := none
  freeAreaCache := taskUnmappedBase
  cachedHoleSize := 0

theorem Mm.space_of_mem (h : v ∈ m.mmRb.toList) :
    ∃ a b, m.space = a ++ (v, (m.vma v).toArea) :: b :=
  append_of_mem (mem_map_of_mem h)

theorem Consistent.insert {w : Vma} {enough : Bool} (h : Consistent m) (hv : v ∉ m.mmRb.toList)
    (hw : w.Valid) : Consistent (m.insert v w enough).2 := by
  rw [Mm.insert]
  generalize hw' : (if w.file = none then { w with pgoff := w.start / 4096 } else w) = w'
  -- the page offset does not matter
  have hvalid : w'.Valid ∧ (w'.start = w.start ∧ w'.end_ = w.end_) := by
    subst hw'
    split
    · exact ⟨⟨hw.start_lt, hw.start_page, hw.end_page, hw.end_le⟩, rfl, rfl⟩
    · exact ⟨hw, rfl, rfl⟩
  have hv' : v ∉ m.space.map Prod.fst := by rwa [m.fst_space]
  have hset := h.holds.set_other hv' w'
  rcases hset.insertVmStruct h.tidy hv' (congrArg Vma.toArea (Function.update_self ..))
    hvalid.1.start_lt with ⟨hnone, -⟩ | ⟨a, b, m', hl, ha, hb, hm', h'⟩
  · simp only [hnone]
    exact hset.consistent h.tidy
  · simp only [hm']
    split
    · obtain ⟨hta, htb, hab⟩ := tidy_append.mp (hl ▸ h.tidy)
      refine h'.consistent
        (tidy_append.mpr ⟨hta, tidy_cons.mpr ⟨hvalid.1, hb, htb⟩, fun p hp => ?_⟩)
      exact forall_mem_cons.mpr ⟨ha p hp, hab p hp⟩
    · exact hset.consistent h.tidy

theorem Consistent.step {op : Op} (h : Consistent m) (hok : Allowed m op)
    (hs : step m op = some m') : Consistent m' := by
  have hholds := h.holds
  have htidy := h.tidy
  cases op with
  | find addr =>
    cases hs
    obtain ⟨a, b, hl, ha, hb⟩ := htidy.split addr
    rw [hl] at hholds htidy
    exact (hholds.findVma htidy ha hb).2.consistent htidy
  | insert vma w enough =>
    cases hs
    exact h.insert hok.1 hok.2
  | merge prev req =>
    obtain ⟨⟨r, m₁⟩, hs₁, rfl⟩ := map_eq_some_iff.mp hs
    rcases hholds.vmaMerge htidy hok.1 hok.2 with heq | ⟨r, m₂, a, R, b, heq, -, h', ht'⟩
    · cases heq.symm.trans hs₁
      exact h
    · cases heq.symm.trans hs₁
      exact h'.consistent ht'
  | split maxMapCount vma addr newBelow new =>
    obtain ⟨⟨e, m₁⟩, hs₁, rfl⟩ := map_eq_some_iff.mp hs
    obtain ⟨hmem, haddr, hlo, hhi, hnew⟩ := hok
    rw [← m.fst_space] at hnew
    obtain ⟨a, b, hl⟩ := Mm.space_of_mem hmem
    rw [hl] at hholds htidy hnew
    rcases hholds.splitVma htidy haddr hlo hhi newBelow hnew with ⟨-, heq⟩ | ⟨n, m₂, -, heq, h'⟩
    · cases heq.symm.trans hs₁
      exact h
    · cases heq.symm.trans hs₁
      exact h'.consistent (tidy_split haddr hlo hhi htidy)
  | adjust vma start end_ pgoff =>
    obtain ⟨hmem, hlt, hstart, hpage, hle, hV, hbefore⟩ := hok
    obtain ⟨a, b, hl⟩ := Mm.space_of_mem hmem
    have ha : ∀ p ∈ a, p.2.end_ ≤ start := by
      intro p hp
      have hp' : p ∈ m.space := hl ▸ mem_append_left _ hp
      obtain ⟨i, hi, rfl⟩ := mem_map.mp hp'
      exact hbefore i hi ((tidy_append.mp (hl ▸ htidy)).2.2 _ hp _ mem_cons_self)
    rw [hl] at hholds htidy
    rcases hholds.vmaAdjust htidy hpage hle with ⟨hnone, -⟩ | ⟨m'', l, hm', hsome, h'⟩
    · cases hnone.symm.trans hs
    · cases hm'.symm.trans hs
      exact h'.consistent (tidy_adjusted htidy hlt hstart hpage hle ha hV hsome)
  | munmap maxMapCount start len new new' =>
    obtain ⟨⟨e, m₁⟩, hs₁, rfl⟩ := map_eq_some_iff.mp hs
    obtain ⟨e', m₂, l', heq, -, h', ht', -⟩ := hholds.doMunmap htidy hok
    cases heq.symm.trans hs₁
    exact h'.consistent ht'

theorem consistent_of_reached (h : Reached step Allowed init m) : Consistent m :=
  h.invariant ⟨rfl, tidy_nil, rfl, nofun⟩ fun _ _ _ hm hok hs => hm.step hok hs

/-- What the searches return: the first area that ends above the address, and the one before. -/
def Searches (m : Mm) (addr : Nat) : Prop :=
  ∃ a b, m.mmRb.toList = a ++ b ∧ (∀ i ∈ a, (m.vma i).end_ ≤ addr) ∧
    (∀ i ∈ b, addr < (m.vma i).end_) ∧ (m.findVma addr).1 = b.head? ∧
    m.findVmaPrev addr = (b.head?, a.getLast?)

/-- In every state of every run the list, the tree, the count and the cache agree, and the searches
find what they should. -/
theorem lists_agree (h : Reached step Allowed init m) : Consistent m ∧ ∀ addr, Searches m addr := by
  have hm := consistent_of_reached h
  refine ⟨hm, fun addr => ?_⟩
  obtain ⟨a, b, hl, ha, hb⟩ := hm.tidy.split addr
  have hholds := hl ▸ hm.holds
  have htidy := hl ▸ hm.tidy
  refine ⟨a.map Prod.fst, b.map Prod.fst, hholds.rb.trans map_append, ?_, ?_, ?_, ?_⟩
  · intro i hi
    obtain ⟨p, hp, rfl⟩ := mem_map.mp hi
    rw [hholds.area p (mem_append_left b hp)]
    exact ha p hp
  · intro i hi
    obtain ⟨p, hp, rfl⟩ := mem_map.mp hi
    rw [hholds.area p (mem_append_right a hp)]
    exact hb p hp
  · rw [head?_map]
    exact (hholds.findVma htidy ha hb).1
  · rw [head?_map, getLast?_map]
    exact hholds.findVmaPrev htidy ha hb

/-- Two areas, of which the first takes the pages between them; then its middle is unmapped. -/
theorem lists_agree_threeAreas : ∃ m, (Reached step Allowed init m ∧ m.mapCount = 3) ∧
    Consistent m ∧ ∀ addr, Searches m addr := by
  simp only [and_assoc]
  exact Reached.exists_of_checked_and
    [.insert 0 ⟨⟨0x40000000, 0x40004000, 0, 0, some 7, 0⟩, none, false⟩ true,
      .insert 1 ⟨⟨0x40005000, 0x40006000, 0, 0, some 7, 0⟩, none, false⟩ true,
      .merge (some 0) ⟨0x40004000, 0x40005000, 0, none, some 7, 4⟩,
      .munmap 65536 0x40001000 1 (some 2) (some 3)]
    (by decide +kernel) fun _ hm _ => lists_agree hm

end AndroidKernel.Mmap
