import AndroidKernel.Sipc.Read
import Mathlib.Algebra.Order.BigOperators.Group.List
import Mathlib.Algebra.Order.Group.Nat

/-!
# Fragments of packets

The fragments of a packet are kept in a list of blocks under the `msg_id` of the packet.
The bitmap says which of these lists are there, and the length in a list is that of its
blocks together.
-/

namespace AndroidKernel.Sipc

open Function List

/-! ## Well-formed lists -/

/-- The block has `len` bytes. -/
structure FragBlock.Ok (fb : FragBlock) : Prop where
  data : fb.data.length = fb.len
  bound : fb.len ≤ fragBlockMax

structure FragList.Ok (fl : FragList) : Prop where
  len : fl.len = (fl.blocks.map FragBlock.len).sum
  block : ∀ fb ∈ fl.blocks, fb.Ok

/-- The data of the fragments. -/
def FragList.data (fl : FragList) : List Byte := fl.blocks.flatMap FragBlock.data

theorem FragList.Ok.length_data {fl : FragList} (h : fl.Ok) : fl.data.length = fl.len := by
  rw [FragList.data, length_flatMap, h.len]
  exact congrArg sum (map_congr_left fun fb hfb => (h.block fb hfb).data)

structure FragHead.Ok (fh : FragHead) : Prop where
  unique : Keyed.Unique FragList.msgId fh.head
  bitmap : ∀ m, fh.bitmap m = true ↔ ∃ fl ∈ fh.head, fl.msgId = m
  lists : ∀ fl ∈ fh.head, fl.Ok
  blocks : fh.blockCount ≤ fragBlocks

namespace FragHead

variable {fh : FragHead} {fl fl' : FragList} {m : Nat}

theorem blockCount_destroy_le (fh : FragHead) (m : Nat) :
    (fh.destroy m).blockCount ≤ fh.blockCount :=
  Keyed.sum_eraseP_le _ _ _

namespace Ok

/-- `_find_frag_list` does not run off its list. -/
theorem find_cases (h : fh.Ok) (m : Nat) : (fh.find m = .ok none ∧ ∀ fl ∈ fh.head, fl.msgId ≠ m) ∨
    ∃ fl, fl ∈ fh.head ∧ fl.msgId = m ∧ fh.find m = .ok (some fl) := by
  unfold find
  split
  next hbit =>
    obtain ⟨fl, hfl, hid⟩ := (h.bitmap m).mp hbit
    have hfind := Keyed.find?_eq_some h.unique hfl hid
    exact .inr ⟨fl, hfl, hid, by rw [hfind]⟩
  next hbit =>
    exact .inl ⟨rfl, fun fl hfl hid => hbit ((h.bitmap m).mpr ⟨fl, hfl, hid⟩)⟩

theorem destroy (h : fh.Ok) (m : Nat) : (fh.destroy m).Ok where
  unique := h.unique.eraseP _
  bitmap := by
    intro k
    simp only [FragHead.destroy, Keyed.mem_eraseP_iff h.unique]
    by_cases hk : k = m
    · subst hk
      simp
    · rw [update_of_ne hk, h.bitmap]
      constructor
      · rintro ⟨fl, hfl, hid⟩
        exact ⟨fl, ⟨hfl, hid ▸ hk⟩, hid⟩
      · rintro ⟨fl, ⟨hfl, -⟩, hid⟩
        exact ⟨fl, hfl, hid⟩
  lists fl hfl := h.lists fl ((Keyed.mem_eraseP_iff h.unique).mp hfl).1
  blocks := (blockCount_destroy_le fh m).trans h.blocks

/-- A new list without blocks. -/
theorem create (h : fh.Ok) (hnew : ∀ fl ∈ fh.head, fl.msgId ≠ m) :
    FragHead.Ok ⟨⟨m, 0, []⟩ :: fh.head, update fh.bitmap m true⟩ where
  unique := Keyed.unique_cons.mpr ⟨hnew, h.unique⟩
  bitmap := by
    intro k
    dsimp only
    by_cases hk : k = m
    · subst hk
      simp
    · rw [update_of_ne hk, h.bitmap]
      simp [Ne.symm hk]
  lists := by
    rintro fl (_ | ⟨_, hfl⟩)
    · exact ⟨rfl, nofun⟩
    · exact h.lists fl hfl
  blocks := by
    have hcount := h.blocks
    unfold blockCount at hcount ⊢
    simpa using hcount

theorem blockCount_set (h : fh.Ok) (hfl : fl ∈ fh.head) (hid : fl'.msgId = fl.msgId) :
    (fh.set fl').blockCount + fl.blocks.length = fh.blockCount + fl'.blocks.length :=
  Keyed.sum_replace h.unique hfl hid.symm (·.blocks.length)

theorem set (h : fh.Ok) (hfl : fl ∈ fh.head) (hid : fl'.msgId = fl.msgId) (hok : fl'.Ok)
    (hcount : fh.blockCount + fl'.blocks.length ≤ fragBlocks + fl.blocks.length) :
    (fh.set fl').Ok where
  unique := h.unique.replace fl'
  bitmap := by
    intro k
    have hkeys : (∃ x ∈ (fh.set fl').head, x.msgId = k) ↔ k ∈ fh.head.map FragList.msgId := by
      rw [← Keyed.map_key_replace FragList.msgId fl' fh.head, mem_map]
      rfl
    rw [hkeys, mem_map]
    exact h.bitmap k
  lists := by
    intro x hx
    rcases Keyed.mem_replace hx with rfl | ⟨hx, -⟩
    · exact hok
    · exact h.lists x hx
  blocks := by
    have hsum := h.blockCount_set hfl hid
    omega

/-- The length of a list is far from an overflow. -/
theorem len_le (h : fh.Ok) (hfl : fl ∈ fh.head) : fl.len ≤ fragBlockMax * fragBlocks := by
  have hsum : (fl.blocks.map FragBlock.len).sum ≤ fl.blocks.length * fragBlockMax := by
    have hle := sum_le_card_nsmul (fl.blocks.map FragBlock.len) fragBlockMax (by
      intro n hn
      obtain ⟨fb, hfb, rfl⟩ := mem_map.mp hn
      exact ((h.lists fl hfl).block fb hfb).bound)
    simpa using hle
  have hcount := Nat.le_trans
    (single_le_sum (fun _ _ => Nat.zero_le _) _ (mem_map.mpr ⟨fl, hfl, rfl⟩)) h.blocks
  rw [(h.lists fl hfl).len, mul_comm]
  exact hsum.trans (Nat.mul_le_mul_right _ hcount)

end Ok

end FragHead

/-! ## The functions -/

namespace Si

variable {si si' : Si} {fl fl' : FragList} {m : Nat} {size : Int}

/-- Nothing but the allocations to come has changed. If none of them was to fail, none is. -/
def Later (si si' : Si) : Prop :=
  ∃ allocs, si' = { si with allocs := allocs } ∧ (si.allocs = [] → allocs = [])

theorem Later.refl (si : Si) : Later si si := ⟨si.allocs, rfl, id⟩

section

variable (h : Later si si')

include h

theorem Later.frag : si'.frag = si.frag := by
  obtain ⟨allocs, rfl, -⟩ := h
  rfl

theorem Later.received : si'.received = si.received := by
  obtain ⟨allocs, rfl, -⟩ := h
  rfl

end

theorem alloc_later (si : Si) : Later si si.alloc.2 := by
  unfold alloc
  split
  next hnil => exact .refl si
  next hcons => exact ⟨_, rfl, fun hnil => by cases hcons.symm.trans hnil⟩

/-- No allocation fails, and there is memory for `n` blocks more. -/
structure Plenty (si : Si) (n : Nat) : Prop where
  allocs : si.allocs = []
  blocks : si.frag.blockCount + n ≤ fragBlocks

theorem alloc_of_nil (h : si.allocs = []) : si.alloc = (true, si) := by
  unfold alloc
  rw [h]

/-- What `_find_frag_list` and `_create_frag_list` leave for a fragment: a list, or no
memory for one. -/
theorem fragListOf_cases (h : si.frag.Ok) (m : Nat) :
    (∃ fl, fl ∈ si.frag.head ∧ fl.msgId = m ∧ si.fragListOf m = .ok (some fl, si)) ∨
    ((∀ fl ∈ si.frag.head, fl.msgId ≠ m) ∧ ∃ si', Later si si' ∧
      (si.allocs ≠ [] ∧ si.fragListOf m = .ok (none, si') ∨ si.fragListOf m = .ok (some ⟨m, 0, []⟩,
        { si' with
          frag := ⟨⟨m, 0, []⟩ :: si.frag.head, update si.frag.bitmap m true⟩ }))) := by
  unfold fragListOf
  rcases h.find_cases m with ⟨hfind, hnone⟩ | ⟨fl, hfl, hid, hfind⟩
  · right
    have hbit : ¬si.frag.bitmap m = true := by
      intro hbit
      obtain ⟨fl, hfl, hid⟩ := (h.bitmap m).mp hbit
      exact hnone fl hfl hid
    refine ⟨hnone, si.alloc.2, alloc_later si, ?_⟩
    rw [hfind]
    unfold createFragList
    rw [if_neg hbit]
    dsimp only
    rw [(alloc_later si).frag]
    split
    next => exact .inr rfl
    next hfails =>
      refine .inl ⟨fun hnil => hfails ?_, rfl⟩
      rw [alloc_of_nil hnil]
  · left
    refine ⟨fl, hfl, hid, ?_⟩
    rw [hfind]

/-- The last block of a list has room for `size` bytes; the data is the same. -/
structure Ready (fh : FragHead) (fl fl' : FragList) (size : Nat) : Prop where
  id : fl'.msgId = fl.msgId
  ok : fl'.Ok
  len : fl'.len = fl.len
  data : fl'.data = fl.data
  last : ∃ before fb, fl'.blocks = before ++ [fb] ∧ fb.len + size ≤ fragBlockMax
  count : fh.blockCount + fl'.blocks.length ≤ fragBlocks + fl.blocks.length
  grown : fl'.blocks.length ≤ fl.blocks.length + 1

/-- What `_prepare_frag_block` does. -/
inductive Prepared (si : Si) (fl : FragList) (size : Int) :
    Except Fault (Option FragList × Si) → Prop
  | bug (h : fragBlockMax < ulong size) : Prepared si fl size (.error .bug)
  | noMemory {si' : Si} (h : ulong size ≤ fragBlockMax) (hlater : Later si si')
      (hmem : ¬si.Plenty 1) : Prepared si fl size (.ok (none, si'))
  | ready {si' : Si} {fl' : FragList} (h : ulong size ≤ fragBlockMax) (hlater : Later si si')
      (hready : Ready si.frag fl fl' (ulong size)) : Prepared si fl size (.ok (some fl', si'))

theorem createFragBlock_prepared (h : fl.Ok) (hsize : ulong size ≤ fragBlockMax) :
    Prepared si fl size (.ok (si.createFragBlock fl)) := by
  have hlater := alloc_later si
  unfold createFragBlock
  dsimp only
  split
  next hmem =>
    refine .ready hsize hlater ⟨rfl, ⟨?_, ?_⟩, rfl, ?_, ⟨fl.blocks, ⟨0, []⟩, rfl, ?_⟩, ?_,
      length_append.le⟩
    · simpa using h.len
    · exact forall_mem_append.mpr ⟨h.block, forall_mem_singleton.mpr ⟨rfl, Nat.zero_le _⟩⟩
    · simp [FragList.data]
    · simpa using hsize
    · have hblocks := hmem.2
      rw [hlater.frag] at hblocks
      rw [length_append, length_singleton]
      omega
  next hnot =>
    refine .noMemory hsize hlater fun hmem => hnot ?_
    have hblocks := hmem.blocks
    rw [alloc_of_nil hmem.allocs]
    exact ⟨rfl, hblocks⟩

theorem prepareFragBlock_prepared (h : si.frag.Ok) (hfl : fl ∈ si.frag.head) (size : Int) :
    Prepared si fl size (si.prepareFragBlock fl size) := by
  have hok := h.lists fl hfl
  unfold prepareFragBlock
  split
  next hbug =>
    exact .bug hbug
  rename_i hsize
  rw [Nat.not_lt] at hsize
  split
  · exact createFragBlock_prepared hok hsize
  rename_i fb hlast
  have hmem := mem_of_getLast? hlast
  have hfb := (hok.block fb hmem).bound
  have hroom : ulong ((fragBlockMax : Int) - fb.len) = fragBlockMax - fb.len := by
    unfold ulong
    have hmax : fragBlockMax = 4080 := rfl
    omega
  split
  · exact createFragBlock_prepared hok hsize
  · refine .ready hsize (.refl si) ⟨rfl, hok, rfl, rfl, ⟨fl.blocks.dropLast, fb, ?_, ?_⟩, ?_,
      Nat.le_succ _⟩
    · exact (dropLast_append_getLast? fb hlast).symm
    · omega
    · have hblocks := h.blocks
      omega

end Si

end AndroidKernel.Sipc
