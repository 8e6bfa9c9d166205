import AndroidKernel.Pmem.Blocks
import AndroidKernel.Pmem.Files

/-!
# Who frees the blocks of pmem

The owner of a block is not recorded. A file that has an index and is not connected frees the
block when it is released. A ledger is kept of which file has which index, which entries are
marked and which frees were of marked entries. If no file that has a block of its own is ever
connected, each marked entry has exactly one owner, so that each is freed once.
-/

namespace AndroidKernel.Pmem

open Function Option

/-! ## The ledger -/

/-- What a file holds. -/
structure Hold where
  index : Option Nat
  connected : Bool

/-- The files and what they hold, which entries are marked, and for each free whether the entry
was. -/
@[ext] structure Ledger where
  listed : List Nat
  hold : Nat → Option Hold
  marked : Nat → Bool
  freed : List Bool

namespace Ledger

variable {num : Nat} {l l' : Ledger}

/-- What can happen to the first `num` entries. Only a file that has no block of its own is
connected. -/
inductive Step (num : Nat) (l l' : Ledger) : Prop
  | idle (hlisted : l'.listed = l.listed) (hhold : l'.hold = l.hold)
      (hmarked : ∀ i < num, l'.marked i = l.marked i)
      (hfreed : l'.freed = l.freed)
  | opens (file : Nat) (hfile : l.hold file = none)
      (heq : l' = { l with
        listed := file :: l.listed
        hold := update l.hold file (some ⟨none, false⟩) })
  | takes (file i : Nat) (connected : Bool) (hfile : l.hold file = some ⟨none, connected⟩)
      (hi : i < num) (hmarked : l.marked i = false)
      (heq : l' = { l with
        hold := update l.hold file (some ⟨some i, connected⟩)
        marked := update l.marked i true })
  | connects (file i : Nat) (h : Hold) (hfile : l.hold file = some h)
      (hstays : h.index = none ∨ h.connected = true)
      (heq : l' = { l with hold := update l.hold file (some ⟨some i, true⟩) })
  | closes (file : Nat) (h : Hold) (hfile : l.hold file = some h)
      (hnone : h.index = none ∨ h.connected = true)
      (heq : l' = { l with
        listed := l.listed.erase file
        hold := update l.hold file none })
  | frees (file i : Nat) (hfile : l.hold file = some ⟨some i, false⟩)
      (heq : l' = {
        listed := l.listed.erase file
        hold := update l.hold file none
        marked := update l.marked i false
        freed := l.freed ++ [l.marked i] })

/-- The file frees the entry when it is released. -/
def Owner (l : Ledger) (file i : Nat) : Prop := l.hold file = some ⟨some i, false⟩

/-- Each marked entry has one owner, and no entry has been freed twice. -/
structure Inv (num : Nat) (l : Ledger) : Prop where
  listed : ∀ file, l.hold file ≠ none → file ∈ l.listed
  owner : ∀ file i, l.Owner file i → i < num ∧ l.marked i = true
  unique : ∀ file file' i, l.Owner file i → l.Owner file' i → file = file'
  owned : ∀ i < num, l.marked i = true → ∃ file, l.Owner file i
  connected : ∀ file c, l.hold file = some ⟨none, c⟩ → c = false
  freed : ∀ b ∈ l.freed, b = true

theorem Inv.congr (h : Inv num l) (hlisted : l'.listed = l.listed) (hhold : l'.hold = l.hold)
    (hmarked : ∀ i < num, l'.marked i = l.marked i) (hfreed : l'.freed = l.freed) : Inv num l' := by
  obtain ⟨listed', hold', marked', freed'⟩ := l'
  cases hlisted
  cases hhold
  cases hfreed
  refine ⟨h.listed, fun file i ho => ?_, h.unique, fun i hi hm => ?_, h.connected, h.freed⟩
  · obtain ⟨hi, hm⟩ := h.owner file i ho
    exact ⟨hi, (hmarked i hi).trans hm⟩
  · exact h.owned i hi ((hmarked i hi).symm.trans hm)

section

variable (h : Inv num l) {file : Nat}

include h

/-- What one file holds is changed, and the marks with it: the entries of all other owners are
still marked, and what is marked has an owner. -/
theorem Inv.change {x : Option Hold} {listed : List Nat} {marked : Nat → Bool} {freed : List Bool}
    (hothers : ∀ f ≠ file, ∀ j, l.Owner f j → marked j = true ∧ x ≠ some ⟨some j, false⟩)
    (hnew : ∀ j, x = some ⟨some j, false⟩ → j < num ∧ marked j = true)
    (howned : ∀ j < num, marked j = true → x = some ⟨some j, false⟩ ∨ ∃ f ≠ file, l.Owner f j)
    (hconn : ∀ c, x = some ⟨none, c⟩ → c = false)
    (hlisted : ∀ f, update l.hold file x f ≠ none → f ∈ listed) (hfreed : ∀ b ∈ freed, b = true) :
    Inv num ⟨listed, update l.hold file x, marked, freed⟩ := by
  have hself : update l.hold file x file = x := update_self ..
  have howner : ∀ f j, Owner ⟨listed, update l.hold file x, marked, freed⟩ f j →
      f = file ∧ x = some ⟨some j, false⟩ ∨ f ≠ file ∧ l.Owner f j := by
    intro f j ho
    by_cases hf : f = file
    · subst hf
      exact .inl ⟨rfl, hself.symm.trans ho⟩
    · exact .inr ⟨hf, (update_of_ne hf ..).symm.trans ho⟩
  refine ⟨hlisted, fun f j ho => ?_, fun f f' j ho ho' => ?_, fun j hj hm => ?_, fun f c hf => ?_,
    hfreed⟩
  · rcases howner f j ho with ⟨-, hx⟩ | ⟨hf, ho⟩
    · exact hnew j hx
    · exact ⟨(h.owner f j ho).1, (hothers f hf j ho).1⟩
  · rcases howner f j ho with ⟨hf, hx⟩ | ⟨hf, ho⟩ <;>
      rcases howner f' j ho' with ⟨hf', hx'⟩ | ⟨hf', ho'⟩
    · exact hf.trans hf'.symm
    · exact absurd hx (hothers f' hf' j ho').2
    · exact absurd hx' (hothers f hf j ho).2
    · exact h.unique f f' j ho ho'
  · rcases howned j hj hm with hx | ⟨f, hf, ho⟩
    · exact ⟨file, hself.trans hx⟩
    · exact ⟨f, (update_of_ne hf ..).trans ho⟩
  · by_cases hff : f = file
    · subst hff
      exact hconn c (hself.symm.trans hf)
    · exact h.connected f c ((update_of_ne hff ..).symm.trans hf)

/-- A file that owns nothing changes to one that owns nothing. -/
theorem Inv.replace {x : Option Hold} (hold : ∀ i, ¬l.Owner file i)
    (hnew : ∀ i, x ≠ some ⟨some i, false⟩) (hconn : ∀ c, x = some ⟨none, c⟩ → c = false)
    {listed : List Nat} (hlisted : ∀ f, update l.hold file x f ≠ none → f ∈ listed) :
    Inv num { l with listed := listed, hold := update l.hold file x } := by
  refine h.change (fun f _ j ho => ⟨(h.owner f j ho).2, hnew j⟩) (fun j hx => absurd hx (hnew j))
    (fun j hj hm => .inr ?_) hconn hlisted h.freed
  obtain ⟨f, ho⟩ := h.owned j hj hm
  exact ⟨f, fun hf => hold j (hf ▸ ho), ho⟩

theorem Inv.mem_erase (file' : Nat)
    (hfile : update l.hold file none file' ≠ none) : file' ∈ l.listed.erase file := by
  have hne : file' ≠ file := by
    rintro rfl
    exact hfile (update_self ..)
  rw [update_of_ne hne] at hfile
  exact (List.mem_erase_of_ne hne).mpr (h.listed file' hfile)

theorem Inv.mem_cons {x : Option Hold} (file' : Nat)
    (hfile : update l.hold file x file' ≠ none) : file' ∈ file :: l.listed := by
  by_cases hf : file' = file
  · exact hf ▸ List.mem_cons_self
  · rw [update_of_ne hf] at hfile
    exact List.mem_cons_of_mem file (h.listed file' hfile)

/-- A file that is open stays listed. -/
theorem Inv.mem_of_open {x : Option Hold} (hopen : l.hold file ≠ none)
    (file' : Nat) (hfile : update l.hold file x file' ≠ none) : file' ∈ l.listed := by
  by_cases hf : file' = file
  · exact hf ▸ h.listed file hopen
  · rw [update_of_ne hf] at hfile
    exact h.listed file' hfile

end

variable {file i : Nat}

theorem not_owner_of_hold {h : Hold} (hfile : l.hold file = some h)
    (hnot : h.index = none ∨ h.connected = true) (i : Nat) : ¬l.Owner file i := by
  intro ho
  cases hfile.symm.trans ho
  rcases hnot with hnot | hnot
  · cases hnot
  · cases hnot

/-- A file without a block takes a free one. -/
theorem Inv.takes (h : Inv num l) (hfile : l.hold file = some ⟨none, false⟩) (hi : i < num)
    (hmarked : l.marked i = false) : Inv num { l with
      hold := update l.hold file (some ⟨some i, false⟩)
      marked := update l.marked i true } := by
  refine h.change (fun f _ j ho => ?_) (fun j hj => ?_) (fun j hj hm => ?_) nofun
    (h.mem_of_open ?_) h.freed
  · have hm := (h.owner f j ho).2
    have hji : j ≠ i := by
      rintro rfl
      cases hmarked.symm.trans hm
    refine ⟨(update_of_ne hji ..).trans hm, fun hx => hji ?_⟩
    cases hx
    rfl
  · cases hj
    exact ⟨hi, update_self ..⟩
  · by_cases hji : j = i
    · exact .inl (by rw [hji])
    · obtain ⟨f, ho⟩ := h.owned j hj ((update_of_ne hji ..).symm.trans hm)
      refine .inr ⟨f, ?_, ho⟩
      rintro rfl
      cases hfile.symm.trans ho
  · rw [hfile]
    nofun

/-- The owner of a block frees it. -/
theorem Inv.frees (h : Inv num l) (hfile : l.Owner file i) : Inv num {
      listed := l.listed.erase file
      hold := update l.hold file none
      marked := update l.marked i false
      freed := l.freed ++ [l.marked i] } := by
  refine h.change (fun f hf j ho => ⟨?_, nofun⟩) nofun (fun j hj hm => .inr ?_) nofun h.mem_erase
    fun b hb => ?_
  · have hji : j ≠ i := fun hji => hf (h.unique f file i (hji ▸ ho) hfile)
    exact (update_of_ne hji ..).trans (h.owner f j ho).2
  · have hji : j ≠ i := by
      rintro rfl
      cases (update_self ..).symm.trans hm
    obtain ⟨f, ho⟩ := h.owned j hj ((update_of_ne hji ..).symm.trans hm)
    refine ⟨f, ?_, ho⟩
    rintro rfl
    cases hfile.symm.trans ho
    exact hji rfl
  · rcases List.mem_append.mp hb with hb | hb
    · exact h.freed b hb
    · rw [List.mem_singleton.mp hb, (h.owner file i hfile).2]

theorem Step.inv (hs : Step num l l') (h : Inv num l) : Inv num l' := by
  cases hs with
  | idle hlisted hhold hmarked hfreed => exact h.congr hlisted hhold hmarked hfreed
  | opens file hfile heq =>
    rw [heq]
    refine h.replace (x := some ⟨none, false⟩) (fun i ho => ?_) nofun (fun c hc => ?_) h.mem_cons
    · cases hfile.symm.trans ho
    · cases hc
      rfl
  | takes file i connected hfile hi hmarked heq =>
    cases h.connected file connected hfile
    rw [heq]
    exact h.takes hfile hi hmarked
  | connects file i x hfile hstays heq =>
    rw [heq]
    exact h.replace (x := some ⟨some i, true⟩) (not_owner_of_hold hfile hstays) nofun nofun
      (h.mem_of_open (by rw [hfile]; nofun))
  | closes file x hfile hnone heq =>
    rw [heq]
    exact h.replace (x := none) (not_owner_of_hold hfile hnone) nofun nofun h.mem_erase
  | frees file i hfile heq =>
    rw [heq]
    exact h.frees hfile

end Ledger

/-! ## The marks that the allocator makes -/

section Marks

variable {num order : Nat} {bits : Bitmap}

/-- The search chooses a free entry of the bitmap, however the blocks lie. -/
theorem searchLoop_best {last fuel curr b : Nat} {bestFit : Option Nat}
    (h : (searchLoop bits last order fuel curr bestFit).best = some b) :
    bestFit = some b ∨ b < last ∧ (bits b).allocated = false := by
  induction fuel generalizing curr bestFit with
  | zero => exact .inl h
  | succ fuel ih =>
    rw [searchLoop] at h
    split at h
    next hlt =>
      split at h
      next hfree =>
        split at h
        · cases h
          exact .inr ⟨hlt, hfree⟩
        · split at h
          · rcases ih h with h | h
            · cases h
              exact .inr ⟨hlt, hfree⟩
            · exact .inr h
          · exact ih h
      next => exact ih h
    next => exact .inl h

theorem splitLoop_allocated (fuel : Nat) (bits : Bitmap) (i x : Nat) :
    ((splitLoop order fuel bits i).bits x).allocated = (bits x).allocated := by
  induction fuel generalizing bits with
  | zero => rfl
  | succ fuel ih =>
    rw [splitLoop]
    split
    · exact (ih _).trans (by rw [allocated_setOrder, allocated_setOrder])
    · rfl

/-- A call has failed, or has marked one free entry. -/
def Marks (num : Nat) (bits : Bitmap) (r : Allocation) : Prop :=
  r.index = none ∧ r.bits = bits ∨
    ∃ i, r.index = some i ∧ i < num ∧ (bits i).allocated = false ∧
      ∀ x, (r.bits x).allocated = update (fun x => (bits x).allocated) i true x

theorem pmemAllocate_marks (num : Nat) (bits : Bitmap) (len : Nat) :
    Marks num bits (pmemAllocate num bits len) := by
  unfold pmemAllocate
  simp only
  split
  · exact .inl ⟨rfl, rfl⟩
  split
  next => exact .inl ⟨rfl, rfl⟩
  next i hbest =>
    obtain ⟨hlt, hfree⟩ := (searchLoop_best hbest).resolve_left nofun
    refine .inr ⟨i, rfl, hlt, hfree, fun x => ?_⟩
    show (setAllocated (splitLoop _ _ bits i).bits i true x).allocated = _
    by_cases hx : x = i
    · rw [hx, setAllocated_self, update_self]
    · rw [setAllocated_of_ne _ _ hx, splitLoop_allocated, update_of_ne hx]

end Marks

/-! ## What the calls do to the ledger -/

def PmemData.hold (data : PmemData) : Hold := ⟨data.index, data.connected⟩

namespace Device

variable {num : Nat} {d d' : Device} {file : Nat} {data data' : PmemData}

def ledger (d : Device) : Ledger where
  listed := d.dataList
  hold file := (d.files file).map PmemData.hold
  marked i := (d.bits i).allocated
  freed := d.freed

theorem ledger_setFile (d : Device) (file : Nat) (data : PmemData) : (d.setFile file data).ledger =
      { d.ledger with hold := update d.ledger.hold file (some data.hold) } := by
  unfold ledger setFile
  congr 1
  exact comp_update (Option.map PmemData.hold) ..

theorem hold_of_file (h : d.files file = some data) : d.ledger.hold file = some data.hold :=
  congrArg (Option.map PmemData.hold) h

/-- A file that keeps its index and stays connected or not. -/
theorem ledger_setFile_of_hold (h : d.files file = some data) (hhold : data'.hold = data.hold) :
    (d.setFile file data').ledger = d.ledger := by
  rw [ledger_setFile, hhold, ← hold_of_file h, update_eq_self]

/-- Steps that the ledger does not see. -/
theorem idle_of_eq (h : d'.ledger = d.ledger) : Ledger.Step num d.ledger d'.ledger :=
  .idle (by rw [h]) (by rw [h]) (fun _ _ => by rw [h]) (by rw [h])

theorem ledger_mmapPages (d : Device) (file : Nat) (data : PmemData) (vma : Vma) (index : Nat) :
    (d.mmapPages file data vma index).1.ledger = (d.setFile file data).ledger := by
  unfold mmapPages
  simp only
  split
  · split
    · simp only [ledger_setFile]
      rfl
    · simp only [ledger_setFile]
      rfl
  · simp only [ledger_setFile]
    rfl

theorem ledger_remapPages (h : d.files file = some data) (hhold : data'.hold = data.hold)
    (f : Ptes → Vma → Ptes) : (d.remapPages file data' f).ledger = d.ledger := by
  unfold remapPages
  split
  · split <;> exact ledger_setFile_of_hold h hhold
  · exact ledger_setFile_of_hold h hhold

theorem ledger_pmemRevoke (h : d.files file = some data) (later : List Vma) :
    (d.pmemRevoke file data later).ledger = d.ledger := by
  unfold pmemRevoke
  simp only
  split
  · exact ledger_setFile_of_hold h rfl
  · split <;> exact ledger_setFile_of_hold h rfl

theorem ledger_revokeAll (master : Nat) (later : Nat → List Vma) (l : List Nat) (d : Device) :
    (revokeAll master later l d).ledger = d.ledger := by
  induction l generalizing d with
  | nil => rfl
  | cons file rest ih =>
    rw [revokeAll]
    split
    next => exact ih d
    next data hfile =>
      split
      · exact (ih _).trans (ledger_pmemRevoke hfile _)
      · exact ih d

theorem mmapAllocate_cases (num : Nat) (d : Device) (data : PmemData) (vma : Vma) :
    (data.index = none ∧ ∃ r, Marks num d.bits r ∧
      mmapAllocate num d data vma = (r.bits, r.index)) ∨
      mmapAllocate num d data vma = (d.bits, data.index) := by
  unfold mmapAllocate
  split
  next hindex => exact .inl ⟨hindex, _, pmemAllocate_marks num d.bits vma.size, rfl⟩
  next => exact .inr rfl

section

variable (hfile : d.files file = some data)

include hfile

/-- An index for a file that has none, from the allocator. -/
theorem step_takes (hindex : data.index = none) {r : Allocation} (hr : Marks num d.bits r) :
    Ledger.Step num d.ledger
      ({ d with bits := r.bits }.setFile file { data with index := r.index }).ledger := by
  have hheld : d.ledger.hold file = some ⟨none, data.connected⟩ := by
    rw [hold_of_file hfile, PmemData.hold, hindex]
  rw [ledger_setFile]
  obtain ⟨hr, hbits⟩ | ⟨i, hr, hi, hfree, hmarks⟩ := hr
  · rw [hr, hbits]
    refine .idle rfl ?_ (fun _ _ => rfl) rfl
    exact (congrArg _ hheld.symm).trans (update_eq_self ..)
  · rw [hr]
    refine .takes file i data.connected hheld hi hfree ?_
    have hmarked : (fun x => (r.bits x).allocated) = update d.ledger.marked i true :=
      funext hmarks
    rw [← hmarked]
    rfl

theorem step_allocate (len : Nat) :
    Ledger.Step num d.ledger (d.allocate num file data len).1.ledger := by
  unfold allocate
  split
  next => exact idle_of_eq rfl
  next hindex =>
    have htakes := step_takes hfile (not_isSome_iff_eq_none.mp hindex)
      (pmemAllocate_marks num d.bits len)
    exact htakes

theorem step_mmap (vma : Vma) (pgoff : Nat) :
    Ledger.Step num d.ledger (d.pmemMmap num file data vma pgoff).1.ledger := by
  unfold pmemMmap
  split
  · exact idle_of_eq rfl
  split
  · exact idle_of_eq rfl
  -- Whatever comes of the mapping, the file has the index that was found.
  have hstep : ∀ r, mmapAllocate num d data vma = r → Ledger.Step num d.ledger
      ({ d with bits := r.1 }.setFile file { data with index := r.2 }).ledger := by
    rintro r rfl
    obtain ⟨hindex, r, hr, heq⟩ | heq := mmapAllocate_cases num d data vma
    · rw [heq]
      exact step_takes hfile hindex hr
    · rw [heq]
      exact idle_of_eq (ledger_setFile_of_hold hfile rfl)
  generalize mmapAllocate num d data vma = r at hstep
  have hstep := hstep _ rfl
  simp only
  split
  · exact hstep
  · split
    · exact hstep
    · rw [ledger_mmapPages]
      exact hstep

/-- No call connects a file that has a block of its own. -/
def OwnersStay (d : Device) : Op → Prop
  | .connect file _ src foreign => ∀ data ∈ d.files file,
      data.index ≠ none → data.connected = false → ¬d.Connects data src foreign
  | _ => True

theorem step_connect {fd : Nat} {src foreign : Option Nat}
    (hstays : OwnersStay d (.connect file fd src foreign)) : Ledger.Step num d.ledger
    (d.pmemConnect file data fd src foreign).1.ledger := by
  have hheld := hold_of_file hfile
  obtain heq | ⟨hconnects, index, srcFile, heq⟩ := pmemConnect_cases d file data fd src foreign
  · rw [heq]
    exact idle_of_eq rfl
  · rw [heq]
    refine .connects file index data.hold hheld ?_ (ledger_setFile ..)
    by_contra hnot
    rw [not_or] at hnot
    exact hstays data hfile hnot.1 (Bool.eq_false_iff.mpr hnot.2) hconnects

end

theorem ledger_close (d : Device) (file : Nat) :
    ledger { d with dataList := d.dataList.erase file, files := update d.files file none } =
      { d.ledger with
        listed := d.ledger.listed.erase file
        hold := update d.ledger.hold file none } := by
  unfold ledger
  congr 1
  exact comp_update (Option.map PmemData.hold) ..

theorem hold_lose (files : Nat → Option PmemData) (index count file : Nat) :
    (lose files index count file).map PmemData.hold = (files file).map PmemData.hold := by
  unfold lose
  rw [map_map]
  congr 1
  funext data
  simp only [comp]
  split <;> rfl

section

variable (hfile : d.files file = some data)

include hfile

theorem step_release (later : Nat → List Vma) :
    Ledger.Step num d.ledger (d.pmemRelease num file data later).ledger := by
  have hrevoke : (if data.mastermap then revokeAll file later d.dataList d else d).ledger =
      d.ledger := by
    split
    · exact ledger_revokeAll ..
    · rfl
  have hheld := hold_of_file hfile
  unfold pmemRelease
  generalize (if data.mastermap then revokeAll file later d.dataList d else d) = d₁ at hrevoke
  rw [← hrevoke] at hheld ⊢
  split
  next hindex => exact .closes file data.hold hheld (.inl hindex) (ledger_close d₁ file)
  next index hindex =>
    split
    next hconn => exact .closes file data.hold hheld (.inr hconn) (ledger_close d₁ file)
    next hconn =>
      have howner : d₁.ledger.hold file = some ⟨some index, false⟩ := by
        rw [hheld, PmemData.hold, hindex, Bool.eq_false_iff.mpr hconn]
      refine .frees file index howner (Ledger.ext rfl ?_ ?_ rfl)
      · funext file'
        exact (hold_lose ..).trans (congrFun (congrArg Ledger.hold (ledger_close d₁ file)) file')
      · funext x
        show ((pmemFree num d₁.bits index).bits x).allocated =
          update d₁.ledger.marked index false x
        by_cases hx : x = index
        · rw [hx, pmemFree_self, update_self]
        · rw [pmemFree_allocated num d₁.bits hx, update_of_ne hx]
          rfl

theorem ledger_pmemMap (region : PmemRegion) (fds : Nat → Option Nat) (later : List Vma) :
    (d.pmemMap file data region fds later).1.ledger = d.ledger := by
  unfold pmemMap
  split
  · rfl
  · have hhold : PmemData.hold { data with regionList := region :: data.regionList } = data.hold :=
      rfl
    exact ledger_remapPages hfile hhold _

theorem ledger_pmemUnmap (region : PmemRegion) (fds : Nat → Option Nat) (later : List Vma) :
    (d.pmemUnmap file data region fds later).1.ledger = d.ledger := by
  unfold pmemUnmap
  split
  · rfl
  · split
    · have hhold : PmemData.hold { data with
          regionList := data.regionList.filter (· ≠ region) } = data.hold := rfl
      exact ledger_remapPages hfile hhold _
    · rfl

end

theorem ledger_step {op : Op} (hstays : OwnersStay d op) (hs : step num d op = some d') :
    Ledger.Step num d.ledger d'.ledger := by
  cases op with
  | «open» file =>
    obtain ⟨hnone, rfl⟩ := ite_some_none_eq_some.mp hs
    refine .opens file (congrArg (Option.map PmemData.hold) hnone) (Ledger.ext rfl ?_ rfl rfl)
    have hhold := congrArg Ledger.hold (ledger_setFile d file .opened)
    exact hhold
  | allocate file len =>
    obtain ⟨data, hfile, rfl⟩ := map_eq_some_iff.mp hs
    exact step_allocate hfile _
  | connect file fd src foreign =>
    obtain ⟨data, hfile, rfl⟩ := map_eq_some_iff.mp hs
    exact step_connect hfile hstays
  | mmap file vma pgoff =>
    obtain ⟨data, hfile, -, rfl⟩ := bind_ite_eq_some.mp hs
    exact step_mmap hfile vma pgoff
  | map file offset len fds later =>
    obtain ⟨data, hfile, -, rfl⟩ := bind_ite_eq_some.mp hs
    exact idle_of_eq (ledger_pmemMap hfile ..)
  | unmap file offset len fds later =>
    obtain ⟨data, hfile, -, rfl⟩ := bind_ite_eq_some.mp hs
    exact idle_of_eq (ledger_pmemUnmap hfile ..)
  | munmap file =>
    obtain ⟨data, hfile, hs⟩ := bind_eq_some_iff.mp hs
    obtain ⟨vma, -, rfl⟩ := map_eq_some_iff.mp hs
    refine idle_of_eq ?_
    unfold pmemVmaClose
    simp only
    split <;> exact ledger_setFile_of_hold hfile rfl
  | munmapPart file rest part later =>
    obtain ⟨data, hfile, hs⟩ := bind_eq_some_iff.mp hs
    obtain ⟨vma, -, -, rfl⟩ := bind_ite_eq_some.mp hs
    exact idle_of_eq (ledger_setFile_of_hold hfile rfl)
  | fork file area =>
    obtain ⟨data, hfile, hs⟩ := bind_eq_some_iff.mp hs
    obtain ⟨parent, -, rfl⟩ := map_eq_some_iff.mp hs
    exact idle_of_eq (ledger_setFile_of_hold hfile rfl)
  | childExit file child =>
    obtain ⟨data, hfile, rfl⟩ := map_eq_some_iff.mp hs
    exact idle_of_eq (ledger_setFile_of_hold hfile rfl)
  | taskExit file =>
    obtain ⟨data, hfile, rfl⟩ := map_eq_some_iff.mp hs
    exact idle_of_eq (ledger_setFile_of_hold hfile rfl)
  | release file later =>
    obtain ⟨data, hfile, -, rfl⟩ := bind_ite_eq_some.mp hs
    exact step_release hfile later
  | others memory =>
    cases hs
    exact .idle rfl rfl (fun i hi => congrArg Buddy.Cell.allocated (if_pos hi)) rfl

instance (d : Device) (op : Op) : Decidable (OwnersStay d op) := by
  unfold OwnersStay
  split <;> infer_instance

theorem inv_ledger_init (num : Nat) (behind : Bitmap) :
    Ledger.Inv num (init num behind).ledger where
  listed _ h := absurd rfl h
  owner _ _ h := by cases h
  unique _ _ _ h := by cases h
  owned i hi h := by
    have hfree : (init num behind).ledger.marked i = false := pmemSetup_allocated behind hi
    rw [hfree] at h
    cases h
  connected _ _ h := by cases h
  freed _ h := by cases h

/-- In every run in which no file that has a block of its own is connected, each block that is
freed is allocated, and once all files have been released no entry of the bitmap is marked. -/
theorem blocks_freed_once {size : Nat} {behind : Bitmap}
    (h : Reached (step (numEntries size)) OwnersStay (init (numEntries size) behind) d) :
    (∀ b ∈ d.freed, b = true) ∧ (d.dataList = [] →
        (∀ file, d.files file = none) ∧ ∀ i < numEntries size, (d.bits i).allocated = false) := by
  have hinv : Ledger.Inv (numEntries size) d.ledger := h.invariant (inv_ledger_init _ behind)
    fun _ _ _ hinv hstays hs => (ledger_step hstays hs).inv hinv
  refine ⟨hinv.freed, fun hnone => ?_⟩
  have hclosed : ∀ file, d.ledger.hold file = none := fun file => by
    by_contra hopen
    have hmem : file ∈ d.dataList := hinv.listed file hopen
    rw [hnone] at hmem
    cases hmem
  refine ⟨fun file => map_eq_none_iff.mp (hclosed file), fun i hi => ?_⟩
  by_contra halloc
  obtain ⟨file, howner⟩ := hinv.owned i hi (Bool.eq_true_of_not_eq_false halloc)
  cases (hclosed file).symm.trans howner

/-- A file with a block of two pages, and one that is connected to it: both are released. -/
theorem blocks_freed_once_connected : ∃ d, Reached (step (numEntries 12288)) OwnersStay
      (init (numEntries 12288) fun _ => ⟨true, 0⟩) d ∧ d.freed = [true] ∧
      ∀ i < numEntries 12288, (d.bits i).allocated = false := by
  obtain ⟨d, hrun, hfreed, hlist⟩ : ∃ d, Reached (step (numEntries 12288)) OwnersStay
      (init (numEntries 12288) fun _ => ⟨true, 0⟩) d ∧
      d.freed = [true] ∧ d.dataList = [] :=
    Reached.exists_of_checked
      [.open 1, .allocate 1 8192, .open 2, .connect 2 7 (some 1) none, .release 1 fun _ => [],
        .release 2 fun _ => []] (by decide +kernel)
  exact ⟨d, hrun, hfreed, ((blocks_freed_once hrun).2 hlist).2⟩

/-- A file that is connected to itself does not free its block. -/
theorem self_connected_leaks : ∃ d, Reached (step (numEntries 4096)) (fun _ _ => True)
      (init (numEntries 4096) fun _ => ⟨true, 0⟩) d ∧ d.dataList = [] ∧ d.freed = [] ∧
      (d.bits 0).allocated = true :=
  Reached.exists_of_checked
    [.open 1, .allocate 1 4096, .connect 1 3 (some 1) none, .release 1 fun _ => []]
    (by decide +kernel)

end Device

end AndroidKernel.Pmem
