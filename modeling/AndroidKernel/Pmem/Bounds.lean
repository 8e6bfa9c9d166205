import AndroidKernel.Pmem.Files

/-!
# Where pmem changes page tables

A region is checked against the block, not against the area that maps the file. As long as the
regions of a connected file lie inside the area, when it is mapped, when a region is added and
when the area gets smaller, all changes of page tables are inside the area that they are
made for. `pmem_vma_open` stays inside if no area follows, as in a fork, or if the part that is
split off does not lie so low that its negative length wraps around.
-/

namespace AndroidKernel.Pmem

open Function List Option

/-! ## What the functions touch -/

section Touching

variable {vma : Vma} {later : List Vma} {p : Ptes} {start stop addr : Nat}

theorem mem_pages (h : addr ∈ pages start stop) : start ≤ addr ∧ addr < stop := by
  obtain ⟨i, hi, rfl⟩ := mem_map.mp h
  have hi := mem_range.mp hi
  have hlt : (i + 1) * pmemMinAlloc ≤ stop - start :=
    (Nat.le_div_iff_mul_le (by decide)).mp hi
  rw [Nat.succ_mul] at hlt
  have hpos : 0 < pmemMinAlloc := by decide
  exact ⟨Nat.le_add_right .., by omega⟩

/-- All changes so far are in the area. -/
def Inside (vma : Vma) (p : Ptes) : Prop := ∀ addr ∈ p.touched, vma.Has addr

/-- The region lies in the area, if it is counted from its start. -/
def RegionFits (vma : Vma) (offset len : Nat) : Prop := offset + len ≤ vma.size
  deriving Decidable

theorem Inside.clear (h : Inside vma p) {l : List Nat} (hl : ∀ addr ∈ l, vma.Has addr) :
    Inside vma (p.clear l) :=
  fun addr ha => (mem_append.mp ha).elim (h addr) (hl addr)

theorem Inside.set (h : Inside vma p) (ha : vma.Has addr) (page : Page) :
    Inside vma (p.set addr page) :=
  forall_mem_append.mpr ⟨h, forall_mem_singleton.mpr ha⟩

theorem mem_unmapVmas_behind {startAddr endAddr : Nat} (hlater : ∀ w ∈ later, endAddr ≤ w.vmStart) :
    unmapVmas startAddr endAddr later = [] := by
  cases later with
  | nil => rfl
  | cons w rest =>
    rw [unmapVmas, if_neg (Nat.not_lt.mpr (hlater w mem_cons_self))]

/-- Of the area itself only its own addresses are cleared. -/
theorem unmapVmas_inside {startAddr endAddr : Nat} (hlater : ∀ w ∈ later, endAddr ≤ w.vmStart) :
    ∀ addr ∈ unmapVmas startAddr endAddr (vma :: later), vma.Has addr := by
  intro addr ha
  rw [unmapVmas] at ha
  split at ha
  · rw [mem_unmapVmas_behind hlater, append_nil] at ha
    have := mem_pages ha
    unfold Vma.Has
    omega
  · cases ha

variable {offset len : Nat}

section

variable (h : RegionFits vma offset len)

include h

theorem RegionFits.le : vma.vmStart + offset + len ≤ vma.vmEnd := by
  have := vma.lt
  unfold RegionFits Vma.size at h
  omega

/-- The addresses of such a region do not wrap around. -/
theorem RegionFits.ends : ulong ((vma.vmStart : Int) + offset) = vma.vmStart + offset ∧
    ulong ((ulong ((vma.vmStart : Int) + offset) : Int) + len) = vma.vmStart + offset + len := by
  have := h.le
  have := vma.bound
  unfold ulong
  omega

end

section

variable (h : Inside vma p)

include h

/-- `vm_insert_pfn` checks the address. -/
theorem Inside.garbageLoop (n addr : Nat) : Inside vma (garbageLoop vma n p addr).1 := by
  induction n generalizing p addr with
  | zero => exact h
  | succ n ih =>
    unfold Pmem.garbageLoop vmInsertPfn
    by_cases hout : ulong addr < vma.vmStart ∨ ulong addr ≥ vma.vmEnd
    · rw [if_pos hout]
      exact h
    rw [if_neg hout]
    split
    next hnone => exact h
    next q hsome =>
      obtain ⟨-, hq⟩ := ite_none_left_eq_some.mp hsome
      cases hq
      refine ih (h.set ?_ .garbage) _
      unfold Vma.Has
      omega

theorem Inside.remapLoop {l : List Nat} (hl : ∀ addr ∈ l, vma.Has addr)
    (page : Nat) : Inside vma (remapLoop p page l) := by
  induction l generalizing p page with
  | nil => exact h
  | cons addr rest ih =>
    exact ih (h.set (hl addr mem_cons_self) _) (fun a ha => hl a (mem_cons_of_mem addr ha)) _

/-- `pmem_vma_open` clears nothing if the area lies high enough, and nothing of other areas if
none follow. -/
theorem Inside.vmaOpen (hsafe : later = [] ∨ vma.size ≤ vma.vmStart) :
    Inside vma (pmemVmaOpen p vma later) := by
  refine Inside.garbageLoop (h.clear fun addr ha => ?_) _ _
  rcases hsafe with rfl | hhigh
  · exact unmapVmas_inside (fun _ hw => absurd hw not_mem_nil) addr ha
  have hend : ulong ((ulong ((vma.vmStart : Int) + (0 : Nat)) : Int) +
      (ulong ((vma.vmStart : Int) - vma.vmEnd) : Nat)) ≤ vma.vmStart := by
    have := vma.lt
    unfold Vma.size at hhigh
    unfold ulong
    omega
  rw [unmapVmas, if_neg (Nat.not_lt.mpr hend)] at ha
  cases ha

variable (hfits : RegionFits vma offset len) (hlater : ∀ w ∈ later, vma.vmEnd ≤ w.vmStart)

include hfits

theorem Inside.mapPfnRange (index : Nat) : Inside vma (pmemMapPfnRange p vma index offset len) := by
  refine h.remapLoop (fun addr ha => ?_) _
  rw [hfits.ends.2, hfits.ends.1] at ha
  have := mem_pages ha
  have := hfits.le
  unfold Vma.Has
  omega

include hlater

theorem Inside.zap :
    Inside vma (zapPageRange p vma later (ulong ((vma.vmStart : Int) + offset)) len) := by
  refine h.clear (unmapVmas_inside fun w hw => ?_)
  rw [hfits.ends.2]
  exact hfits.le.trans (hlater w hw)

theorem Inside.unmapPfnRange : Inside vma (pmemUnmapPfnRange p vma later offset len) :=
  (h.zap hfits hlater).garbageLoop _ _

theorem Inside.remapPfnRange (index : Nat) :
    Inside vma (pmemRemapPfnRange p vma later index offset len) :=
  (h.zap hfits hlater).mapPfnRange hfits index

end

end Touching

/-! ## What the calls change -/

/-- If the file is submapped, its regions lie in the area. -/
def PmemData.Fits (data : PmemData) : Prop :=
  ∀ vma ∈ data.vma, data.isSubmap = true → ∀ region ∈ data.regionList,
    RegionFits vma region.offset region.len

namespace Device

variable {num : Nat} {d d' : Device} {file : Nat} {data : PmemData} {vma : Vma} {op : Op}

/-- The regions lie in the area when a connected file is mapped, when a region is added and when
a part of the area is unmapped; and that part does not lie lower than it is long, unless no area
follows. -/
def RegionsFit (d : Device) : Op → Prop
  | .mmap file vma pgoff => ∀ data ∈ d.files file,
      data.connected = true → d.Mappable data vma pgoff →
        ∀ region ∈ data.regionList, RegionFits vma region.offset region.len
  | .map file offset len fds _ => ∀ data ∈ d.files file,
      d.remapRefused data ⟨ulong offset, ulong len⟩ fds = none →
        ∀ vma ∈ data.vma, data.isSubmap = true → RegionFits vma (ulong offset) (ulong len)
  | .munmapPart file rest part later => (later = [] ∨ part.size ≤ part.vmStart) ∧
      ∀ data ∈ d.files file, data.vma.isSome = true → data.isSubmap = true →
        ∀ region ∈ data.regionList, RegionFits rest region.offset region.len
  | _ => True

/-- The regions fit, and all changes so far were made inside their areas. -/
structure Bounded (d : Device) : Prop where
  fits : ∀ file data, d.files file = some data → data.Fits
  changes : ∀ c ∈ d.changes, c.1.Has c.2

theorem bounded_init (num : Nat) (behind : Bitmap) : Bounded (init num behind) where
  fits _ _ hfile := by cases hfile
  changes _ hc := absurd hc not_mem_nil

/-- What holds of each file still does when it holds of the data of one that is changed. -/
theorem forall_files_setFile {P : PmemData → Prop}
    (h : ∀ file data, d.files file = some data → P data) (hdata : P data) :
    ∀ file' data', (d.setFile file data).files file' = some data' → P data' := by
  intro file' data' hfile
  by_cases hf : file' = file
  · subst hf
    cases (update_self ..).symm.trans hfile
    exact hdata
  · exact h file' data' ((update_of_ne hf ..).symm.trans hfile)

theorem Bounded.setFile (h : Bounded d) (hfits : data.Fits) : Bounded (d.setFile file data) :=
  ⟨forall_files_setFile h.fits hfits, h.changes⟩

theorem Bounded.change (h : Bounded d) {p : Ptes} (hp : Inside vma p) :
    Bounded (d.change vma p) := by
  exact ⟨h.fits, forall_mem_append.mpr ⟨h.changes, forall_mem_map.mpr hp⟩⟩

/-- The bitmap does not matter. -/
theorem Bounded.setBits (h : Bounded d) (bits : Bitmap) : Bounded { d with bits := bits } :=
  ⟨h.fits, h.changes⟩

/-- A file gets an index from the allocator. -/
theorem Bounded.take (h : Bounded d) (hdata : data.Fits) (bits : Bitmap) (index : Option Nat) :
    Bounded ({ d with bits := bits }.setFile file { data with index := index }) :=
  (h.setBits bits).setFile hdata

theorem inside_nil (vma : Vma) (table : PageTable) : Inside vma ⟨table, []⟩ := nofun

theorem inside_mapRegions {p : Ptes} (h : Inside vma p) (index : Nat) {regions : List PmemRegion}
    (hfits : ∀ region ∈ regions, RegionFits vma region.offset region.len) :
    Inside vma (mapRegions vma index regions p) := by
  induction regions generalizing p with
  | nil => exact h
  | cons region rest ih =>
    refine ih (h.remapPfnRange (hfits region mem_cons_self) (fun _ hw => absurd hw not_mem_nil)
      index)
      fun r hr => ?_
    exact hfits r (mem_cons_of_mem region hr)

theorem inside_unmapRegions {p : Ptes} (h : Inside vma p) {later : List Vma}
    (hlater : ∀ w ∈ later, vma.vmEnd ≤ w.vmStart) {regions : List PmemRegion}
    (hfits : ∀ region ∈ regions, RegionFits vma region.offset region.len) :
    Inside vma (unmapRegions vma later regions p) := by
  induction regions generalizing p with
  | nil => exact h
  | cons region rest ih =>
    refine ih (h.unmapPfnRange (hfits region mem_cons_self) hlater) fun r hr => ?_
    exact hfits r (mem_cons_of_mem region hr)

section

variable (h : Bounded d) (hdata : data.Fits) {fds : Nat → Option Nat} {later : List Vma}

include h hdata

theorem bounded_pmemMmap {pgoff : Nat}
    (hfits : data.connected = true → d.Mappable data vma pgoff → ∀ region ∈ data.regionList,
      RegionFits vma region.offset region.len) :
    Bounded (d.pmemMmap num file data vma pgoff).1 := by
  have hm := pmemMmap_mmapped num d file data vma pgoff
  have hgarbage : Inside vma (pmemMapGarbage ⟨data.table, []⟩ vma 0 vma.size).1 :=
    (inside_nil vma data.table).garbageLoop _ _
  generalize d.pmemMmap num file data vma pgoff = r at hm
  cases hm with
  | refused => exact h
  | unmapped bits index _ => exact h.take hdata bits index
  | failed bits index p _ hconn hp =>
    rw [hp] at hgarbage
    exact ((h.setBits bits).change hgarbage).setFile hdata
  | submap bits index p _ hconn hmap hp =>
    rw [hp] at hgarbage
    have hfits := hfits hconn hmap
    refine ((h.setBits bits).change (inside_mapRegions hgarbage index hfits)).setFile fun v hv _ =>
      ?_
    cases hv
    exact hfits
  | master bits index _ hconn hflags =>
    have hall : RegionFits vma 0 vma.size := (Nat.zero_add _).le
    exact ((h.setBits bits).change ((inside_nil vma data.table).mapPfnRange hall index)).setFile
      hdata

/-- A change of a submapped file's pages, with the data that it has afterwards. -/
theorem bounded_remapPages {f : Ptes → Vma → Ptes}
    (hf : ∀ vma ∈ data.vma, data.isSubmap = true → Inside vma (f ⟨data.table, []⟩ vma)) :
    Bounded (d.remapPages file data f) := by
  unfold remapPages
  split
  next vma hvma =>
    split
    next hsub => exact (h.change (hf vma hvma hsub)).setFile hdata
    next => exact h.setFile hdata
  next => exact h.setFile hdata

theorem bounded_pmemMap {region : PmemRegion} (hlater : Follow data.vma later)
    (hfits : d.remapRefused data region fds = none → ∀ vma ∈ data.vma, data.isSubmap = true →
      RegionFits vma region.offset region.len) :
    Bounded (d.pmemMap file data region fds later).1 := by
  unfold pmemMap
  split
  next => exact h
  next hgoes =>
    have hfits := hfits hgoes
    simp only
    refine bounded_remapPages h (fun vma hvma hsub => ?_) fun vma hvma hsub => ?_
    · exact forall_mem_cons.mpr ⟨hfits vma hvma hsub, hdata vma hvma hsub⟩
    · exact (inside_nil vma _).remapPfnRange (hfits vma hvma hsub) (hlater vma hvma) _

theorem bounded_pmemUnmap {region : PmemRegion} (hlater : Follow data.vma later) :
    Bounded (d.pmemUnmap file data region fds later).1 := by
  unfold pmemUnmap
  split
  next => exact h
  next =>
    split
    next hmem =>
      -- The region is one of those that are listed.
      simp only
      refine bounded_remapPages h (fun vma hvma hsub r hr => ?_) fun vma hvma hsub => ?_
      · exact hdata vma hvma hsub r (mem_filter.mp hr).1
      · exact (inside_nil vma _).unmapPfnRange (hdata vma hvma hsub region hmem) (hlater vma hvma)
    next => exact h

theorem bounded_pmemRevoke (hsub : data.isSubmap = true) (hlater : Follow data.vma later) :
    Bounded (d.pmemRevoke file data later) := by
  unfold pmemRevoke
  simp only
  split
  next => exact h.setFile hdata
  next =>
    split
    next => exact h.setFile hdata
    next vma hvma =>
      have hin := inside_unmapRegions (inside_nil vma data.table) (hlater vma hvma)
        (hdata vma hvma hsub)
      exact (h.change hin).setFile fun _ _ _ r hr => nomatch hr

end

/-- Revoking a file leaves its area as it is. -/
theorem vma_pmemRevoke {f : Nat} {x : PmemData} {later : List Vma}
    (hx : (d.pmemRevoke file data later).files f = some x) :
    d.files f = some x ∨ f = file ∧ x.vma = data.vma := by
  have hset : ∀ {d' : Device} {y : PmemData}, (d'.setFile file y).files f = some x →
      d'.files = d.files → y.vma = data.vma → d.files f = some x ∨ f = file ∧ x.vma = data.vma := by
    intro d' y hx hd' hy
    by_cases hf : f = file
    · subst hf
      cases (update_self ..).symm.trans hx
      exact .inr ⟨rfl, hy⟩
    · rw [← hd']
      exact .inl ((update_of_ne hf ..).symm.trans hx)
  unfold pmemRevoke at hx
  simp only at hx
  split at hx
  · exact hset hx rfl rfl
  · split at hx
    · exact hset hx rfl rfl
    · exact hset hx rfl rfl

theorem bounded_revokeAll (h : Bounded d) (master : Nat) {later : Nat → List Vma} (l : List Nat)
    (hlater : ∀ f ∈ l, ∀ x ∈ d.files f, Follow x.vma (later f)) :
    Bounded (revokeAll master later l d) := by
  induction l generalizing d with
  | nil => exact h
  | cons file rest ih =>
    have hrest : ∀ f ∈ rest, ∀ x ∈ d.files f, Follow x.vma (later f) :=
      fun f hf => hlater f (mem_cons_of_mem file hf)
    rw [revokeAll]
    split
    next => exact ih h hrest
    next data hfile =>
      split
      next hsub =>
        have hfollow := hlater file mem_cons_self data hfile
        refine ih (bounded_pmemRevoke h (h.fits file data hfile) hsub.1 hfollow) fun f hf x hx => ?_
        rcases vma_pmemRevoke hx with hx | ⟨rfl, hvma⟩
        · exact hrest f hf x hx
        · rw [hvma]
          exact hfollow
      next => exact ih h hrest

theorem bounded_pmemRelease (h : Bounded d) {later : Nat → List Vma}
    (hlater : ∀ f ∈ d.dataList, ∀ x ∈ d.files f, Follow x.vma (later f)) :
    Bounded (d.pmemRelease num file data later) := by
  have hrevoke : Bounded (if data.mastermap then revokeAll file later d.dataList d else d) := by
    split
    · exact bounded_revokeAll h file _ hlater
    · exact h
  unfold pmemRelease
  generalize (if data.mastermap then revokeAll file later d.dataList d else d) = d₁ at hrevoke
  have hclosed : ∀ f x, update d₁.files file none f = some x → x.Fits := fun f x hx => by
    by_cases hf : f = file
    · subst hf
      cases (update_self ..).symm.trans hx
    · exact hrevoke.fits f x ((update_of_ne hf ..).symm.trans hx)
  split
  · exact ⟨hclosed, hrevoke.changes⟩
  · split
    · exact ⟨hclosed, hrevoke.changes⟩
    · refine ⟨fun f x hx => ?_, hrevoke.changes⟩
      obtain ⟨y, hy, rfl⟩ := map_eq_some_iff.mp hx
      have hfits := hclosed f y hy
      split <;> exact hfits

theorem bounded_step (h : Bounded d) (hfit : RegionsFit d op) (hs : step num d op = some d') :
    Bounded d' := by
  cases op with
  | «open» file =>
    obtain ⟨-, rfl⟩ := ite_some_none_eq_some.mp hs
    have hopened : PmemData.opened.Fits := fun v hv => absurd hv (not_mem_none v)
    have hset : Bounded (d.setFile file .opened) := h.setFile hopened
    exact ⟨hset.fits, hset.changes⟩
  | allocate file len =>
    obtain ⟨data, hfile, rfl⟩ := map_eq_some_iff.mp hs
    unfold Device.allocate
    split
    · exact h
    · have htake := @Bounded.take d file data h (h.fits file data hfile)
      exact htake _ _
  | connect file fd src foreign =>
    obtain ⟨data, hfile, rfl⟩ := map_eq_some_iff.mp hs
    have hfits := h.fits file data hfile
    obtain heq | ⟨-, index, srcFile, heq⟩ := pmemConnect_cases d file data fd src foreign
    · rw [heq]
      exact h
    · rw [heq]
      exact h.setFile hfits
  | mmap file vma pgoff =>
    obtain ⟨data, hfile, -, rfl⟩ := bind_ite_eq_some.mp hs
    exact bounded_pmemMmap h (h.fits file data hfile) (hfit data hfile)
  | map file offset len fds later =>
    obtain ⟨data, hfile, hlater, rfl⟩ := bind_ite_eq_some.mp hs
    exact bounded_pmemMap h (h.fits file data hfile) hlater (hfit data hfile)
  | unmap file offset len fds later =>
    obtain ⟨data, hfile, hlater, rfl⟩ := bind_ite_eq_some.mp hs
    exact bounded_pmemUnmap h (h.fits file data hfile) hlater
  | munmap file =>
    obtain ⟨data, hfile, hs⟩ := bind_eq_some_iff.mp hs
    obtain ⟨vma, -, rfl⟩ := map_eq_some_iff.mp hs
    unfold pmemVmaClose
    simp only
    split
    · exact h.setFile nofun
    · exact h.setFile (h.fits file data hfile)
  | munmapPart file rest part later =>
    obtain ⟨data, hfile, hs⟩ := bind_eq_some_iff.mp hs
    obtain ⟨vma, -, -, rfl⟩ := bind_ite_eq_some.mp hs
    obtain ⟨hsafe, hrest⟩ := hfit
    refine (h.change ((inside_nil part data.table).vmaOpen hsafe)).setFile fun v hv hsub => ?_
    obtain ⟨w, hw, rfl⟩ := map_eq_some_iff.mp hv
    exact hrest data hfile (isSome_of_mem hw) hsub
  | fork file area =>
    obtain ⟨data, hfile, hs⟩ := bind_eq_some_iff.mp hs
    obtain ⟨⟨vma, table⟩, -, rfl⟩ := map_eq_some_iff.mp hs
    have hfits := h.fits file data hfile
    exact (h.change ((inside_nil vma _).vmaOpen (.inl rfl))).setFile hfits
  | childExit file child =>
    obtain ⟨data, hfile, rfl⟩ := map_eq_some_iff.mp hs
    have hfits := h.fits file data hfile
    exact h.setFile hfits
  | taskExit file =>
    obtain ⟨data, hfile, rfl⟩ := map_eq_some_iff.mp hs
    have hfits := h.fits file data hfile
    exact h.setFile hfits
  | release file later =>
    obtain ⟨data, hfile, ⟨-, hlater⟩, rfl⟩ := bind_ite_eq_some.mp hs
    exact bounded_pmemRelease h hlater
  | others memory =>
    cases hs
    exact h.setBits _

instance (d : Device) (op : Op) : Decidable (RegionsFit d op) := by
  unfold RegionsFit
  split <;> infer_instance

end Device

/-- Two pages at 64 MiB. -/
def twoPages : Vma := ⟨0x4000000, 0x4002000, by decide, by decide, by decide⟩

/-- The first of them. -/
def onePage : Vma := ⟨0x4000000, 0x4001000, by decide, by decide, by decide⟩

namespace Device

end Device

end AndroidKernel.Pmem
