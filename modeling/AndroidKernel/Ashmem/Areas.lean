import AndroidKernel.Ashmem.Ranges

/-!
# Areas along whole runs

`Kept` says once what the operations of the driver can do to its state; an
invariant is a `Kept` predicate that holds at the start. The first ones are about
the list of each area: it is `Listed` in every state reached (`areasOk_reached`),
and has no empty range as long as nobody unpins the nothing that is left behind
the last page (`areasClean_reached`). With that the driver refines a set of
unpinned pages for each area.
-/

namespace AndroidKernel.Ashmem

open Option List

variable {s s' : State} {a b : AreaId} {area : AshmemArea} {pin : AshmemPin} {alloc : Bool}
  {lo hi : Nat} {r : AshmemRange} {op : Op} {ok : State → Op → Prop} {P : State → Prop}
  {A : AshmemArea → Prop} {ranges : List AshmemRange} {id : RangeId}

/-! ## What the operations do -/

/-- `P` is kept by whatever the driver does in an operation that meets `ok`. -/
structure Kept (ok : State → Op → Prop) (P : State → Prop) : Prop where
  openFile : ∀ s, P s → P { s with areas := s.areas.alloc {} }
  release : ∀ s a area, P s → s.areas.get a = some area → P (s.ashmemRelease a area)
  setSize : ∀ s a area (size : UInt32), P s → s.areas.get a = some area → area.file = false →
    P { s with areas := s.areas.set a { area with size := size.toNat } }
  mmap : ∀ s a area, P s → s.areas.get a = some area →
    P { s with areas := s.areas.set a { area with file := true } }
  pin : ∀ s a area pin alloc lo hi, P s → s.areas.get a = some area → area.file = true →
    pin.pages area.size = some (lo, hi) → ok s (.pinUnpin a .pin pin true alloc) →
    P (s.pinPages a area alloc lo hi).1
  unpin : ∀ s a area pin alloc lo hi, P s → s.areas.get a = some area → area.file = true →
    pin.pages area.size = some (lo, hi) → ok s (.pinUnpin a .unpin pin true alloc) →
    P (s.unpinPages a area alloc lo hi).1
  shrink : ∀ s nrToScan, P s → P (s.shrinkLoop s.lru.ashmemLruList nrToScan)

namespace Kept

section

variable (h : Kept ok P)

include h

theorem ashmemShrink (hs : P s) (nrToScan : Int) (fs : Bool) :
    P (s.ashmemShrink nrToScan fs).1 := by
  unfold State.ashmemShrink
  split
  · exact hs
  split
  · exact hs
  · exact h.shrink s nrToScan hs

theorem pinUnpin (hs : P s) (harea : s.areas.get a = some area) {cmd : PinCommand} {copied : Bool}
    (hok : ok s (.pinUnpin a cmd pin copied alloc)) : P
    (s.ashmemPinUnpin a area cmd pin copied alloc).1 := by
  unfold State.ashmemPinUnpin
  split
  · exact hs
  rename_i hfile
  have hfile : area.file = true := by simpa using hfile
  split
  · exact hs
  rename_i hcopied
  obtain rfl : copied = true := by simpa using hcopied
  split
  · exact hs
  next lo hi hpages =>
    cases cmd with
    | pin => exact h.pin s a area pin alloc lo hi hs harea hfile hpages hok
    | unpin => exact h.unpin s a area pin alloc lo hi hs harea hfile hpages hok
    | getPinStatus => exact hs

theorem step (hs : P s) (hok : ok s op) (hstep : s.step op = some s') : P s' := by
  obtain ⟨res, hcall, rfl⟩ := map_eq_some_iff.mp hstep
  cases op with
  | openFile alloc =>
    cases hcall
    unfold State.ashmemOpen
    split
    · exact h.openFile s hs
    · exact hs
  | release a =>
    obtain ⟨area, harea, rfl⟩ := map_eq_some_iff.mp hcall
    exact h.release s a area hs harea
  | setSize a size =>
    obtain ⟨area, harea, rfl⟩ := map_eq_some_iff.mp hcall
    unfold State.setSize
    split
    · exact hs
    · exact h.setSize s a area size hs harea (by simpa using ‹¬ area.file = true›)
  | mmap a allowed setup =>
    obtain ⟨area, harea, rfl⟩ := map_eq_some_iff.mp hcall
    unfold State.ashmemMmap
    repeat' split
    all_goals first
      | exact hs
      | exact h.mmap s a area hs harea
  | pinUnpin a cmd pin copied alloc =>
    obtain ⟨area, harea, rfl⟩ := map_eq_some_iff.mp hcall
    exact h.pinUnpin hs harea hok
  | purgeAllCaches capable =>
    cases hcall
    unfold State.purgeAllCaches
    split
    · have hquery := h.ashmemShrink hs 0 true
      generalize s.ashmemShrink 0 true = query at hquery
      obtain ⟨s₁, ret⟩ := query
      have hpurge := h.ashmemShrink hquery ret true
      dsimp only
      generalize s₁.ashmemShrink ret true = res at hpurge
      exact hpurge
    · exact hs
  | shrink nrToScan fs =>
    cases hcall
    exact h.ashmemShrink hs nrToScan fs

theorem and {Q : State → Prop} (h' : Kept ok Q) : Kept ok fun s => P s ∧ Q s where
  openFile s hs := ⟨h.openFile s hs.1, h'.openFile s hs.2⟩
  release s a area hs ha := ⟨h.release s a area hs.1 ha, h'.release s a area hs.2 ha⟩
  setSize s a area n hs ha hf := ⟨h.setSize s a area n hs.1 ha hf, h'.setSize s a area n hs.2 ha hf⟩
  mmap s a area hs ha := ⟨h.mmap s a area hs.1 ha, h'.mmap s a area hs.2 ha⟩
  pin s a area pin alloc lo hi hs ha hf hp hok :=
    ⟨h.pin s a area pin alloc lo hi hs.1 ha hf hp hok,
      h'.pin s a area pin alloc lo hi hs.2 ha hf hp hok⟩
  unpin s a area pin alloc lo hi hs ha hf hp hok :=
    ⟨h.unpin s a area pin alloc lo hi hs.1 ha hf hp hok,
      h'.unpin s a area pin alloc lo hi hs.2 ha hf hp hok⟩
  shrink s n hs := ⟨h.shrink s n hs.1, h'.shrink s n hs.2⟩

/-- Such an invariant holds in every state reached. -/
theorem reached (hinit : P State.init) (hs : Reached State.step ok State.init s) : P s :=
  hs.invariant hinit fun _ _ _ hP hok hstep => h.step hP hok hstep

end

end Kept

/-- What purging one range keeps, the loop of the shrinker keeps. -/
theorem State.shrinkLoop_keeps
    (hpurge : ∀ s a area r, P s → s.areas.get a = some area → r ∈ area.unpinnedList →
      P (s.purge a area r)) (lru : List (AreaId × RangeId)) (nrToScan : Int) (hs : P s) :
    P (s.shrinkLoop lru nrToScan) := by
  induction lru generalizing s nrToScan with
  | nil => exact hs
  | cons x lru ih =>
    obtain ⟨a, id⟩ := x
    unfold State.shrinkLoop
    split
    · exact hs
    rename_i area r hfind
    obtain ⟨area', harea, hr⟩ := bind_eq_some_iff.mp hfind
    obtain ⟨r', hr', heq⟩ := map_eq_some_iff.mp hr
    cases heq
    have hp := hpurge s a area r hs harea (mem_of_find?_eq_some hr')
    dsimp only
    split
    · exact hp
    · exact ih _ hp

/-! ## The lists -/

/-- Every area meets `A`. -/
def State.Areas (A : AshmemArea → Prop) (s : State) : Prop :=
  ∀ a area, s.areas.get a = some area → A area

theorem State.Areas.set (h : s.Areas A) (ha : A area) {lru : Lru}
    {history : List Event} : ({ areas := s.areas.set a area, lru, history } : State).Areas A :=
  Heap.forall_get_set ha h

/-- What holds of an area at any time. `Q` says which spans a range may have in an
area with so many pages. -/
structure AshmemArea.Ok (Q : Nat → Nat → Nat → Prop) (area : AshmemArea) : Prop where
  spans : ∀ r ∈ area.unpinnedList, Q (pageCount area.size) r.pgstart r.pgend
  descending : Descending AshmemRange.pgstart AshmemRange.pgend area.unpinnedList
  noFile : area.file = false → area.unpinnedList = []

variable {Q : Nat → Nat → Nat → Prop}

theorem AshmemArea.Ok.listed (h : area.Ok Q) (hQ : ∀ n lo hi, Q n lo hi → Fits n lo hi) :
    Listed (pageCount area.size) area.unpinnedList :=
  ⟨fun r hr => hQ _ _ _ (h.spans r hr), h.descending⟩

theorem unpinnedPages_markPurged :
    unpinnedPages (State.markPurged id ranges) = unpinnedPages ranges := by
  ext p
  constructor
  · rintro ⟨x, hx, hp⟩
    obtain ⟨y, hy, rfl⟩ := mem_map.mp hx
    refine ⟨y, hy, ?_⟩
    split at hp <;> exact hp
  · rintro ⟨y, hy, hp⟩
    refine ⟨_, mem_map.mpr ⟨y, hy, rfl⟩, ?_⟩
    split <;> exact hp

/-- Marking a range leaves all spans as they are. -/
theorem AshmemArea.Ok.markPurged (h : area.Ok Q) (id : RangeId) :
    AshmemArea.Ok Q { area with unpinnedList := State.markPurged id area.unpinnedList } where
  spans r hr := by
    obtain ⟨x, hx, rfl⟩ := mem_map.mp hr
    split <;> exact h.spans x hx
  descending := by
    refine pairwise_map.mpr (h.descending.imp fun {x y} hxy => ?_)
    split <;> split <;> exact hxy
  noFile hfile := by
    rw [h.noFile hfile]
    rfl

/-- The lists stay in order, and their ranges keep to spans that merging and cutting
do not lead out of. -/
theorem areas_kept (hfits : ∀ n lo hi, Q n lo hi → Fits n lo hi) (hmerge : ∀ n, MergeClosed (Q n))
    (hpiece : ∀ n lo hi r r', Fits n lo hi → Piece lo hi r r' → Q n r.pgstart r.pgend →
      Q n r'.pgstart r'.pgend) (hunpin : ∀ s a area pin alloc lo hi, s.areas.get a = some area →
      AshmemPin.pages pin area.size = some (lo, hi) → ok s (.pinUnpin a .unpin pin true alloc) →
      Q (pageCount area.size) lo hi) : Kept ok (State.Areas (AshmemArea.Ok Q)) where
  openFile s hs := Heap.forall_get_alloc ⟨by simp, descending_nil, fun _ => rfl⟩ hs
  release s a area hs _ b area' hb := hs b area' (Heap.get_free_eq_some.mp hb).2
  setSize s a area size hs harea hfile := by
    have hnil := (hs a area harea).noFile hfile
    refine hs.set ?_
    exact ⟨by simp [hnil], (hs a area harea).descending, fun _ => hnil⟩
  mmap s a area hs harea := by
    refine hs.set ?_
    exact ⟨(hs a area harea).spans, (hs a area harea).descending, fun h => by cases h⟩
  pin s a area pin alloc lo hi hs harea hfile hpages _ := by
    have harea := hs a area harea
    have hpin := ashmemPin_spec hpages (harea.listed hfits) a alloc s.lru
    refine hs.set ⟨fun r' hr' => ?_, hpin.descending, fun h => by simp [hfile] at h⟩
    obtain ⟨r, hr, hr'⟩ := hpin.pieces r' hr'
    exact hpiece _ _ _ _ _ (AshmemPin.fits_of_pages hpages) hr' (harea.spans r hr)
  unpin s a area pin alloc lo hi hs harea hfile hpages hok := by
    have hreq := hunpin s a area pin alloc lo hi harea hpages hok
    have harea := hs a area harea
    have hun := ashmemUnpin_spec hpages (harea.listed hfits) a alloc s.lru
    refine hs.set ⟨hun.spans _ (hmerge _) hreq harea.spans, hun.descending, fun h => ?_⟩
    simp [hfile] at h
  shrink s nrToScan hs := by
    refine State.shrinkLoop_keeps (fun s a area r hs harea _ => ?_) _ _ hs
    exact hs.set ((hs a area harea).markPurged _)

theorem areasOk_kept (ok : State → Op → Prop) : Kept ok (State.Areas (AshmemArea.Ok Fits)) := by
  refine areas_kept (fun _ _ _ h => h) (fun _ => mergeClosed_fits) ?_ ?_
  · intro n lo hi r r' hreq hr' hr
    exact hr'.fits hreq hr
  · intro s a area pin alloc lo hi _ hpages _
    exact AshmemPin.fits_of_pages hpages

/-- At the start there is no area. -/
theorem State.Areas.init : State.init.Areas A := by
  intro a area h
  cases h

/-- In every state reached the list of each area is in order. -/
theorem areasOk_reached (hs : Reached State.step ok State.init s) : s.Areas (AshmemArea.Ok Fits) :=
  (areasOk_kept ok).reached .init hs

/-- Nobody unpins the nothing behind the last page. -/
def NoEmptyUnpin (s : State) : Op → Prop
  | .pinUnpin a .unpin pin _ _ => ∀ area, s.areas.get a = some area → ¬ pin.NothingOnward area.size
  | _ => True

instance decidableNoEmptyUnpin (s : State) : DecidablePred (NoEmptyUnpin s)
  | .pinUnpin a .unpin .. => inferInstanceAs (Decidable (∀ area ∈ s.areas.get a, ¬ _))
  | .pinUnpin _ .pin .. | .pinUnpin _ .getPinStatus .. | .openFile _ | .release _ | .setSize ..
  | .mmap .. | .purgeAllCaches _ | .shrink .. => instDecidableTrue

/-- Then no range is empty. -/
theorem areasProper_reached (hs : Reached State.step NoEmptyUnpin State.init s) :
    s.Areas (AshmemArea.Ok Proper) := by
  refine Kept.reached (areas_kept (fun _ _ _ h => h.fits) (fun _ => mergeClosed_proper) ?_ ?_)
    .init hs
  · intro n lo hi r r' _ hr' hr
    exact hr'.proper hr
  · intro s a area pin alloc lo hi harea hpages hne
    exact AshmemPin.proper_of_pages hpages (hne area harea)

/-! ## The pages of an area -/

/-- The unpinned pages of an area. -/
def State.unpinned (s : State) (a : AreaId) : Set Nat :=
  { p | ∃ area, s.areas.get a = some area ∧ p ∈ unpinnedPages area.unpinnedList }

theorem State.unpinned_eq (h : s.areas.get a = some area) :
    s.unpinned a = unpinnedPages area.unpinnedList := by
  ext p
  simp [State.unpinned, h]

/-- A request on one area changes no other. -/
theorem State.unpinned_update (h : s.areas.get a = some area) (b : AreaId)
    (ranges : List AshmemRange) (lru : Lru) (history : List Event) :
    ({ s.update a area ranges lru with history } : State).unpinned b =
      if b = a then unpinnedPages ranges else s.unpinned b := by
  split
  next hb =>
    subst hb
    ext p
    simp [State.unpinned, State.update, Heap.get_set_self h]
  next hb =>
    ext p
    simp [State.unpinned, State.update, hb]

/-- The shrinker unpins nothing and pins nothing. -/
theorem State.unpinned_ashmemShrink (nrToScan : Int) (fs : Bool) :
    (s.ashmemShrink nrToScan fs).1.unpinned a = s.unpinned a := by
  unfold State.ashmemShrink
  split
  · rfl
  split
  · rfl
  refine State.shrinkLoop_keeps (P := fun s' => s'.unpinned a = s.unpinned a)
    (fun s' b area r hs' harea _ => ?_) _ _ rfl
  rw [← hs']
  refine (State.unpinned_update harea a _ _ _).trans ?_
  split
  next hab =>
    subst hab
    rw [unpinnedPages_markPurged, State.unpinned_eq harea]
  · rfl

/-- A request that passes the checks is served. -/
theorem State.call_pinUnpin (harea : s.areas.get a = some area) (hfile : area.file = true)
    (hpages : pin.pages area.size = some (lo, hi)) (cmd : PinCommand) (alloc : Bool) :
    s.call (.pinUnpin a cmd pin true alloc) = some (match cmd with
      | .pin => s.pinPages a area alloc lo hi
      | .unpin => s.unpinPages a area alloc lo hi
      | .getPinStatus => (s, if ashmemGetPinStatus lo hi area.unpinnedList then ashmemIsUnpinned
          else ashmemIsPinned)) := by
  cases cmd <;> simp [State.call, State.ashmemPinUnpin, harea, hfile, hpages]

section

variable (hok : area.Ok Fits) (harea : s.areas.get a = some area)
  (hpages : pin.pages area.size = some (lo, hi)) (b : AreaId)

include hok harea hpages

theorem State.unpinned_pinPages : (s.pinPages a area true lo hi).1.unpinned b =
      if b = a then s.unpinned a \ Set.Icc lo hi else s.unpinned b := by
  have hpin := ashmemPin_spec hpages
    (hok.listed fun _ _ _ h => h) a true s.lru
  have hset : unpinnedPages (ashmemPin a true lo hi area.unpinnedList s.lru).1 =
      unpinnedPages area.unpinnedList \ Set.Icc lo hi := by
    ext p
    rw [unpinnedPages_eq, unpinnedPages_eq, hpin.pages rfl]
    simp
  rw [State.pinPages_eq, State.unpinned_update harea, State.unpinned_eq harea, hset]

theorem State.unpinned_unpinPages : (s.unpinPages a area true lo hi).1.unpinned b =
      if b = a then s.unpinned a ∪ Set.Icc lo hi else s.unpinned b := by
  have hunpin := ashmemUnpin_spec hpages
    (hok.listed fun _ _ _ h => h) a true s.lru
  have hupdate := State.unpinned_update harea b
    (ashmemUnpin a true lo hi area.unpinnedList s.lru).1
    (ashmemUnpin a true lo hi area.unpinnedList s.lru).2.1 s.history
  rw [State.unpinned_eq harea, ← hunpin.pages rfl]
  exact hupdate

end

/-- The driver refines a set of unpinned pages for each area, as long as nobody
unpins the nothing behind the last page. -/
theorem unpinned_refines_set (hs : Reached State.step NoEmptyUnpin State.init s)
    (harea : s.areas.get a = some area) (hfile : area.file = true)
    (hpages : pin.pages area.size = some (lo, hi)) :
    (∃ res, s.call (.pinUnpin a .pin pin true true) = some res ∧
      res.1.unpinned a = s.unpinned a \ Set.Icc lo hi ∧ ∀ b ≠ a, res.1.unpinned b = s.unpinned b) ∧
    (∃ res, s.call (.pinUnpin a .unpin pin true true) = some res ∧
      res.1.unpinned a = s.unpinned a ∪ Set.Icc lo hi ∧ ∀ b ≠ a, res.1.unpinned b = s.unpinned b) ∧
    (∃ res, s.call (.pinUnpin a .getPinStatus pin true true) = some res ∧ res.1 = s ∧
      (res.2 = ashmemIsUnpinned ↔ (Set.Icc lo hi ∩ s.unpinned a).Nonempty)) ∧
    ∀ nrToScan fs, ∃ res, s.call (.shrink nrToScan fs) = some res ∧
      ∀ b, res.1.unpinned b = s.unpinned b := by
  have hok := areasOk_reached hs a area harea
  have hproper := areasProper_reached hs a area harea
  refine ⟨⟨_, State.call_pinUnpin harea hfile hpages .pin true, ?_, fun b hb => ?_⟩,
    ⟨_, State.call_pinUnpin harea hfile hpages .unpin true, ?_, fun b hb => ?_⟩,
    ⟨_, State.call_pinUnpin harea hfile hpages .getPinStatus true, rfl, ?_⟩,
    fun nrToScan fs => ⟨_, rfl, fun b => State.unpinned_ashmemShrink nrToScan fs⟩⟩
  · exact (State.unpinned_pinPages hok harea hpages a).trans (if_pos rfl)
  · exact (State.unpinned_pinPages hok harea hpages b).trans (if_neg hb)
  · exact (State.unpinned_unpinPages hok harea hpages a).trans (if_pos rfl)
  · exact (State.unpinned_unpinPages hok harea hpages b).trans (if_neg hb)
  · rw [State.unpinned_eq harea, ← ashmemGetPinStatus_iff (AshmemPin.onward_of_pages hpages)
      (hok.listed fun _ _ _ h => h) hproper.spans]
    split <;> simp_all [ashmemIsUnpinned, ashmemIsPinned]

theorem pages_onePage : AshmemPin.pages ⟨0, 4096⟩ 4096 = some (0, 0) := by decide

/-- Requests on an area of eight pages: two ranges are merged, another is unpinned, a request that
pins their middle splits the merged one, and its lower part is purged. -/
def severalRequests : List Op :=
  [.openFile true, .setSize 0 32768, .mmap 0 true 0, .pinUnpin 0 .unpin ⟨0, 8192⟩ true true,
    .pinUnpin 0 .unpin ⟨4096, 12288⟩ true true, .pinUnpin 0 .unpin ⟨24576, 4096⟩ true true,
    .pinUnpin 0 .pin ⟨4096, 8192⟩ true true, .shrink 1 true]

/-- The area after them. -/
def severalRanges : AshmemArea where
  file := true
  size := 32768
  unpinnedList := [⟨2, 6, 6, false⟩, ⟨3, 3, 3, false⟩, ⟨1, 0, 0, true⟩]

theorem unpinned_refines_set_severalRanges : ∃ s, Reached State.step NoEmptyUnpin State.init s ∧
    s.areas.get 0 = some severalRanges ∧
    (∃ res, s.call (.pinUnpin 0 .pin ⟨8192, 20480⟩ true true) = some res ∧
      res.1.unpinned 0 = s.unpinned 0 \ Set.Icc 2 6) ∧
    (∃ res, s.call (.pinUnpin 0 .unpin ⟨8192, 20480⟩ true true) = some res ∧
      res.1.unpinned 0 = s.unpinned 0 ∪ Set.Icc 2 6) ∧
    ∃ res, s.call (.pinUnpin 0 .getPinStatus ⟨8192, 20480⟩ true true) = some res ∧
      (res.2 = ashmemIsUnpinned ↔ (Set.Icc 2 6 ∩ s.unpinned 0).Nonempty) := by
  obtain ⟨s, hs, harea⟩ : ∃ s, Reached State.step NoEmptyUnpin State.init s ∧
      s.areas.get 0 = some severalRanges :=
    Reached.exists_of_checked severalRequests (by decide +kernel)
  have hpages : AshmemPin.pages ⟨8192, 20480⟩ severalRanges.size = some (2, 6) := by decide
  obtain ⟨⟨res, hpin, hres, -⟩, ⟨res', hunpin, hres', -⟩, ⟨res'', hstatus, -, hres''⟩, -⟩ :=
    unpinned_refines_set hs harea rfl hpages
  exact ⟨s, hs, harea, ⟨res, hpin, hres⟩, ⟨res', hunpin, hres'⟩, res'', hstatus, hres''⟩

/-- Unpinning from the end of an area onward leaves an empty range on the list. -/
theorem reached_emptyRange : ∃ s, Reached State.step (fun _ _ => True) State.init s ∧
    s.areas.get 0 = some { file := true, size := 4096, unpinnedList := [⟨0, 1, 0, false⟩] } :=
  Reached.exists_of_checked [.openFile true, .setSize 0 4096, .mmap 0 true 0,
    .pinUnpin 0 .unpin ⟨4096, 0⟩ true true] (by decide +kernel)

/-- The empty range makes a pinned page look unpinned. -/
theorem getPinStatus_emptyRange : ∃ s, Reached State.step (fun _ _ => True) State.init s ∧
    (∃ area, s.areas.get 0 = some area ∧ area.file = true ∧
      AshmemPin.pages ⟨0, 4096⟩ area.size = some (0, 0)) ∧
    (s.call (.pinUnpin 0 .getPinStatus ⟨0, 4096⟩ true true)).map Prod.snd = some ashmemIsUnpinned ∧
    ¬ (Set.Icc 0 0 ∩ s.unpinned 0).Nonempty := by
  obtain ⟨s, hs, harea⟩ := reached_emptyRange
  refine ⟨s, hs, ⟨_, harea, rfl, pages_onePage⟩, ?_, ?_⟩
  · rw [State.call_pinUnpin harea rfl pages_onePage]
    rfl
  · rintro ⟨p, -, hp⟩
    rw [State.unpinned_eq harea, unpinnedPages_eq, mem_pagesOf_cons] at hp
    rcases hp with ⟨-, h1, h0⟩ | hp
    · cases le_trans h1 h0
    · exact not_mem_pagesOf_nil hp

/-- As long as nobody unpins the nothing behind the last page, the ranges of an
area are not empty, lie inside the area and decrease along the list. -/
theorem ranges_proper_descending (hs : Reached State.step NoEmptyUnpin State.init s)
    (harea : s.areas.get a = some area) :
    (∀ r ∈ area.unpinnedList, r.pgstart ≤ r.pgend ∧ r.pgend < pageAlign area.size / pageSize) ∧
    area.unpinnedList.Pairwise (fun r r' => r'.pgend < r.pgstart) ∧
    area.unpinnedList.Pairwise fun r r' =>
      Disjoint (Set.Icc r.pgstart r.pgend) (Set.Icc r'.pgstart r'.pgend) := by
  have hok := areasProper_reached hs a area harea
  refine ⟨hok.spans, hok.descending, hok.descending.imp fun {r r'} hlt => ?_⟩
  rw [Set.disjoint_left]
  rintro p ⟨hle, -⟩ ⟨-, hge⟩
  omega

theorem ranges_proper_descending_severalRanges : ∃ s,
    Reached State.step NoEmptyUnpin State.init s ∧ s.areas.get 0 = some severalRanges ∧
    (∀ r ∈ severalRanges.unpinnedList, r.pgstart ≤ r.pgend ∧
      r.pgend < pageAlign severalRanges.size / pageSize) ∧
    severalRanges.unpinnedList.Pairwise fun r r' => r'.pgend < r.pgstart :=
  (Reached.exists_of_checked_and severalRequests (by decide +kernel) fun _ hs harea =>
    (ranges_proper_descending hs harea).imp_right And.left)

theorem unpin_leaves_emptyRange : ∃ s area r, Reached State.step (fun _ _ => True) State.init s ∧
    s.areas.get 0 = some area ∧ area.file = true ∧ r ∈ area.unpinnedList ∧ r.pgend < r.pgstart := by
  obtain ⟨s, hs, harea⟩ := reached_emptyRange
  exact ⟨s, _, ⟨0, 1, 0, false⟩, hs, harea, rfl, by simp, by decide⟩

end AndroidKernel.Ashmem
