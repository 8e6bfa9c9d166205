import AndroidKernel.Ashmem.Areas

/-!
# Purge reporting

A page that the shrinker truncated lies in a range with the flag set until it is
pinned again (`flagged_kept`). The flag belongs to ranges, not to pages, and lives
through cutting, splitting and merging; so the request that pins the page reports
the purge. The history of a run says which pages were truncated and pinned.
-/

namespace AndroidKernel.Ashmem

open List

variable {s : State} {a b : AreaId} {area : AshmemArea} {pin : AshmemPin} {lo hi n p : Nat}
  {r : AshmemRange} {e : Event} {history : List Event}

/-! ## What happened to a page -/

/-- All bytes of the page were truncated. -/
def Event.Truncates (a : AreaId) (p : Nat) : Event → Prop
  | .truncated b start fin => b = a ∧ start ≤ p * pageSize ∧ p * pageSize + (pageSize - 1) ≤ fin
  | .pinned .. => False

/-- The page was among those pinned. -/
def Event.Pins (a : AreaId) (p : Nat) : Event → Prop
  | .truncated .. => False
  | .pinned b pgstart pgend => b = a ∧ pgstart ≤ p ∧ p ≤ pgend

/-- The page was truncated after it was last pinned. -/
def TruncatedSincePinned (a : AreaId) (p : Nat) (history : List Event) : Prop :=
  ∃ old e new, history = old ++ e :: new ∧ e.Truncates a p ∧ ∀ e' ∈ new, ¬ e'.Pins a p

@[simp] theorem not_truncatedSincePinned_nil : ¬ TruncatedSincePinned a p [] := by
  rintro ⟨old, e, new, h, -⟩
  cases old <;> cases h

/-- One more event. -/
theorem truncatedSincePinned_append : TruncatedSincePinned a p (history ++ [e]) ↔
    e.Truncates a p ∨ (TruncatedSincePinned a p history ∧ ¬ e.Pins a p) := by
  constructor
  · rintro ⟨old, e', new, heq, htrunc, hnew⟩
    -- the truncation is the last event, or the last event came after it
    rcases eq_nil_or_concat new with rfl | ⟨new', e'', rfl⟩
    · obtain ⟨-, rfl⟩ := append_inj' heq rfl |>.imp_right singleton_inj.mp
      exact .inl htrunc
    · rw [concat_eq_append, ← cons_append, ← append_assoc] at heq
      obtain ⟨rfl, h⟩ := append_inj' heq rfl
      cases h
      refine .inr ⟨⟨old, e', new', rfl, htrunc, fun x hx => hnew x ?_⟩, hnew e ?_⟩ <;> simp [*]
  · rintro (htrunc | ⟨⟨old, e', new, rfl, htrunc, hnew⟩, hpins⟩)
    · exact ⟨history, e, [], rfl, htrunc, by simp⟩
    · refine ⟨old, e', new ++ [e], by simp, htrunc, fun x hx => ?_⟩
      rcases mem_append.mp hx with hx | hx
      · exact hnew x hx
      · exact mem_singleton.mp hx ▸ hpins

/-! ## Marking -/

/-- The bytes that the shrinker truncates are those of the range's pages. -/
theorem page_of_truncated (hfits : Fits n r.pgstart r.pgend) (hn : n < 2 ^ 20)
    (hp : (Event.truncated b (ulong (r.pgstart * pageSize))
      (ulong (((r.pgend : Int) + 1) * pageSize - 1))).Truncates a p) :
    b = a ∧ r.pgstart ≤ p ∧ p ≤ r.pgend := by
  obtain ⟨rfl, hstart, hend⟩ := hp
  unfold Fits at hfits
  simp only [pageSize, ulong] at hstart hend
  refine ⟨rfl, ?_⟩
  omega

/-! ## Runs -/

/-- There is memory for the ranges of this area. -/
def RangesAllocated (a : AreaId) (_ : State) : Op → Prop
  | .pinUnpin b _ _ _ alloc => b = a → alloc = true
  | _ => True

instance decidableRangesAllocated (a : AreaId) (s : State) : DecidablePred (RangesAllocated a s)
  | .pinUnpin .. => inferInstanceAs (Decidable (_ → _))
  | .openFile _ | .release _ | .setSize .. | .mmap .. | .purgeAllCaches _ | .shrink .. =>
    instDecidableTrue

/-- The truncated pages of an area have the flag, and only areas that exist have
truncated pages. -/
structure State.Flagged (a : AreaId) (s : State) : Prop where
  old : ∀ p, TruncatedSincePinned a p s.history → a < s.areas.next
  flagged : ∀ area, s.areas.get a = some area → ∀ p, TruncatedSincePinned a p s.history →
    p ∈ pagesOf id area.unpinnedList
  areas : s.Areas (AshmemArea.Ok Fits)

/-- A change to an area, and maybe an event about that area. -/
theorem State.Flagged.update {area' : AshmemArea} {lru : Lru} (h : s.Flagged a)
    (harea : s.areas.get b = some area)
    (hother : a ≠ b → ∀ p, TruncatedSincePinned a p history → TruncatedSincePinned a p s.history)
    (hself : a = b → ∀ p, TruncatedSincePinned a p history → p ∈ pagesOf id area'.unpinnedList)
    (hareas : (State.mk (s.areas.set b area') lru history).Areas (AshmemArea.Ok Fits)) :
    State.Flagged a ⟨s.areas.set b area', lru, history⟩ where
  old p hp := by
    show a < s.areas.next
    by_cases hab : a = b
    · exact hab ▸ Heap.lt_next_of_get harea
    · exact h.old p (hother hab p hp)
  flagged area' harea' p hp := by
    rcases Heap.get_set_eq_some.mp harea' with ⟨hab, rfl, -⟩ | ⟨hab, harea'⟩
    · exact hself hab p hp
    · exact h.flagged area' harea' p (hother hab p hp)
  areas := hareas

theorem flagged_kept (a : AreaId) : Kept (RangesAllocated a) (State.Flagged a) where
  openFile s h := by
    refine ⟨fun p hp => Nat.lt_succ_of_lt (h.old p hp), fun area harea p hp => ?_,
      (areasOk_kept (RangesAllocated a)).openFile s h.areas⟩
    rcases Heap.get_alloc_eq_some.mp harea with ⟨rfl, -⟩ | ⟨-, harea⟩
    · exact absurd (h.old p hp) (Nat.lt_irrefl _)
    · exact h.flagged area harea p hp
  release s b area h harea := by
    refine ⟨h.old, fun area' harea' p hp => ?_,
      (areasOk_kept (RangesAllocated a)).release s b area h.areas harea⟩
    exact h.flagged area' (Heap.get_free_eq_some.mp harea').2 p hp
  setSize s b area size h harea hfile :=
    h.update harea (fun _ _ hp => hp) (fun hab => h.flagged area (hab ▸ harea))
      ((areasOk_kept (RangesAllocated a)).setSize s b area size h.areas harea hfile)
  mmap s b area h harea :=
    h.update harea (fun _ _ hp => hp) (fun hab => h.flagged area (hab ▸ harea))
      ((areasOk_kept (RangesAllocated a)).mmap s b area h.areas harea)
  pin s b area pin alloc lo hi h harea hfile hpages hok := by
    have hareas := (areasOk_kept (RangesAllocated a)).pin s b area pin alloc lo hi h.areas harea
      hfile hpages hok
    have hpin := ashmemPin_spec hpages
      ((h.areas b area harea).listed fun _ _ _ h => h) b alloc s.lru
    refine h.update harea (fun hab p hp => ?_) (fun hab p hp => ?_) hareas
    · rcases truncatedSincePinned_append.mp hp with htrunc | ⟨hp, -⟩
      · exact htrunc.elim
      · exact hp
    · -- pages outside the request keep their flag
      subst hab
      rcases truncatedSincePinned_append.mp hp with htrunc | ⟨hp, hpins⟩
      · exact htrunc.elim
      · refine (hpin.pages (hok rfl) id p).mpr ⟨h.flagged area harea p hp, fun hspan => ?_⟩
        exact hpins ⟨rfl, hspan⟩
  unpin s b area pin alloc lo hi h harea hfile hpages hok := by
    have hareas := (areasOk_kept (RangesAllocated a)).unpin s b area pin alloc lo hi h.areas harea
      hfile hpages hok
    have hunpin := ashmemUnpin_spec hpages
      ((h.areas b area harea).listed fun _ _ _ h => h) b alloc s.lru
    refine h.update harea (fun _ p hp => hp) (fun hab p hp => ?_) hareas
    subst hab
    exact hunpin.flagged (hok rfl) (.inl (h.flagged area harea p hp))
  shrink s nrToScan h := by
    refine State.shrinkLoop_keeps (fun s b area r h harea hr => ?_) _ _ h
    have hok := h.areas b area harea
    have hpage := fun p => page_of_truncated (a := a) (b := b) (p := p) (hok.spans r hr)
      (pageCount_lt area.size)
    refine h.update harea (fun hab p hp => ?_) (fun hab p hp => ?_) (h.areas.set (hok.markPurged _))
    · rcases truncatedSincePinned_append.mp hp with htrunc | ⟨hp, -⟩
      · exact absurd (hpage p htrunc).1.symm hab
      · exact hp
    · subst hab
      rcases truncatedSincePinned_append.mp hp with htrunc | ⟨hp, -⟩
      · refine mem_pagesOf.mpr ⟨_, mem_map.mpr ⟨r, hr, rfl⟩, ?_⟩
        rw [if_pos rfl]
        exact ⟨rfl, (hpage p htrunc).2⟩
      · -- Marking a range takes the flag from no page.
        obtain ⟨r', hr', hflag, hspan⟩ := mem_pagesOf.mp (h.flagged area harea p hp)
        refine mem_pagesOf.mpr ⟨_, mem_map.mpr ⟨r', hr', rfl⟩, ?_⟩
        split
        · exact ⟨rfl, hspan⟩
        · exact ⟨hflag, hspan⟩

/-- If a page was truncated since it was last pinned, then the next request that
pins it reports the purge. -/
theorem pin_reports_purge (hs : Reached State.step (RangesAllocated a) State.init s)
    (hp : TruncatedSincePinned a p s.history) (harea : s.areas.get a = some area)
    (hfile : area.file = true) (hpages : pin.pages area.size = some (lo, hi))
    (hspan : lo ≤ p ∧ p ≤ hi) (alloc : Bool) :
    ∃ res, s.call (.pinUnpin a .pin pin true alloc) = some res ∧ res.2 = ashmemWasPurged := by
  have h : s.Flagged a := (flagged_kept a).reached
    ⟨fun p hp => absurd hp not_truncatedSincePinned_nil, (fun area h => nomatch h), .init⟩ hs
  have hpin := ashmemPin_spec hpages
    ((h.areas a area harea).listed fun _ _ _ h => h) a alloc s.lru
  refine ⟨_, State.call_pinUnpin harea hfile hpages .pin alloc, ?_⟩
  exact if_pos (hpin.reported p (h.flagged area harea p hp) hspan.1 hspan.2)

theorem pin_reports_purge_onePage : ∃ s, Reached State.step (RangesAllocated 0) State.init s ∧
    TruncatedSincePinned 0 0 s.history ∧
    ∃ res, s.call (.pinUnpin 0 .pin ⟨0, 4096⟩ true true) = some res ∧ res.2 = ashmemWasPurged := by
  obtain ⟨s, hs, hhistory, harea⟩ : ∃ s, Reached State.step (RangesAllocated 0) State.init s ∧
      s.history = [] ++ [.truncated 0 0 4095] ∧
      s.areas.get 0 = some ⟨true, 4096, [⟨0, 0, 0, true⟩]⟩ :=
    Reached.exists_of_checked [.openFile true, .setSize 0 4096, .mmap 0 true 0,
      .pinUnpin 0 .unpin ⟨0, 4096⟩ true true, .shrink 1 true] (by decide +kernel)
  have hp : TruncatedSincePinned 0 0 s.history :=
    hhistory ▸ truncatedSincePinned_append.mpr (.inl ⟨rfl, by decide, by decide⟩)
  exact ⟨s, hs, hp, pin_reports_purge hs hp harea rfl pages_onePage ⟨le_rfl, le_rfl⟩ true⟩

end AndroidKernel.Ashmem
