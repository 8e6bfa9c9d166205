import AndroidKernel.Lib.Runs
import AndroidKernel.Timer.Cascade

/-!
# When timers run

The timers of the wheel keep to the agenda: a timer is run in the iteration that the agenda has for
it, and no iteration ends before all its timers have been run or taken out. This is so for
every sequence of calls, whenever they come, and for all values of `expires` and `jiffies`.

That an iteration ends is up to the functions of the timers. But the work list only gets shorter
until then, and with each call of a function it does.
-/

namespace AndroidKernel.Timer

open Function List Option

namespace State

variable {s s' : State} {a : Agenda} {timer u n now i : Nat} {due : Option Nat} {op : Op}

/-! ## One timer -/

/-- What the agenda has for a timer is so. -/
structure Booked (s : State) (now u : Nat) (due : Option Nat) : Prop where
  pending : (s.timers u).pending = due.isSome
  work : u ∈ s.workList → ∃ n, due = some n ∧ now = n + 1
  vec : ∀ tv i, u ∈ s.base.vec tv i → ∃ n, due = some n ∧ tv.Placed now i n ∧
    tv.Tells now n (s.timers u).expires
  held : due ≠ none → u ∈ s.workList ∨ s.base.Holds u

/-- A timer is as it was: it is not the one that the call is about. -/
structure SameFor (s s' : State) (u : Nat) : Prop where
  timer : s'.timers u = s.timers u
  work : u ∈ s'.workList ↔ u ∈ s.workList
  vec : ∀ tv i, u ∈ s'.base.vec tv i ↔ u ∈ s.base.vec tv i

theorem SameFor.trans {s'' : State} (h : SameFor s s' u) (h' : SameFor s' s'' u) :
    SameFor s s'' u where
  timer := h'.timer.trans h.timer
  work := h'.work.trans h.work
  vec tv i := (h'.vec tv i).trans (h.vec tv i)

theorem Booked.same (h : Booked s now u due) (hsame : SameFor s s' u) : Booked s' now u due where
  pending := by rw [hsame.timer, h.pending]
  work hu := h.work (hsame.work.mp hu)
  vec tv i hu := by
    rw [hsame.timer]
    exact h.vec tv i ((hsame.vec tv i).mp hu)
  held hd := by
    refine (h.held hd).imp hsame.work.mpr ?_
    rintro ⟨tv, i, hu⟩
    exact ⟨tv, i, (hsame.vec tv i).mpr hu⟩

/-- The timer is in no list. -/
structure Absent (s : State) (timer : Nat) : Prop where
  work : timer ∉ s.workList
  vec : ∀ tv i, timer ∉ s.base.vec tv i

theorem Booked.absent (h : Booked s now u none) : Absent s u where
  work hu := by
    obtain ⟨n, hn, -⟩ := h.work hu
    cases hn
  vec tv i hu := by
    obtain ⟨n, hn, -⟩ := h.vec tv i hu
    cases hn

theorem Absent.booked (h : Absent s u) (hpending : (s.timers u).pending = false) (now : Nat) :
    Booked s now u none where
  pending := hpending
  work hu := absurd hu h.work
  vec tv i hu := absurd hu (h.vec tv i)
  held hd := absurd rfl hd

/-! ## Taking out and adding -/

section

variable (s : State)

theorem sameFor_detachTimer {clear : Bool} (hu : u ≠ timer) :
    SameFor s (s.detachTimer timer clear) u where
  timer := update_of_ne hu ..
  work := by
    show u ∈ s.workList.filter _ ↔ _
    rw [mem_filter, and_iff_left (decide_eq_true hu)]
  vec tv i := by
    show u ∈ (s.base.unlink timer).vec tv i ↔ _
    rw [TvecBase.mem_unlink, and_iff_left hu]

theorem absent_detachTimer (timer : Nat) (clear : Bool) :
    Absent (s.detachTimer timer clear) timer where
  work hu := of_decide_eq_true (mem_filter.mp hu).2 rfl
  vec _ _ hu := (TvecBase.mem_unlink.mp hu).2 rfl

theorem pending_detachTimer (timer : Nat) :
    ((s.detachTimer timer true).timers timer).pending = false := by
  show (update s.timers timer _ timer).pending = false
  rw [update_self, Bool.not_true, Bool.and_false]

/-- Only `next_timer` may be set. -/
theorem forgetNext_same (timer : Nat) : (∀ u, SameFor s (s.forgetNext timer) u) ∧
    (s.forgetNext timer).base.timerJiffies = s.base.timerJiffies := by
  unfold forgetNext
  split <;> exact ⟨fun _ => ⟨rfl, .rfl, fun _ _ => .rfl⟩, rfl⟩

end

theorem workList_forgetNext (s : State) (timer : Nat) :
    (s.forgetNext timer).workList = s.workList := by
  unfold forgetNext
  split <;> rfl

theorem Absent.forgetNext (h : Absent s timer) : Absent (s.forgetNext timer) timer where
  work hu := h.work (((s.forgetNext_same timer).1 timer).work.mp hu)
  vec tv i hu := h.vec tv i ((((s.forgetNext_same timer).1 timer).vec tv i).mp hu)

section

variable (s : State)

/-- A timer is added, and `next_timer` may be set. -/
structure Adds (timer expires : Nat) (s' : State) : Prop where
  timers : s'.timers =
    update s.timers timer { s.timers timer with pending := true, expires := expires }
  work : s'.workList = s.workList
  mem : ∀ {u tv i}, u ∈ s'.base.vec tv i ↔
    u ∈ s.base.vec tv i ∨ (tv, i) = TvecBase.bucket s.base.timerJiffies expires ∧ u = timer
  jiffies : s'.base.timerJiffies = s.base.timerJiffies

theorem adds (timer expires : Nat) : s.Adds timer expires (s.addTimerAt timer expires) := by
  unfold addTimerAt
  simp only
  split <;> exact ⟨rfl, rfl, TvecBase.mem_addTail, rfl⟩

theorem sameFor_addTimerAt (expires : Nat) (hu : u ≠ timer) :
    SameFor s (s.addTimerAt timer expires) u where
  timer := by rw [(s.adds ..).timers, update_of_ne hu]
  work := by rw [(s.adds ..).work]
  vec tv i := by rw [(s.adds ..).mem, or_iff_left fun h => hu h.2]

end

/-- A timer that was in no list is in the bucket that was selected for it. -/
theorem booked_addTimerAt {expires : Nat} (hj : s.base.timerJiffies = now % 2 ^ 32)
    (habsent : Absent s timer) (hexpires : expires < 2 ^ 32) :
    Booked (s.addTimerAt timer expires) now timer (some (dueAt now expires)) where
  pending := by rw [(s.adds ..).timers, update_self]; rfl
  work hu := absurd ((s.adds timer expires).work ▸ hu) habsent.work
  vec tv i hu := by
    have hplace := ((s.adds timer expires).mem.mp hu).resolve_left (habsent.vec tv i)
    rw [hj] at hplace
    have htells := tells_dueAt now hexpires
    have hplaced := placed_bucket htells (le_dueAt now expires) hplace.1.symm
    rw [(s.adds ..).timers, update_self]
    exact ⟨_, rfl, hplaced.1, htells, hplaced.2.imp_right And.right⟩
  held _ := .inr ⟨_, _, (s.adds timer expires).mem.mpr (.inr ⟨rfl, rfl⟩)⟩

/-! ## The wheel and the agenda -/

/-- The wheel keeps to the agenda, apart from some timers. -/
structure KeptBut (s : State) (a : Agenda) (but : Nat → Prop) : Prop where
  jiffies : s.base.timerJiffies = a.now % 2 ^ 32
  booked : ∀ u, ¬but u → Booked s a.now u (a.due u)
  expires : ∀ u, ¬but u → a.due u ≠ none → (s.timers u).expires = a.expires u

/-- The wheel keeps to the agenda. -/
abbrev Kept (s : State) (a : Agenda) : Prop := KeptBut s a fun _ => False

theorem Kept.but (h : Kept s a) (hj : s'.base.timerJiffies = s.base.timerJiffies)
    (hsame : ∀ u ≠ timer, SameFor s s' u) : KeptBut s' a (· = timer) where
  jiffies := hj.trans h.jiffies
  booked u hu := (h.booked u id).same (hsame u hu)
  expires u hu hdue := by rw [(hsame u hu).timer, h.expires u id hdue]

/-- A timer that is in no list is added; the others are as the agenda has them. -/
theorem KeptBut.add {expires : Nat} (h : KeptBut s a (· = timer)) (habsent : Absent s timer)
    (hexpires : expires < 2 ^ 32) : Kept (s.addTimerAt timer expires) (a.add timer expires) := by
  refine ⟨(s.adds ..).jiffies.trans h.jiffies, fun u _ => ?_, fun u _ hdue => ?_⟩
  all_goals by_cases hu : u = timer
  · subst hu
    have hdue : (a.add u expires).due u = some (dueAt a.now expires) := update_self ..
    rw [hdue]
    exact booked_addTimerAt h.jiffies habsent hexpires
  · have hdue : (a.add timer expires).due u = a.due u := update_of_ne hu ..
    rw [hdue]
    exact (h.booked u hu).same (sameFor_addTimerAt s expires hu)
  · subst hu
    rw [(s.adds ..).timers, update_self]
    show expires = update a.expires u expires u
    rw [update_self]
  · have hdue' : (a.add timer expires).due u = a.due u := update_of_ne hu ..
    have hexpires' : (a.add timer expires).expires u = a.expires u := update_of_ne hu ..
    rw [hdue'] at hdue
    rw [(sameFor_addTimerAt s expires hu).timer, hexpires', h.expires u hu hdue]

/-- A timer has been taken out; the others are as the agenda has them. -/
theorem KeptBut.remove (h : KeptBut s a (· = timer)) (habsent : Absent s timer)
    (hpending : (s.timers timer).pending = false) :
    Kept s { a with due := update a.due timer none } := by
  refine ⟨h.jiffies, fun u _ => ?_, fun u _ hdue => ?_⟩
  all_goals by_cases hu : u = timer
  · subst hu
    simp only [update_self]
    exact habsent.booked hpending a.now
  · simp only [update_of_ne hu]
    exact h.booked u hu
  · subst hu
    simp only [update_self, ne_eq, not_true_eq_false] at hdue
  · simp only [update_of_ne hu] at hdue
    exact h.expires u hu hdue

/-- The timers that are in the bucket of the first vector that comes round are due now. -/
theorem due_of_index (hplaced : Level.tv1.Placed a.now i n)
    (hi : i = Wheel.slot Level.tv1.shift Level.tv1.bits a.now) : n = a.now := by
  have hslot := hplaced.slot
  have hahead := hplaced.le
  have hnear := hplaced.near
  rw [hi] at hslot
  simp only [Wheel.slot, Level.shift, Level.bits, tvrBits] at hslot hnear
  omega

section

variable (h : Kept s a)

include h

/-- The pending timers are those of the agenda. -/
theorem Kept.due_of_pending (hpending : (s.timers timer).pending = true) :
    a.due timer ≠ none := fun hnone => by
  have := (h.booked timer id).pending
  rw [hpending, hnone] at this
  cases this

theorem Kept.due_of_not_pending (hpending : (s.timers timer).pending = false) :
    a.due timer = none := by
  have := (h.booked timer id).pending
  rw [hpending] at this
  exact isSome_eq_false_iff.mp this.symm |> isNone_iff_eq_none.mp

/-- A pending timer's iteration is not over. -/
theorem Kept.not_over (hdue : a.due timer = some n) :
    a.now ≤ n ∨ a.now = n + 1 ∧ timer ∈ s.workList := by
  have hbooked := h.booked timer id
  have hsome : a.due timer ≠ none := by
    rw [hdue]
    exact nofun
  rcases hbooked.held hsome with hwork | ⟨tv, i, hvec⟩
  · obtain ⟨m, hm, hnow⟩ := hbooked.work hwork
    cases hdue.symm.trans hm
    exact .inr ⟨hnow, hwork⟩
  · obtain ⟨m, hm, hplaced, -⟩ := hbooked.vec tv i hvec
    cases hdue.symm.trans hm
    exact .inl hplaced.le

theorem Kept.filed : s.base.Filed a (fun u => (s.timers u).expires) fun _ => False := by
  intro tv i u hu
  obtain ⟨n, hdue, hplaced, htells⟩ := (h.booked u id).vec tv i hu
  exact ⟨n, hdue, hplaced, htells, False.elim⟩

/-- What is in the wheel after an iteration does not come round in it. -/
theorem Kept.ahead {tv : Level} (hu : u ∈ s.iterate.base.vec tv i) :
    ∃ n, a.due u = some n ∧ tv.Placed a.now i n ∧ tv.Tells a.now n (s.timers u).expires ∧
      a.now < Wheel.turn tv.shift n := by
  obtain ⟨hmem, hplace⟩ := TvecBase.mem_replaceInit.mp hu
  obtain ⟨n, hdue, hplaced, htells, hdone⟩ := h.filed.cascadeTimers h.jiffies tv i u hmem
  refine ⟨n, hdue, hplaced, htells, ?_⟩
  by_cases htv : tv = .tv1
  · subst htv
    refine hplaced.lt_turn_of_slot fun hi => hplace ?_
    rw [hi, TvecBase.index_eq h.jiffies]
  · exact hdone htv

/-- An iteration takes out what is due now. -/
theorem Kept.iterate (hwork : s.workList = []) (tj : Nat) :
    Kept s.iterate (a.after (.iteration tj)) := by
  have hindex := TvecBase.index_eq h.jiffies .tv1
  refine ⟨?_, fun u _ => ⟨(h.booked u id).pending, fun hu => ?_, fun tv i hu => ?_, fun hdue => ?_⟩,
    h.expires⟩
  · show ulong (((s.base.cascadeTimers fun u => (s.timers u).expires).timerJiffies : Int) + 1) =
      (a.now + 1) % 2 ^ 32
    rw [(@TvecBase.cascadeTimers_same s.base 0 _).2, h.jiffies]
    unfold ulong
    omega
  · -- The work list is the bucket that comes round.
    obtain ⟨n, hdue, hplaced, -, -⟩ := h.filed.cascadeTimers h.jiffies .tv1 _ u hu
    exact ⟨n, hdue, by rw [due_of_index hplaced hindex]; rfl⟩
  · -- What is left is still ahead.
    obtain ⟨n, hdue, hplaced, htells, hlt⟩ := h.ahead hu
    exact ⟨n, hdue, hplaced.tick hlt, htells.1.tick (hlt.trans_le (Wheel.turn_le ..)), htells.2⟩
  · -- No timer is lost.
    have hnot : u ∉ s.workList := by
      rw [hwork]
      exact not_mem_nil
    have hheld : s.base.Holds u := ((h.booked u id).held hdue).resolve_left hnot
    obtain ⟨tv, i, hmem⟩ :=
      (@TvecBase.cascadeTimers_same s.base u fun u => (s.timers u).expires).1.mpr hheld
    by_cases hplace : (tv, i) = (.tv1, s.base.index .tv1)
    · cases hplace
      exact .inl hmem
    · exact .inr ⟨tv, i, TvecBase.mem_replaceInit.mpr ⟨hmem, hplace⟩⟩

theorem Kept.modTimerCommon {expires : Nat} (timer : Nat) (hexpires : expires < 2 ^ 32)
    (pendingOnly : Bool) : Kept (s.modTimerCommon timer expires pendingOnly)
      (if a.due timer = none ∧ pendingOnly then a else a.add timer expires) := by
  unfold State.modTimerCommon
  split
  next hpending =>
    rw [if_neg fun hnot => h.due_of_pending hpending hnot.1]
    obtain ⟨hsame, hj⟩ := (s.detachTimer timer false).forgetNext_same timer
    refine KeptBut.add (h.but hj fun u hu => ?_) (absent_detachTimer s timer false).forgetNext
      hexpires
    exact (sameFor_detachTimer s hu).trans (hsame u)
  next hpending =>
    have hnone := h.due_of_not_pending (Bool.eq_false_iff.mpr hpending)
    have hbooked := h.booked timer id
    rw [hnone] at hbooked
    split
    next honly => rwa [if_pos ⟨hnone, honly⟩]
    next honly =>
      rw [if_neg fun hnot => honly hnot.2]
      exact KeptBut.add (h.but rfl fun _ _ => ⟨rfl, .rfl, fun _ _ => .rfl⟩) hbooked.absent hexpires

theorem Kept.modTimer {expires : Nat} (timer : Nat) (hexpires : expires < 2 ^ 32) (tj : Nat) :
    Kept (s.modTimer timer expires) (a.after (.modified timer expires tj false)) := by
  unfold State.modTimer
  rw [Agenda.after]
  split
  next hsame =>
    have hdue := h.due_of_pending hsame.1
    have hignores : a.Ignores timer expires false := by
      rw [Agenda.Ignores, if_neg hdue]
      exact ⟨rfl, (h.expires timer id hdue).symm.trans hsame.2⟩
    rwa [if_pos hignores]
  next hsame =>
    have hignores : ¬a.Ignores timer expires false := by
      rw [Agenda.Ignores]
      split
      next => simp
      next hdue =>
        have hpending : (s.timers timer).pending = true := by
          rw [(h.booked timer id).pending, isSome_iff_ne_none]
          exact hdue
        exact fun hsame' => hsame ⟨hpending, (h.expires timer id hdue).trans hsame'.2⟩
    have hcommon := h.modTimerCommon timer hexpires false
    rw [if_neg hignores]
    rwa [if_neg (by simp)] at hcommon

theorem Kept.delTimer (timer : Nat) : Kept (s.delTimer timer) (a.after (.deleted timer)) := by
  unfold State.delTimer
  split
  next hpending =>
    obtain ⟨hsame, hj⟩ := (s.detachTimer timer true).forgetNext_same timer
    have hbut : KeptBut ((s.detachTimer timer true).forgetNext timer) a (· = timer) :=
      h.but hj fun u hu => (sameFor_detachTimer s hu).trans (hsame u)
    refine hbut.remove (absent_detachTimer s timer true).forgetNext ?_
    rw [(hsame timer).timer]
    exact pending_detachTimer s timer
  next hpending =>
    have hnone := h.due_of_not_pending (Bool.eq_false_iff.mpr hpending)
    have heq : a.after (.deleted timer) = a := by
      rw [Agenda.after, ← hnone, update_eq_self]
    rwa [heq]

theorem Kept.fire (timer : Nat) : Kept (s.fire timer) (a.after (.ran timer)) := by
  have hbut : KeptBut (s.detachTimer timer true) a (· = timer) :=
    h.but rfl fun _ hu => sameFor_detachTimer s hu
  exact hbut.remove (absent_detachTimer s timer true) (pending_detachTimer s timer)

/-- What a step does is what the agenda has for its event, which was allowed. -/
theorem Kept.act (hs : act s op = some s') :
    Kept s' ((s.event op).elim a a.after) ∧ ∀ e ∈ s.event op, a.Allows e := by
  cases op with
  | addTimer timer expires =>
    obtain ⟨-, hs⟩ := ite_none_left_eq_some.mp hs
    cases hs
    refine ⟨h.modTimer timer (ulong_lt _) s.base.timerJiffies, ?_⟩
    rintro _ ⟨⟩
    exact ⟨ulong_lt _, h.jiffies⟩
  | modTimer timer expires =>
    cases hs
    refine ⟨h.modTimer timer (ulong_lt _) s.base.timerJiffies, ?_⟩
    rintro _ ⟨⟩
    exact ⟨ulong_lt _, h.jiffies⟩
  | modTimerPending timer expires =>
    cases hs
    have hiff : a.Ignores timer (ulong expires) true ↔ a.due timer = none ∧ true = true := by
      unfold Agenda.Ignores
      split <;> simp_all
    have hcommon := h.modTimerCommon timer (ulong_lt expires) true
    rw [← if_congr hiff rfl rfl] at hcommon
    refine ⟨hcommon, ?_⟩
    rintro _ ⟨⟩
    exact ⟨ulong_lt _, h.jiffies⟩
  | delTimer timer =>
    cases hs
    refine ⟨h.delTimer timer, ?_⟩
    rintro _ ⟨⟩
    trivial
  | iterate =>
    obtain ⟨⟨-, hwork, -⟩, rfl⟩ := ite_some_none_eq_some.mp hs
    refine ⟨h.iterate hwork s.base.timerJiffies, ?_⟩
    rintro _ ⟨⟩
    refine ⟨h.jiffies, fun timer n hdue => (h.not_over hdue).resolve_right fun hover => ?_⟩
    rw [hwork] at hover
    cases hover.2
  | fire =>
    obtain ⟨timer, hhead, rfl⟩ := map_eq_some_iff.mp hs
    have hevent : s.event .fire = some (.ran timer) := by
      rw [event, hhead]
      rfl
    rw [hevent]
    refine ⟨h.fire timer, ?_⟩
    rintro _ ⟨⟩
    exact (h.booked timer id).work (mem_of_mem_head? hhead)
  | setJiffies jiffies =>
    cases hs
    exact ⟨⟨h.jiffies, fun u hu => { h.booked u hu with }, h.expires⟩, nofun⟩
  | enter =>
    obtain ⟨-, hs⟩ := ite_none_left_eq_some.mp hs
    cases hs
    exact ⟨⟨h.jiffies, fun u hu => { h.booked u hu with }, h.expires⟩, nofun⟩
  | leave =>
    obtain ⟨-, rfl⟩ := ite_some_none_eq_some.mp hs
    exact ⟨⟨h.jiffies, fun u hu => { h.booked u hu with }, h.expires⟩, nofun⟩

end

/-! ## Runs -/

/-- The wheel keeps to the agenda of its events, and these were all allowed. -/
structure Inv (jiffies : Nat) (s : State) : Prop where
  kept : Kept s (agenda jiffies s.log)
  allowed : Allowed jiffies s.log

variable {jiffies : Nat}

theorem inv_init (jiffies : Nat) (deferrable : Nat → Bool) :
    Inv jiffies (init jiffies deferrable) where
  kept := ⟨(Nat.mod_eq_of_lt (ulong_lt jiffies)).symm,
    fun _ _ => ⟨rfl, nofun, nofun, fun hd => absurd rfl hd⟩, fun _ _ hdue => absurd rfl hdue⟩
  allowed := trivial

theorem inv_step (h : Inv jiffies s) (hs : step s op = some s') : Inv jiffies s' := by
  obtain ⟨s₁, hact, rfl⟩ := map_eq_some_iff.mp hs
  obtain ⟨hkept, hallows⟩ := h.kept.act hact
  cases hevent : s.event op with
  | none =>
    rw [hevent] at hkept
    exact ⟨⟨hkept.jiffies, fun u hu => { hkept.booked u hu with }, hkept.expires⟩, h.allowed⟩
  | some e =>
    rw [hevent] at hkept
    exact ⟨⟨hkept.jiffies, fun u hu => { hkept.booked u hu with }, hkept.expires⟩,
      hallows e hevent, h.allowed⟩

theorem workList_modTimerCommon (s : State) (timer expires : Nat) (pendingOnly : Bool) :
    (s.modTimerCommon timer expires pendingOnly).workList.Sublist s.workList := by
  unfold modTimerCommon
  split
  · rw [(adds ..).work, workList_forgetNext]
    exact filter_sublist
  · split
    · exact .refl _
    · exact (s.adds ..).work ▸ .refl _

theorem workList_modTimer (s : State) (timer expires : Nat) :
    (s.modTimer timer expires).workList.Sublist s.workList := by
  unfold modTimer
  split
  · exact .refl _
  · exact workList_modTimerCommon s timer expires false

/-- Only an iteration adds to the work list, and each call of a function takes a timer from it. -/
theorem workList_step (hs : step s op = some s') (hop : op ≠ .iterate) :
    s'.workList.Sublist s.workList ∧ (op = .fire → s'.workList.length < s.workList.length) := by
  obtain ⟨s₁, hact, rfl⟩ := map_eq_some_iff.mp hs
  cases op with
  | iterate => exact absurd rfl hop
  | fire =>
    obtain ⟨timer, hhead, rfl⟩ := map_eq_some_iff.mp hact
    refine ⟨filter_sublist, fun _ => length_filter_lt_length_iff_exists.mpr ?_⟩
    exact ⟨timer, mem_of_mem_head? hhead, by simp⟩
  | addTimer timer expires =>
    obtain ⟨-, hact⟩ := ite_none_left_eq_some.mp hact
    cases hact
    exact ⟨workList_modTimer s timer _, nofun⟩
  | modTimer timer expires =>
    cases hact
    exact ⟨workList_modTimer s timer _, nofun⟩
  | modTimerPending timer expires =>
    cases hact
    exact ⟨workList_modTimerCommon s timer _ true, nofun⟩
  | delTimer timer =>
    cases hact
    refine ⟨?_, nofun⟩
    show (s.delTimer timer).workList.Sublist _
    unfold delTimer
    split
    · rw [workList_forgetNext]
      exact filter_sublist
    · exact .refl _
  | setJiffies =>
    cases hact
    exact ⟨.refl _, nofun⟩
  | enter =>
    obtain ⟨-, hact⟩ := ite_none_left_eq_some.mp hact
    cases hact
    exact ⟨.refl _, nofun⟩
  | leave =>
    obtain ⟨-, rfl⟩ := ite_some_none_eq_some.mp hact
    exact ⟨.refl _, nofun⟩

/-! ## The result -/

/-- The events of a state and the timers that are pending in it are as they should be. -/
structure OnTime (jiffies : Nat) (s : State) : Prop where
  /-- The lower bits of an iteration's number are the `timer_jiffies` that it begins with. -/
  numbered : ∀ tj older, .iteration tj :: older <:+ s.log → tj = (agenda jiffies older).now % 2 ^ 32
  /-- A timer is added for the first iteration from then on with its `expires`, or for the next one
  if that has passed. -/
  added : ∀ (timer expires tj : Nat) (pendingOnly : Bool) (older : List Event),
    .modified timer expires tj pendingOnly :: older <:+ s.log →
    (0 ≤ long ((expires : Int) - tj) →
      IsLeast (fun n => (agenda jiffies older).now ≤ n ∧ n % 2 ^ 32 = expires)
        (dueAt (agenda jiffies older).now expires)) ∧
    (long ((expires : Int) - tj) < 0 →
      dueAt (agenda jiffies older).now expires = (agenda jiffies older).now)
  /-- A timer is run only if it has been added, and not been deleted or run since; and it is run in
  the iteration that it was added for. -/
  ran : ∀ timer older, .ran timer :: older <:+ s.log →
    ∃ n, (agenda jiffies older).due timer = some n ∧ (agenda jiffies older).now = n + 1
  /-- As long as it is not run, this iteration is to come, or it is not finished. -/
  waits : ∀ timer n, (agenda jiffies s.log).due timer = some n →
    (agenda jiffies s.log).now ≤ n ∨ (agenda jiffies s.log).now = n + 1 ∧ timer ∈ s.workList
  pending : ∀ timer, (s.timers timer).pending = ((agenda jiffies s.log).due timer).isSome

/-- **In every run all timers are run on time**, and an iteration has one timer less to run with
each call of a function, whatever these functions do. -/
theorem timers_run_on_time {deferrable : Nat → Bool}
    (h : Reached step (fun _ _ => True) (init jiffies deferrable) s) :
    OnTime jiffies s ∧ ∀ op s', step s op = some s' → op ≠ .iterate →
      s'.workList.Sublist s.workList ∧
        (op = .fire → s'.workList.length < s.workList.length) := by
  have hinv : Inv jiffies s :=
    h.invariant (inv_init jiffies deferrable) fun _ _ _ hinv _ hs => inv_step hinv hs
  refine ⟨?_, fun op s' hs hop => workList_step hs hop⟩
  exact
    { numbered := fun tj older hsuffix => (hinv.allowed.of_suffix hsuffix).1
      added := fun timer expires tj pendingOnly older hsuffix => by
        obtain ⟨hexpires, rfl⟩ := hinv.allowed.of_suffix hsuffix
        exact dueAt_spec _ hexpires
      ran := fun timer older hsuffix => hinv.allowed.of_suffix hsuffix
      waits := fun timer n hdue => hinv.kept.not_over hdue
      pending := fun timer => (hinv.kept.booked timer id).pending }

/-- The time wraps around. One timer is added for after that, and another is modified to come before
it; a third has passed and runs first, and its function adds a fourth one that has passed too. A
fifth one is deleted. -/
theorem timers_run_on_time_wrap :
    ∃ s, Reached step (fun _ _ => True) (init 0xffffffff fun _ => false) s ∧
      (s.log = [.ran 1, .iteration 1, .ran 4, .ran 2, .iteration 0,
        .modified 4 0xffffffff 0 false, .deleted 5, .ran 3, .iteration 0xffffffff,
        .modified 2 0 0xffffffff false, .modified 5 1 0xffffffff false,
        .modified 3 0xfffffff0 0xffffffff false, .modified 2 7 0xffffffff false,
        .modified 1 1 0xffffffff false] ∧ (s.timers 5).pending = false) ∧
      OnTime 0xffffffff s ∧ ∀ op s', step s op = some s' → op ≠ .iterate →
        s'.workList.Sublist s.workList ∧
          (op = .fire → s'.workList.length < s.workList.length) :=
  Reached.exists_of_checked_and
    [.addTimer 1 1, .addTimer 2 7, .addTimer 3 0xfffffff0, .addTimer 5 1, .modTimer 2 0,
      .setJiffies 1, .enter, .iterate, .fire, .delTimer 5, .addTimer 4 0xffffffff, .iterate, .fire,
      .fire, .iterate, .fire, .leave] (by decide +kernel)
    fun _ hrun _ => timers_run_on_time hrun

end State

end AndroidKernel.Timer
