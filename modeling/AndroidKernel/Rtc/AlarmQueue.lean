import AndroidKernel.Rtc.Alarm

/-!
# The order of an alarm queue and its timer

The tree stays ordered by `expires` although the times of an alarm change while it is in
the tree, because such an alarm is taken out before the order is used again. The timer
is started anew only when the head of the queue is replaced by an earlier one or taken
away by a cancellation or by the timer itself. When the head is queued anew for later,
the timer stays as it was, which is early enough for the next one.
-/

namespace AndroidKernel.Alarms

open Rbtree Function List

/-! ## Ordered lists of alarms -/

/-- The alarms of a queue, in order: each once, exactly those that are linked, and each
with its times in order. -/
structure Ordered (alarm : AlarmId → Alarm) (l : List AlarmId) : Prop where
  sorted : l.Pairwise fun a b => (alarm a).expires.tv64 ≤ (alarm b).expires.tv64
  nodup : l.Nodup
  linked : ∀ id, (alarm id).linked = true ↔ id ∈ l
  range : ∀ id ∈ l, (alarm id).softexpires.tv64 ≤ (alarm id).expires.tv64

namespace Ordered

variable {alarm alarm' : AlarmId → Alarm} {l a b : List AlarmId} {id entry : AlarmId}

/-- The head expires first. -/
theorem head_le (h : Ordered alarm l) (hid : l.head? = some id) (hentry : entry ∈ l) :
    (alarm id).expires.tv64 ≤ (alarm entry).expires.tv64 := by
  cases l with
  | nil => cases hid
  | cons x l =>
    obtain rfl : x = id := by simpa using hid
    rcases mem_cons.mp hentry with rfl | hentry
    · exact Int.le_refl _
    · exact rel_of_pairwise_cons h.sorted hentry

/-- An alarm leaves the queue; its own times do not matter any more. -/
theorem erase (h : Ordered alarm l) (hsame : ∀ entry, entry ≠ id → alarm' entry = alarm entry)
    (hid : (alarm' id).linked = false) : Ordered alarm' (l.erase id) := by
  have hmem {entry : AlarmId} (hentry : entry ∈ l.erase id) :
      entry ∈ l ∧ alarm' entry = alarm entry := by
    obtain ⟨hne, hentry⟩ := (h.nodup.mem_erase_iff).mp hentry
    exact ⟨hentry, hsame entry hne⟩
  refine ⟨?_, h.nodup.erase id, ?_, ?_⟩
  · refine (h.sorted.sublist erase_sublist).imp_of_mem ?_
    intro a b ha hb hab
    rw [(hmem ha).2, (hmem hb).2]
    exact hab
  · intro entry
    by_cases hne : entry = id
    · subst hne
      simp [hid, h.nodup.not_mem_erase]
    · rw [hsame entry hne, h.linked, mem_erase_of_ne hne]
  · intro entry hentry
    rw [(hmem hentry).2]
    exact h.range entry (hmem hentry).1

/-- An alarm comes in between those that expire no later and those that expire later. -/
theorem insert (h : Ordered alarm (a ++ b)) (hid : id ∉ a ++ b)
    (hsame : ∀ entry, (alarm' entry).softexpires = (alarm entry).softexpires ∧
      (alarm' entry).expires = (alarm entry).expires)
    (hlinked : ∀ entry, (alarm' entry).linked = true ↔ entry = id ∨ (alarm entry).linked = true)
    (hrange : (alarm id).softexpires.tv64 ≤ (alarm id).expires.tv64)
    (ha : ∀ entry ∈ a, (alarm entry).expires.tv64 ≤ (alarm id).expires.tv64)
    (hb : ∀ entry ∈ b, (alarm id).expires.tv64 ≤ (alarm entry).expires.tv64) :
    Ordered alarm' (a ++ id :: b) := by
  refine ⟨?_, ?_, ?_, ?_⟩
  · simp only [(hsame _).2]
    have hs := pairwise_append.mp h.sorted
    exact pairwise_append.mpr ⟨hs.1, pairwise_cons.mpr ⟨hb, hs.2.1⟩,
      fun x hx => forall_mem_cons.mpr ⟨ha x hx, hs.2.2 x hx⟩⟩
  · exact nodup_middle.mpr (nodup_cons.mpr ⟨hid, h.nodup⟩)
  · intro entry
    rw [hlinked, h.linked]
    simp only [mem_append, mem_cons]
    tauto
  · intro entry hentry
    rw [(hsame entry).1, (hsame entry).2]
    have hmem : entry = id ∨ entry ∈ a ++ b := by
      simp only [mem_append, mem_cons] at hentry ⊢
      tauto
    rcases hmem with rfl | hmem
    · exact hrange
    · exact h.range entry hmem

end Ordered

variable {s s' : State} {id : AlarmId} {time : KTime}

/-- The tree is in order and `first` is its leftmost node. -/
structure State.Queued (s : State) : Prop where
  ordered : Ordered s.alarm s.alarms.toList
  first : s.first = s.alarms.toList.head?

/-- The timer goes off in time for the first alarm, if it has to. -/
def State.Armed (s : State) : Prop :=
  s.stopped = false → s.suspended = false → ∀ id, s.first = some id →
    ∃ timer, s.timer = some timer ∧ timer.expires.ns ≤ s.delta.ns + (s.alarm id).expires.ns

/-- The soft expiry times of the queued alarms are not negative on the clock. -/
def State.Nonneg (s : State) : Prop :=
  ∀ id ∈ s.alarms.toList, 0 ≤ s.delta.ns + (s.alarm id).softexpires.ns

namespace State

/-! ## The timer -/

/-- `update_timer_locked` may give the wake lock up first. -/
theorem unlock_eq (s : State) (unlock : Bool) :
    ∃ lock, (if unlock = true then { s with rtcWakeLock := false } else s) =
      { s with rtcWakeLock := lock } := by
  split
  · exact ⟨false, rfl⟩
  · exact ⟨s.rtcWakeLock, rfl⟩

/-- `update_timer_locked` leaves the queue as it is. -/
theorem updateTimerLocked_eq (s : State) (headRemoved : Bool) :
    ∃ timer lock, s.updateTimerLocked headRemoved =
      { s with timer := timer, rtcWakeLock := lock } := by
  unfold updateTimerLocked
  split
  · exact ⟨s.timer, s.rtcWakeLock, rfl⟩
  obtain ⟨lock, hlock⟩ := unlock_eq s (s.isWakeup && !s.suspended && headRemoved)
  rw [hlock]
  dsimp only
  split
  · exact ⟨_, lock, rfl⟩
  · split
    · exact ⟨_, true, rfl⟩
    · exact ⟨_, lock, rfl⟩

/-- The timer is started in time for a first alarm whose times are in order. -/
theorem updateTimerLocked_armed (headRemoved : Bool) (hrange : ∀ id, s.first = some id →
      (s.alarm id).softexpires.tv64 ≤ (s.alarm id).expires.tv64 ∧
      0 ≤ s.delta.ns + (s.alarm id).softexpires.ns) : (s.updateTimerLocked headRemoved).Armed := by
  obtain ⟨timer, lock, heq⟩ := updateTimerLocked_eq s headRemoved
  intro hstopped hsuspended id hfirst
  rw [heq] at hstopped hsuspended hfirst
  dsimp only at hstopped hsuspended hfirst
  obtain ⟨hle, h0⟩ := hrange id hfirst
  obtain ⟨lock', hlock⟩ := unlock_eq s (s.isWakeup && !s.suspended && headRemoved)
  have htimer : timer = some (hrtimerStartExpires (s.delta.add (s.alarm id).softexpires)
      (s.delta.add (s.alarm id).expires)) := by
    have htimer := congrArg State.timer heq
    unfold updateTimerLocked at htimer
    rw [if_neg (by simp [hstopped]), hlock] at htimer
    simp only [hfirst, hsuspended, Bool.and_false] at htimer
    exact htimer.symm
  rw [heq, htimer]
  refine ⟨_, rfl, ?_⟩
  exact hrtimerStartExpires_le h0 (KTime.ns_le_iff.mpr hle)

/-- The timer that was early enough for the first alarm is so for a later one. -/
theorem Armed.later (h : s.Armed) (htimer : s'.timer = s.timer) (hdelta : s'.delta = s.delta)
    (hstopped : s'.stopped = s.stopped) (hsuspended : s'.suspended = s.suspended)
    (hfirst : ∀ id', s'.first = some id' → ∃ id, s.first = some id ∧
      (s.alarm id).expires.tv64 ≤ (s'.alarm id').expires.tv64) : s'.Armed := by
  intro hstop hsus id' hid'
  obtain ⟨id, hid, hle⟩ := hfirst id' hid'
  obtain ⟨timer, ht, hexp⟩ := h (hstopped ▸ hstop) (hsuspended ▸ hsus) id hid
  refine ⟨timer, htimer.trans ht, ?_⟩
  rw [hdelta]
  have := KTime.ns_le_iff.mpr hle
  omega

/-! ## Taking an alarm out -/

/-- What is left when an alarm has been taken out of the queue. -/
structure Detached (s s' : State) (id : AlarmId) : Prop where
  alarm : s'.alarm = update s.alarm id { s.alarm id with linked := false }
  toList : s'.alarms.toList = s.alarms.toList.erase id
  first : s'.first = (s.alarms.toList.erase id).head?
  frame : s' = { s with alarm := s'.alarm, alarms := s'.alarms, first := s'.first }

theorem skipFirst_eq (s : State) (id : AlarmId) :
    s.skipFirst id = { s with first := (s.skipFirst id).first } := by
  unfold skipFirst
  split <;> rfl

section

variable (hfirst : s.first = s.alarms.toList.head?)

include hfirst

/-- `first` moves on to the leftmost of the others. -/
theorem skipFirst_first (id : AlarmId) :
    (s.skipFirst id).first = (s.alarms.toList.erase id).head? := by
  unfold skipFirst
  split
  next hid =>
    obtain ⟨l, hl⟩ : ∃ l, s.alarms.toList = id :: l :=
      head?_eq_some_iff.mp (hfirst.symm.trans hid)
    rw [hl, erase_cons_head]
    exact rbNext_eq (a := []) hl (by simp)
  next hid =>
    rw [hfirst] at hid ⊢
    cases hl : s.alarms.toList with
    | nil => rfl
    | cons x l =>
      have hne : x ≠ id := by
        rintro rfl
        exact hid (by simp [hl])
      rw [erase_cons_tail (by simpa using hne)]
      rfl

theorem removeNode_detached (id : AlarmId) : Detached s ((s.skipFirst id).removeNode id) id := by
  have hskip := skipFirst_first hfirst id
  rw [skipFirst_eq]
  exact ⟨rfl, toList_rbErase _ _, hskip, rfl⟩

/-- Only the links and `first` matter for taking an alarm out, not the order. -/
theorem detach_detached (hlinked : (s.alarm id).linked = true ↔ id ∈ s.alarms.toList) :
    Detached s (s.detach id) id := by
  unfold detach
  dsimp only
  have halarm : ((s.skipFirst id).alarm id).linked = (s.alarm id).linked := by
    rw [skipFirst_eq]
  split
  · exact removeNode_detached hfirst id
  rename_i hnot
  rw [halarm, hlinked] at hnot
  have hskip := skipFirst_first hfirst id
  rw [skipFirst_eq]
  refine ⟨?_, (erase_of_not_mem hnot).symm, hskip, rfl⟩
  have hfalse : (s.alarm id).linked = false := by
    cases h : (s.alarm id).linked with
    | false => rfl
    | true => exact absurd (hlinked.mp h) hnot
  rw [← hfalse, update_eq_self]

end

section Detached

variable {alarm : AlarmId → Alarm}

section

variable (hd : Detached { s with alarm := alarm } s' id) (hs : s.Queued)

include hd hs

theorem Detached.mem_iff {entry : AlarmId} :
    entry ∈ s'.alarms.toList ↔ entry ≠ id ∧ entry ∈ s.alarms.toList := by
  rw [hd.toList]
  exact hs.ordered.nodup.mem_erase_iff

variable (hsame : ∀ entry, entry ≠ id → alarm entry = s.alarm entry)

include hsame

/-- The times of the alarm itself may have changed before it is taken out. -/
theorem Detached.queued : s'.Queued := by
  constructor
  · rw [hd.toList, hd.alarm]
    refine hs.ordered.erase ?_ (by simp)
    intro entry hne
    rw [update_of_ne hne]
    exact hsame entry hne
  · rw [hd.toList]
    exact hd.first

/-- The alarms that are left are as they were. -/
theorem Detached.same {entry : AlarmId} (hentry : entry ∈ s'.alarms.toList) :
    s'.alarm entry = s.alarm entry := by
  have hne := ((hd.mem_iff hs).mp hentry).1
  rw [hd.alarm, update_of_ne hne]
  exact hsame entry hne

/-- Without the alarm the queue starts no earlier, so the timer will do. -/
theorem Detached.armed (h : s.Armed) : s'.Armed := by
  refine h.later ?_ ?_ ?_ ?_ ?_
  · rw [hd.frame]
  · rw [hd.frame]
  · rw [hd.frame]
  · rw [hd.frame]
  intro id' hid'
  have hmem : id' ∈ s'.alarms.toList :=
    mem_of_head? ((hd.queued hs hsame).first.symm.trans hid')
  have hmem₀ := ((hd.mem_iff hs).mp hmem).2
  obtain ⟨f, hf⟩ : ∃ f, s.alarms.toList.head? = some f := by
    cases hl : s.alarms.toList with
    | nil => simp [hl] at hmem₀
    | cons f l => exact ⟨f, rfl⟩
  refine ⟨f, hs.first.trans hf, ?_⟩
  rw [hd.same hs hsame hmem]
  exact hs.ordered.head_le hf hmem₀

theorem Detached.nonneg (h : s.Nonneg) : s'.Nonneg := by
  intro entry hentry
  have hdelta : s'.delta = s.delta := by rw [hd.frame]
  rw [hd.same hs hsame hentry, hdelta]
  exact h entry ((hd.mem_iff hs).mp hentry).2

end

end Detached

/-! ## Putting an alarm in -/

theorem linkNode_alarm (s : State) (id entry : AlarmId) :
    ((s.linkNode id).alarm entry).softexpires = (s.alarm entry).softexpires ∧
    ((s.linkNode id).alarm entry).expires = (s.alarm entry).expires ∧
    (((s.linkNode id).alarm entry).linked = true ↔ entry = id ∨ (s.alarm entry).linked = true) := by
  unfold linkNode
  by_cases h : entry = id
  · subst h
    simp
  · simp [h]

/-- Where the descent leads, and when that is all the way to the left. -/
theorem descent (hs : s.Queued) (id : AlarmId) : ∃ a b, s.alarms.toList = a ++ b ∧
    (insertAt (s.goesLeft id) id s.alarms).toList = a ++ id :: b ∧
    (∀ entry ∈ a, (s.alarm entry).expires.tv64 ≤ (s.alarm id).expires.tv64) ∧
    (∀ entry ∈ b, (s.alarm id).expires.tv64 ≤ (s.alarm entry).expires.tv64) ∧
    ((visited (s.goesLeft id) s.alarms).all (s.goesLeft id) = true ↔ a = []) := by
  have hsearch : Searchable (s.goesLeft id) s.alarms.toList := by
    refine hs.ordered.sorted.imp ?_
    intro a b hab
    simp only [goesLeft, decide_eq_true_eq]
    omega
  obtain ⟨a, b, hl, hins, ha, hb⟩ := toList_insertAt hsearch id
  refine ⟨a, b, hl, hins, ?_, ?_, ?_⟩
  · intro entry hentry
    have := ha entry hentry
    simp only [goesLeft, decide_eq_false_iff_not] at this
    omega
  · intro entry hentry
    have := hb entry hentry
    simp only [goesLeft, decide_eq_true_eq] at this
    omega
  · rw [visited_all_iff hsearch, hl]
    constructor
    · intro hall
      cases a with
      | nil => rfl
      | cons x a =>
        have hleft := hall x (by simp)
        rw [ha x (by simp)] at hleft
        cases hleft
    · rintro rfl
      exact hb

/-- `attach` with the result of the descent put in. -/
theorem attach_eq (hs : s.Queued) (id : AlarmId) : ∃ a b, s.alarms.toList = a ++ b ∧
    (s.attach id).alarms.toList = a ++ id :: b ∧
    (∀ entry ∈ a, (s.alarm entry).expires.tv64 ≤ (s.alarm id).expires.tv64) ∧
    (∀ entry ∈ b, (s.alarm id).expires.tv64 ≤ (s.alarm entry).expires.tv64) ∧
    ((a = [] ∧ s.attach id = ({ s with first := some id }.updateTimerLocked false).linkNode id) ∨
      (a ≠ [] ∧ s.attach id = s.linkNode id)) := by
  obtain ⟨a, b, hl, hins, ha, hb, hleft⟩ := descent hs id
  by_cases hnil : a = []
  · have hattach : s.attach id =
        ({ s with first := some id }.updateTimerLocked false).linkNode id := by
      unfold attach
      dsimp only
      rw [if_pos (hleft.mpr hnil)]
    refine ⟨a, b, hl, ?_, ha, hb, .inl ⟨hnil, hattach⟩⟩
    obtain ⟨timer, lock, heq⟩ := updateTimerLocked_eq { s with first := some id } false
    rw [hattach, heq]
    exact hins
  · have hattach : s.attach id = s.linkNode id := by
      unfold attach
      dsimp only
      rw [if_neg (mt hleft.mp hnil)]
    refine ⟨a, b, hl, ?_, ha, hb, .inr ⟨hnil, hattach⟩⟩
    rw [hattach]
    exact hins

/-- What putting an alarm in leaves as it is. -/
theorem attach_frame (s : State) (id : AlarmId) :
    (s.attach id).delta = s.delta ∧ (s.attach id).triggered = s.triggered ∧
    ∀ entry, ((s.attach id).alarm entry).softexpires = (s.alarm entry).softexpires ∧
      ((s.attach id).alarm entry).expires = (s.alarm entry).expires ∧
      (((s.attach id).alarm entry).linked = true ↔ entry = id ∨ (s.alarm entry).linked = true) := by
  obtain ⟨timer, lock, heq⟩ := updateTimerLocked_eq { s with first := some id } false
  unfold attach
  dsimp only
  split
  · rw [heq]
    exact ⟨rfl, rfl, linkNode_alarm _ id⟩
  · exact ⟨rfl, rfl, linkNode_alarm s id⟩

theorem attach_queued (hs : s.Queued) (hid : id ∉ s.alarms.toList)
    (hrange : (s.alarm id).softexpires.tv64 ≤ (s.alarm id).expires.tv64) :
    (s.attach id).Queued := by
  obtain ⟨a, b, hl, hins, ha, hb, hcase⟩ := attach_eq hs id
  have halarm := (attach_frame s id).2.2
  constructor
  · rw [hins]
    exact (hl ▸ hs.ordered).insert (hl ▸ hid) (fun entry => ⟨(halarm entry).1, (halarm entry).2.1⟩)
      (fun entry => (halarm entry).2.2) hrange ha hb
  · rw [hins]
    rcases hcase with ⟨rfl, hattach⟩ | ⟨hne, hattach⟩
    · obtain ⟨timer, lock, heq⟩ := updateTimerLocked_eq { s with first := some id } false
      rw [hattach, heq]
      rfl
    · rw [hattach]
      show s.first = _
      rw [hs.first, hl, head?_append_of_ne_nil _ hne, head?_append_of_ne_nil _ hne]

theorem attach_nonneg (hs : s.Queued) (h : s.Nonneg)
    (h0 : 0 ≤ s.delta.ns + (s.alarm id).softexpires.ns) : (s.attach id).Nonneg := by
  obtain ⟨a, b, hl, hins, -⟩ := attach_eq hs id
  obtain ⟨hdelta, -, halarm⟩ := attach_frame s id
  intro entry hentry
  rw [hdelta, (halarm entry).1]
  have hmem : entry = id ∨ entry ∈ s.alarms.toList := by
    rw [hins] at hentry
    rw [hl]
    simp only [mem_append, mem_cons] at hentry ⊢
    tauto
  rcases hmem with rfl | hmem
  · exact h0
  · exact h entry hmem

/-- Linking an alarm into the tree does not touch the timer. -/
theorem Armed.linkNode (h : s.Armed) (id : AlarmId) : (s.linkNode id).Armed := by
  refine h.later rfl rfl rfl rfl ?_
  intro id' hid'
  refine ⟨id', hid', ?_⟩
  rw [(linkNode_alarm s id id').2.1]

/-! ## The calls -/

/-- What every run keeps: the order of the queue, and that no alarm is called early. -/
structure Ok (s : State) : Prop where
  queued : s.Queued
  called : ∀ run, s.triggered = some run → ∀ c ∈ run.called, c.2.tv64 ≤ run.now.tv64

/-- What runs without negative times keep besides. While `alarm_timer_triggered` is on
its way the timer need not be started. -/
structure Timely (s : State) : Prop where
  nonneg : s.Nonneg
  armed : s.triggered = none → s.Armed

theorem updateTimerLocked_queued (h : s.Queued) (headRemoved : Bool) :
    (s.updateTimerLocked headRemoved).Queued := by
  obtain ⟨timer, lock, heq⟩ := updateTimerLocked_eq s headRemoved
  rw [heq]
  exact ⟨h.ordered, h.first⟩

/-- The timer is started anew for an ordered queue without negative times. -/
theorem updateTimerLocked_timely (h : s.Queued) (hn : s.Nonneg) (headRemoved : Bool) :
    (s.updateTimerLocked headRemoved).Nonneg ∧ (s.updateTimerLocked headRemoved).Armed := by
  constructor
  · obtain ⟨timer, lock, heq⟩ := updateTimerLocked_eq s headRemoved
    rw [heq]
    exact hn
  · refine updateTimerLocked_armed headRemoved fun id hfirst => ?_
    have hmem := mem_of_head? (h.first.symm.trans hfirst)
    exact ⟨h.ordered.range id hmem, hn id hmem⟩

section StartRange

variable (id : AlarmId) (start «end» : KTime)

/-- `alarm_start_range` sets the times, takes the alarm out and puts it in. -/
theorem alarmStartRange_split (h : s.Queued) : ∃ alarm s₁,
    (∀ entry, entry ≠ id → alarm entry = s.alarm entry) ∧ Detached { s with alarm := alarm } s₁ id ∧
    (s₁.alarm id).softexpires = start ∧ (s₁.alarm id).expires = «end» ∧
    s.alarmStartRange id start «end» = s₁.attach id := by
  let alarm := update s.alarm id
    { s.alarm id with softexpires := start, expires := «end» }
  have hd : Detached { s with alarm := alarm } ({ s with alarm := alarm }.detach id) id := by
    refine detach_detached h.first ?_
    have hlinked : (alarm id).linked = (s.alarm id).linked := by simp [alarm]
    rw [hlinked]
    exact h.ordered.linked id
  refine ⟨alarm, _, fun _ hne => update_of_ne hne _ _, hd, ?_, ?_, rfl⟩
  · rw [hd.alarm]
    simp [alarm]
  · rw [hd.alarm]
    simp [alarm]

theorem alarmStartRange_ok (h : s.Ok) (hle : start.tv64 ≤ «end».tv64) :
    (s.alarmStartRange id start «end»).Ok ∧
      (s.Timely → 0 ≤ s.delta.ns + start.ns → (s.alarmStartRange id start «end»).Timely) := by
  obtain ⟨alarm, s₁, hsame, hd, hsoft, hexp, heq⟩ := alarmStartRange_split id start «end» h.queued
  have hq := hd.queued h.queued hsame
  have hdelta : s₁.delta = s.delta := by rw [hd.frame]
  have htrig : s₁.triggered = s.triggered := by rw [hd.frame]
  rw [← (attach_frame s₁ id).2.1] at htrig
  rw [← hsoft, ← hexp] at hle
  rw [heq, ← hdelta, ← hsoft]
  refine ⟨⟨attach_queued hq (fun hmem => ?_) hle, htrig ▸ h.called⟩, fun ht h0 =>
    ⟨attach_nonneg hq (hd.nonneg h.queued hsame ht.nonneg) h0, fun hnone => ?_⟩⟩
  · exact ((hd.mem_iff h.queued).mp hmem).1 rfl
  · obtain ⟨a, b, -, -, -, -, ⟨-, hattach⟩ | ⟨-, hattach⟩⟩ := attach_eq hq id
    · rw [hattach]
      refine (updateTimerLocked_armed false ?_).linkNode id
      rintro _ ⟨⟩
      exact ⟨hle, h0⟩
    · rw [htrig] at hnone
      rw [hattach]
      exact (hd.armed h.queued hsame (ht.armed hnone)).linkNode id

end StartRange

theorem alarmTryToCancel_ok (h : s.Ok) (id : AlarmId) :
    (s.alarmTryToCancel id).1.Ok ∧ (s.Timely → (s.alarmTryToCancel id).1.Timely) := by
  unfold alarmTryToCancel
  split
  · have hd : Detached { s with alarm := s.alarm } ((s.skipFirst id).removeNode id) id :=
      removeNode_detached h.queued.first id
    have hq := hd.queued h.queued fun _ _ => rfl
    have hn := hd.nonneg h.queued fun _ _ => rfl
    have htrig : ((s.skipFirst id).removeNode id).triggered = s.triggered := by rw [hd.frame]
    dsimp only
    split
    · refine ⟨⟨updateTimerLocked_queued hq true, ?_⟩, fun ht => ?_⟩
      · obtain ⟨timer, lock, heq⟩ := updateTimerLocked_eq ((s.skipFirst id).removeNode id) true
        rw [heq]
        rw [htrig]
        exact h.called
      · have hup := updateTimerLocked_timely hq (hn ht.nonneg) true
        exact ⟨hup.1, fun _ => hup.2⟩
    · refine ⟨⟨hq, htrig ▸ h.called⟩, fun ht => ⟨hn ht.nonneg, fun hnone => ?_⟩⟩
      exact hd.armed h.queued (fun _ _ => rfl) (ht.armed (htrig.symm.trans hnone))
  · exact ⟨h, fun ht => ht⟩

section

variable (hs : s.alarmTimerNext = some s')

include hs

/-- The two ways in which a locked section of `alarm_timer_triggered` ends: everything
that is left starts later, or the first alarm is called. -/
theorem alarmTimerNext_cases (h : s.Queued) :
    ∃ run, s.triggered = some run ∧ ((s' = { s.updateTimerLocked true with triggered := none } ∧
        ∀ id, s.first = some id → run.now.tv64 < (s.alarm id).softexpires.tv64) ∨
      ∃ id s₁, s.first = some id ∧ (s.alarm id).softexpires.tv64 ≤ run.now.tv64 ∧
        Detached { s with alarm := s.alarm } s₁ id ∧ s' = { s₁ with
          triggered := some ⟨run.now, run.called ++ [(id, (s.alarm id).softexpires)]⟩ }) := by
  unfold alarmTimerNext at hs
  split at hs
  · cases hs
  rename_i run hrun
  refine ⟨run, hrun, ?_⟩
  split at hs
  next hfirst =>
    cases hs
    exact .inl ⟨rfl, by simp [hfirst]⟩
  next id hfirst =>
    split at hs
    next hlt =>
      cases hs
      refine .inl ⟨rfl, fun id' hid' => ?_⟩
      obtain rfl : id = id' := Option.some.inj (hfirst.symm.trans hid')
      exact hlt
    next hnlt =>
      cases hs
      have hd := removeNode_detached h.first id
      rw [skipFirst, if_pos hfirst] at hd
      exact .inr ⟨id, _, hfirst, Int.not_lt.mp hnlt, hd, rfl⟩

theorem alarmTimerNext_ok (h : s.Ok) : s'.Ok ∧ (s.Timely → s'.Timely) := by
  obtain ⟨run, hrun, ⟨rfl, -⟩ | ⟨id, s₁, -, hsoft, hd, rfl⟩⟩ := alarmTimerNext_cases hs h.queued
  · have hq := updateTimerLocked_queued h.queued true
    refine ⟨⟨⟨hq.ordered, hq.first⟩, fun run hnone => ?_⟩, fun ht => ?_⟩
    · cases hnone
    · obtain ⟨hnonneg, harmed⟩ := updateTimerLocked_timely h.queued ht.nonneg true
      generalize s.updateTimerLocked true = s₁ at hnonneg harmed
      exact ⟨hnonneg, fun _ => harmed⟩
  · have hq := hd.queued h.queued fun _ _ => rfl
    refine ⟨⟨⟨hq.ordered, hq.first⟩, ?_⟩, fun ht =>
      ⟨hd.nonneg h.queued (fun _ _ => rfl) ht.nonneg, nofun⟩⟩
    rintro _ ⟨⟩
    exact forall_mem_append.mpr ⟨h.called run hrun, forall_mem_singleton.mpr hsoft⟩

/-- When `alarm_timer_triggered` ends, nothing is left in the queue that has expired. -/
theorem alarmTimerNext_left (h : s.Queued) (hend : s'.triggered = none) {run : Triggered}
    (hrun : s.triggered = some run) : ∀ id ∈ s'.alarms.toList, run.now.tv64 <
    (s'.alarm id).expires.tv64 := by
  obtain ⟨run', hrun', ⟨rfl, hfirst⟩ | ⟨id, s₁, -, -, -, rfl⟩⟩ := alarmTimerNext_cases hs h
  · obtain rfl : run = run' := Option.some.inj (hrun.symm.trans hrun')
    obtain ⟨timer, lock, heq⟩ := updateTimerLocked_eq s true
    rw [heq]
    intro entry hentry
    show run.now.tv64 < (s.alarm entry).expires.tv64
    -- the first alarm is the one that expires first, and not before it may be called
    cases hhead : s.alarms.toList.head? with
    | none =>
      rw [head?_eq_none_iff.mp hhead] at hentry
      cases hentry
    | some id =>
      have hlt := hfirst id (h.first.trans hhead)
      have hrange := h.ordered.range id (mem_of_head? hhead)
      have hle := h.ordered.head_le hhead hentry
      omega
  · cases hend

end

end State

/-! ## Every run -/

/-- An alarm is started with its times in order. -/
def InOrder (_ : State) : Op → Prop
  | .startRange _ start «end» => start.tv64 ≤ «end».tv64
  | _ => True

/-- Besides, the soft expiry time is not negative on the clock. -/
def InOrderNonneg (s : State) : Op → Prop
  | .startRange _ start «end» => start.tv64 ≤ «end».tv64 ∧ 0 ≤ s.delta.ns + start.ns
  | _ => True

instance (s : State) (op : Op) : Decidable (InOrderNonneg s op) := by
  cases op <;> unfold InOrderNonneg <;> infer_instance

theorem step_ok {op : Op} (h : s.Ok) (hop : InOrder s op) (hs : s.step op = some s') :
    s'.Ok ∧ (s.Timely → InOrderNonneg s op → s'.Timely) := by
  cases op with
  | startRange id start «end» =>
    cases hs
    exact (State.alarmStartRange_ok id start «end» h hop).imp_right fun h ht hop => h ht hop.2
  | tryToCancel id =>
    cases hs
    exact (State.alarmTryToCancel_ok h id).imp_right fun h ht _ => h ht
  | timerTriggered time =>
    change s.alarmTimerTriggered time = some s' at hs
    unfold State.alarmTimerTriggered at hs
    split at hs
    · cases hs
    · cases hs
      refine ⟨⟨⟨h.queued.ordered, h.queued.first⟩, ?_⟩, fun ht _ => ⟨ht.nonneg, nofun⟩⟩
      rintro _ ⟨⟩ c hc
      cases hc
  | timerNext => exact (State.alarmTimerNext_ok hs h).imp_right fun h ht _ => h ht

theorem InOrderNonneg.inOrder {op : Op} (h : InOrderNonneg s op) : InOrder s op := by
  cases op with
  | startRange id start «end» => exact h.1
  | tryToCancel id | timerTriggered time | timerNext => trivial

section Runs

variable {delta stoppedTime : KTime} {stopped isWakeup suspended : Bool}

theorem reached_ok (h : Reached State.step InOrder
    (.init delta stopped stoppedTime isWakeup suspended) s) : s.Ok := by
  refine h.invariant ⟨⟨⟨.nil, .nil, ?_, ?_⟩, rfl⟩, ?_⟩
    fun _ _ _ hok hop hs => (step_ok hok hop hs).1
  · simp [State.init, toList]
  · intro id hid
    simp [State.init, toList] at hid
  · intro run hrun
    simp [State.init] at hrun

theorem reached_timely (h : Reached State.step InOrderNonneg
    (.init delta stopped stoppedTime isWakeup suspended) s) : s.Ok ∧ s.Timely := by
  have hinit : (State.init delta stopped stoppedTime isWakeup suspended).Timely := by
    constructor
    · intro id hid
      simp [State.init, toList] at hid
    · intro _ _ _ id hid
      simp [State.init] at hid
  refine h.invariant (P := fun s => s.Ok ∧ s.Timely) ⟨reached_ok .init, hinit⟩ ?_
  intro s s' op hok hop hs
  exact (step_ok hok.1 hop.inOrder hs).imp_right fun h => h hok.2 hop

/-- Whatever the calls and however callbacks queue alarms anew, `first` is the leftmost
node of an ordered tree, no alarm is called early and none that has expired is left when
`alarm_timer_triggered` ends. If no alarm is started with a soft expiry time that is
negative on the clock, the timer of a queue that needs it is started in time. -/
theorem queue_first_timer_called (h : Reached State.step InOrder
    (.init delta stopped stoppedTime isWakeup suspended) s) : (s.alarms.toList.Pairwise
        (fun a b => (s.alarm a).expires.tv64 ≤ (s.alarm b).expires.tv64) ∧
      s.first = s.alarms.rbFirst) ∧ (Reached State.step InOrderNonneg
        (.init delta stopped stoppedTime isWakeup suspended) s →
      s.triggered = none → s.stopped = false → s.suspended = false →
      ∀ id, s.first = some id → ∃ timer, s.timer = some timer ∧
        timer.expires.ns ≤ s.delta.ns + (s.alarm id).expires.ns) ∧
    ∀ run s', s.triggered = some run → s.step .timerNext = some s' → s'.triggered = none →
      (∀ c ∈ run.called, c.2.tv64 ≤ run.now.tv64) ∧
      ∀ id ∈ s'.alarms.toList, run.now.tv64 < (s'.alarm id).expires.tv64 := by
  have hok := reached_ok h
  refine ⟨⟨hok.queued.ordered.sorted, ?_⟩, ?_, ?_⟩
  · rw [hok.queued.first]
    cases s.alarms with
    | nil => rfl
    | node c l x r => exact head?_toList_node c l x r
  · intro hreached htrig
    exact (reached_timely hreached).2.armed htrig
  · intro run s' hrun hs hend
    exact ⟨hok.called run hrun, State.alarmTimerNext_left hs hok.queued hend hrun⟩

end Runs

/-- `alarm_start_range` for times in seconds. -/
def Op.startAt (id : AlarmId) (start «end» : Int) : Op :=
  .startRange id (.set start 0 KTime.zero_lt_nsecPerSec) (.set «end» 0 KTime.zero_lt_nsecPerSec)

/-- Four alarms, of which one has been cancelled and one moved behind another; the first one has
been called, and `alarm_timer_triggered` is about to end. -/
theorem queue_first_timer_called_fourAlarms : ∃ s run s',
    Reached State.step InOrderNonneg (.init .zero false .zero false false) s ∧
    s.triggered = some run ∧ run.called.map Prod.fst = [1] ∧ s.step .timerNext = some s' ∧
    s'.alarms.toList = [3, 2] ∧ (∀ c ∈ run.called, c.2.tv64 ≤ run.now.tv64) ∧
    (∀ id ∈ s'.alarms.toList, run.now.tv64 < (s'.alarm id).expires.tv64) ∧
    s'.first = s'.alarms.rbFirst ∧
    ∃ timer, s'.timer = some timer ∧ timer.expires.ns ≤ s'.delta.ns + (s'.alarm 3).expires.ns := by
  obtain ⟨s, h, hcalled, hnext⟩ : ∃ s,
      Reached State.step InOrderNonneg (.init .zero false .zero false false) s ∧
      (s.triggered.any fun run => run.called.map Prod.fst = [1]) = true ∧
      (s.step .timerNext).any (fun s' => s'.alarms.toList = [3, 2] ∧ s'.first = some 3 ∧
        s'.triggered = none ∧ s'.stopped = false ∧ s'.suspended = false) = true :=
    Reached.exists_of_checked [.startAt 1 1 2, .startAt 2 3 4, .startAt 3 5 6, .startAt 4 7 8,
      .startAt 2 6 9, .tryToCancel 4, .timerTriggered (.set 2 0 KTime.zero_lt_nsecPerSec),
      .timerNext] (by decide +kernel)
  obtain ⟨run, hrun, hcalled⟩ := (Option.any_eq_true _ _).mp hcalled
  obtain ⟨s', hnext, hs'⟩ := (Option.any_eq_true _ _).mp hnext
  obtain ⟨hlist, hfirst, hend, hstopped, hsuspended⟩ := of_decide_eq_true hs'
  have h' := h.step (show InOrderNonneg s .timerNext from trivial) hnext
  have hqueue := queue_first_timer_called (h.mono fun _ _ => InOrderNonneg.inOrder)
  have hqueue' := queue_first_timer_called (h'.mono fun _ _ => InOrderNonneg.inOrder)
  obtain ⟨hcalls, hleft⟩ := hqueue.2.2 run s' hrun hnext hend
  exact ⟨s, run, s', h, hrun, of_decide_eq_true hcalled, hnext, hlist, hcalls, hleft, hqueue'.1.2,
    hqueue'.2.1 h' hend hstopped hsuspended 3 hfirst⟩

/-- An alarm for the second before the epoch: `ktime_add_safe` takes the negative time
for an overflow, and the timer is started for the last second there is. -/
theorem timer_late_of_negative : ∃ s timer,
    Reached State.step InOrder (.init .zero false .zero false false) s ∧
    s.triggered = none ∧ s.stopped = false ∧ s.suspended = false ∧ s.first = some 1 ∧
    s.timer = some timer ∧ s.delta.ns + (s.alarm 1).expires.ns = -(10 ^ 9) ∧
    timer.expires.ns = (2 ^ 31 - 1) * 10 ^ 9 := by
  let start := KTime.set (-1) 0 (by decide)
  have hop : InOrder (.init .zero false .zero false false) (.startRange 1 start start) :=
    Int.le_refl _
  have hreached : Reached State.step InOrder (.init .zero false .zero false false) _ :=
    Reached.init.step hop rfl
  exact ⟨_, _, hreached, rfl, rfl, rfl, rfl, rfl, by decide, by decide⟩

end AndroidKernel.Alarms
