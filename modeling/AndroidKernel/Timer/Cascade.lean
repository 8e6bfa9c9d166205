import AndroidKernel.Lib.Wheel
import AndroidKernel.Timer.Wheel

/-!
# The agenda, and how the wheel keeps to it

The abstract view of the timers is an agenda: the iterations of `__run_timers` are numbered by a
time that does not wrap around, and each pending timer has the number of the iteration in which it
is to run. The agenda follows from the events alone.

A timer that is due in an iteration is in a bucket that has not come round before it. When
`__run_timers` has cascaded, the timers that are due now are all in one bucket of the first vector.

- `Agenda`, `agenda`: the agenda after a list of events.
- `placed_bucket`: `internal_add_timer` selects a bucket that has not come round.
- `Filed.cascadeTimers`: the vectors that come round now have been emptied.
-/

namespace AndroidKernel.Timer

open List

/-! ## The agenda -/

/-- `now` is the number of the next iteration; `timer_jiffies` is its lower 32 bits. -/
structure Agenda where
  now : Nat
  due : Nat → Option Nat
  /-- the time that a timer was last added with -/
  expires : Nat → Nat

/-- The first iteration from `now` on in which `timer_jiffies` is `expires`. -/
def firstAt (now expires : Nat) : Nat := now + ulong ((expires : Int) - now)

/-- The iteration in which a timer that is added now is to run: the first in which `timer_jiffies`
is `expires`, or the next one if that time has passed. -/
def dueAt (now expires : Nat) : Nat :=
  if 0 ≤ long ((expires : Int) - now) then firstAt now expires else now

variable {tv : Level} {expires now due : Nat}

theorem firstAt_mod (now : Nat) (h : expires < 2 ^ 32) :
    firstAt now expires % 2 ^ 32 = expires := by
  unfold firstAt ulong
  omega

/-- What `dueAt` is, with `timer_jiffies` for the time. -/
theorem dueAt_spec (now : Nat) (h : expires < 2 ^ 32) :
    (0 ≤ long ((expires : Int) - (now % 2 ^ 32 : Nat)) →
      IsLeast (fun n => now ≤ n ∧ n % 2 ^ 32 = expires) (dueAt now expires)) ∧
    (long ((expires : Int) - (now % 2 ^ 32 : Nat)) < 0 → dueAt now expires = now) := by
  have hlong : long ((expires : Int) - (now % 2 ^ 32 : Nat)) = long ((expires : Int) - now) := by
    unfold long
    omega
  rw [hlong]
  refine ⟨fun hpos => ?_, fun hneg => if_neg (not_le.mpr hneg)⟩
  rw [dueAt, if_pos hpos]
  refine ⟨⟨Nat.le_add_right .., firstAt_mod now h⟩, fun n hn => ?_⟩
  obtain ⟨hle, hmod⟩ := hn
  unfold firstAt ulong
  omega

namespace Agenda

/-- A call of `mod_timer` does nothing if the timer is pending with this time already, and one of
`mod_timer_pending` if it is not pending. -/
def Ignores (a : Agenda) (timer expires : Nat) (pendingOnly : Bool) : Prop :=
  if a.due timer = none then pendingOnly = true
  else pendingOnly = false ∧ a.expires timer = expires
  deriving Decidable

def add (a : Agenda) (timer expires : Nat) : Agenda :=
  { a with
    due := Function.update a.due timer (some (dueAt a.now expires))
    expires := Function.update a.expires timer expires }

def after (a : Agenda) : Event → Agenda
  | .modified timer expires _ pendingOnly =>
    if a.Ignores timer expires pendingOnly then a else a.add timer expires
  | .deleted timer | .ran timer => { a with due := Function.update a.due timer none }
  | .iteration _ => { a with now := a.now + 1 }

/-- The agenda allows an event. A timer is run only in the iteration that it is due in, and no
iteration begins before the timers of the one before are done. -/
def Allows (a : Agenda) : Event → Prop
  | .modified _ expires timerJiffies _ => expires < 2 ^ 32 ∧ timerJiffies = a.now % 2 ^ 32
  | .deleted _ => True
  | .iteration timerJiffies => timerJiffies = a.now % 2 ^ 32 ∧ ∀ timer n, a.due timer = some n →
      a.now ≤ n
  | .ran timer => ∃ n, a.due timer = some n ∧ a.now = n + 1

end Agenda

/-- The agenda after these events, of which the last comes first. -/
def agenda (jiffies : Nat) : List Event → Agenda
  | [] => ⟨ulong jiffies, fun _ => none, fun _ => 0⟩
  | e :: log => (agenda jiffies log).after e

/-- All events were allowed when they happened. -/
def Allowed (jiffies : Nat) : List Event → Prop
  | [] => True
  | e :: log => (agenda jiffies log).Allows e ∧ Allowed jiffies log

theorem Allowed.of_suffix {jiffies : Nat} {log older : List Event} {e : Event}
    (h : Allowed jiffies log) (hsuffix : e :: older <:+ log) : (agenda jiffies older).Allows e := by
  induction log with
  | nil => cases suffix_nil.mp hsuffix
  | cons e' log ih =>
    rcases suffix_cons_iff.mp hsuffix with heq | hsuffix
    · cases heq
      exact h.1
    · exact ih h.2 hsuffix

/-! ## Where the wheel has its timers -/

/-- The `expires` of a timer that is due at `due`. A time that has passed is only found in a timer
that is due now. -/
def Tells (now due expires : Nat) : Prop :=
  expires < 2 ^ 32 ∧ due < now + 2 ^ 31 ∧
    (expires = due % 2 ^ 32 ∨ due = now ∧ long ((expires : Int) - now) < 0)

theorem Tells.tick {n : Nat} (h : Tells now n expires) (hlt : now < n) :
    Tells (now + 1) n expires := by
  obtain ⟨hexpires, hnear, htells⟩ := h
  exact ⟨hexpires, by omega, htells.imp_right fun hpast => by omega⟩

theorem tells_dueAt (now : Nat) (h : expires < 2 ^ 32) : Tells now (dueAt now expires) expires := by
  unfold dueAt
  split
  next hpos =>
    refine ⟨h, ?_, .inl (firstAt_mod now h).symm⟩
    unfold firstAt
    unfold long at hpos
    unfold ulong
    omega
  next hneg => exact ⟨h, by omega, .inr ⟨rfl, by omega⟩⟩

theorem le_dueAt (now expires : Nat) : now ≤ dueAt now expires := by
  unfold dueAt firstAt
  split <;> omega

/-- A time that has passed is only found in the first vector. -/
def Level.Tells (tv : Level) (now due expires : Nat) : Prop :=
  Timer.Tells now due expires ∧ (tv = .tv1 ∨ expires = due % 2 ^ 32)

/-- A timer in a bucket of the wheel. -/
def Level.Placed (tv : Level) (now i due : Nat) : Prop := Wheel.Placed tv.shift tv.bits now i due

/-- How far ahead `internal_add_timer` finds the timer. -/
theorem Tells.idx (h : Tells now due expires) (hle : now ≤ due) :
    let idx := ulong ((expires : Int) - (now % 2 ^ 32 : Nat))
    expires = due % 2 ^ 32 ∧ idx = due - now ∧ 0 ≤ long idx ∨ due = now ∧ 2 ^ 31 ≤ idx ∧
      long idx < 0 := by
  obtain ⟨hexpires, hnear, heq | ⟨hnow, hpast⟩⟩ := h
  · left
    unfold ulong long
    omega
  · right
    unfold long at hpast
    unfold ulong long
    omega

theorem placed_tv1 (hle : now ≤ due) (hnear : due < now + tvrSize) :
    Level.tv1.Placed now (due % tvrSize) due where
  slot := by rw [Wheel.slot, Level.shift, pow_zero, Nat.div_one]; rfl
  ahead := by rw [Level.shift, Wheel.turn_zero]; exact hle
  near := by rw [Level.shift]; exact hnear

/-- A timer so far ahead that its bucket in the vector does not come round now. -/
theorem Level.placed_of_far (hfar : 2 ^ tv.shift ≤ due - now)
    (hnear : due - now < 2 ^ (tv.shift + tv.bits)) (hwidth : tv.shift + tv.bits ≤ 32) :
    tv.Placed now (due % 2 ^ 32 / 2 ^ tv.shift % 2 ^ tv.bits) due ∧
      (tv = .tv1 ∨ now < Wheel.turn tv.shift due ∧ due % 2 ^ 32 = due % 2 ^ 32) := by
  have hfar : now + 2 ^ tv.shift ≤ due := by
    have := Nat.two_pow_pos tv.shift
    omega
  have hnear : due < now + 2 ^ (tv.shift + tv.bits) := by omega
  have hslot := Wheel.slot_mod hwidth due
  rw [Wheel.slot] at hslot
  rw [hslot]
  exact ⟨Wheel.placed_of_far hfar hnear, .inr ⟨Wheel.lt_turn hfar, rfl⟩⟩

/-- The bucket that `internal_add_timer` selects is right. Except in the first vector, it does not
come round now and the time is ahead. -/
theorem placed_bucket (htells : Tells now due expires) (hle : now ≤ due) {i : Nat}
    (hbucket : TvecBase.bucket (now % 2 ^ 32) expires = (tv, i)) :
    tv.Placed now i due ∧ (tv = .tv1 ∨ now < Wheel.turn tv.shift due ∧ expires = due % 2 ^ 32) := by
  have hidx := htells.idx hle
  unfold TvecBase.bucket at hbucket
  simp only at hbucket
  generalize ulong ((expires : Int) - (now % 2 ^ 32 : Nat)) = idx at hidx hbucket
  rcases hidx with ⟨rfl, rfl, hpos⟩ | ⟨rfl, hbig, hneg⟩
  · -- The time is ahead: the vector is that for the distance.
    split at hbucket
    next hlt =>
      cases hbucket
      rw [Nat.mod_mod_of_dvd _ (by decide)]
      exact ⟨placed_tv1 hle (by omega), .inl rfl⟩
    next h1 =>
      split at hbucket
      next h2 =>
        cases hbucket
        exact @Level.placed_of_far .tv2 _ _ (Nat.not_lt.mp h1) h2 (by decide)
      next h2 =>
        split at hbucket
        next h3 =>
          cases hbucket
          exact @Level.placed_of_far .tv3 _ _ (Nat.not_lt.mp h2) h3 (by decide)
        next h3 =>
          split at hbucket
          next h4 =>
            cases hbucket
            exact @Level.placed_of_far .tv4 _ _ (Nat.not_lt.mp h3) h4 (by decide)
          next h4 =>
            rw [if_neg (not_lt.mpr hpos)] at hbucket
            cases hbucket
            have hnear := htells.2.1
            exact @Level.placed_of_far .tv5 _ _ (Nat.not_lt.mp h4)
              (Nat.lt_of_lt_of_le (by omega : due - now < 2 ^ 31) (by decide)) (by decide)
  · -- The time has passed: it is the bucket that comes round now.
    have hfar : ∀ k ≤ 26, ¬idx < 2 ^ k := fun k hk =>
      Nat.not_lt.mpr ((Nat.pow_le_pow_right (by decide) (hk.trans (by decide))).trans hbig)
    have hroot : ¬idx < tvrSize := hfar tvrBits (by decide)
    rw [if_neg hroot, if_neg (hfar (tvrBits + tvnBits) (by decide)),
      if_neg (hfar (tvrBits + 2 * tvnBits) (by decide)),
      if_neg (hfar (tvrBits + 3 * tvnBits) (by decide)), if_pos hneg] at hbucket
    cases hbucket
    rw [Nat.mod_mod_of_dvd _ (by decide)]
    exact ⟨placed_tv1 hle (Nat.lt_add_of_pos_right (by decide)), .inl rfl⟩

/-! ## Lists of the wheel -/

namespace TvecBase

variable {base : TvecBase} {timer u i : Nat} {expires : Nat → Nat} {place : Level × Nat}
  {tv : Level}

/-- The timer is in a bucket. -/
def Holds (base : TvecBase) (timer : Nat) : Prop := ∃ tv i, timer ∈ base.vec tv i

theorem mem_addTail :
    u ∈ (base.addTail place timer).vec tv i ↔ u ∈ base.vec tv i ∨ (tv, i) = place ∧ u = timer := by
  unfold addTail
  simp only
  split
  next h => rw [mem_append, mem_singleton, and_iff_right h]
  next h => rw [or_iff_left fun hp => h hp.1]

theorem mem_replaceInit :
    u ∈ (base.replaceInit place).vec tv i ↔ u ∈ base.vec tv i ∧ (tv, i) ≠ place := by
  unfold replaceInit
  simp only
  split
  next h => simp [h]
  next h => rw [and_iff_left h]

theorem mem_unlink : u ∈ (base.unlink timer).vec tv i ↔ u ∈ base.vec tv i ∧ u ≠ timer := by
  unfold unlink
  simp only [mem_filter, decide_eq_true_eq]

theorem holds_addTail : (base.addTail place timer).Holds u ↔ base.Holds u ∨ u = timer := by
  unfold Holds
  simp only [mem_addTail]
  constructor
  · rintro ⟨tv, i, h | ⟨-, h⟩⟩
    · exact .inl ⟨tv, i, h⟩
    · exact .inr h
  · rintro (⟨tv, i, h⟩ | h)
    · exact ⟨tv, i, .inl h⟩
    · exact ⟨place.1, place.2, .inr ⟨rfl, h⟩⟩

theorem holds_addAll (timers : List Nat) :
    (addAll expires base timers).Holds u ↔ base.Holds u ∨ u ∈ timers := by
  induction timers generalizing base with
  | nil => simp [addAll]
  | cons timer rest ih =>
    have hrest : (addAll expires base (timer :: rest)).Holds u ↔
        (base.internalAddTimer (expires timer) timer).Holds u ∨ u ∈ rest := ih
    rw [hrest, internalAddTimer, holds_addTail, mem_cons, or_assoc]

theorem timerJiffies_addAll (timers : List Nat) :
    (addAll expires base timers).timerJiffies = base.timerJiffies := by
  induction timers generalizing base with
  | nil => rfl
  | cons timer rest ih => exact ih

theorem holds_cascade (tv : Level) (index : Nat) :
    (base.cascade expires tv index).Holds u ↔ base.Holds u := by
  rw [cascade, holds_addAll]
  constructor
  · rintro (⟨tv', i, h⟩ | h)
    · exact ⟨tv', i, (mem_replaceInit.mp h).1⟩
    · exact ⟨tv, index, h⟩
  · rintro ⟨tv', i, h⟩
    by_cases hplace : (tv', i) = (tv, index)
    · cases hplace
      exact .inr h
    · exact .inl ⟨tv', i, mem_replaceInit.mpr ⟨h, hplace⟩⟩

theorem timerJiffies_cascade (tv : Level) (index : Nat) :
    (base.cascade expires tv index).timerJiffies = base.timerJiffies :=
  timerJiffies_addAll (base.vec tv index)

theorem cascadeFrom_same (levels : List Level) :
    ((cascadeFrom expires levels base).Holds u ↔ base.Holds u) ∧
      (cascadeFrom expires levels base).timerJiffies = base.timerJiffies := by
  induction levels generalizing base with
  | nil => exact ⟨.rfl, rfl⟩
  | cons tv rest ih =>
    rw [cascadeFrom, ← @holds_cascade base u expires tv (base.index tv),
      ← @timerJiffies_cascade base expires tv (base.index tv)]
    split
    · exact ih
    · exact ⟨.rfl, rfl⟩

theorem cascadeTimers_same : ((base.cascadeTimers expires).Holds u ↔ base.Holds u) ∧
    (base.cascadeTimers expires).timerJiffies = base.timerJiffies := by
  unfold cascadeTimers
  split
  · exact cascadeFrom_same _
  · exact ⟨.rfl, rfl⟩

/-! ## Cascading -/

/-- Each timer in a bucket is where it should be. The vectors that are done do not come round
now any more. -/
def Filed (base : TvecBase) (a : Agenda) (expires : Nat → Nat) (done : Level → Prop) : Prop :=
  ∀ tv i, ∀ u ∈ base.vec tv i, ∃ n, a.due u = some n ∧ tv.Placed a.now i n ∧
    tv.Tells a.now n (expires u) ∧ (done tv → a.now < Wheel.turn tv.shift n)

variable {a : Agenda} {done : Level → Prop} {n : Nat}

/-- `INDEX` is the bucket of the time. -/
theorem index_eq (hj : base.timerJiffies = a.now % 2 ^ 32) (tv : Level) :
    base.index tv = Wheel.slot tv.shift tv.bits a.now := by
  have hwidth : tv.shift + tv.bits ≤ 32 := by cases tv <;> decide
  rw [index, hj, ← Wheel.slot_mod hwidth, Wheel.slot]

section

variable (h : Filed base a expires done) (hj : base.timerJiffies = a.now % 2 ^ 32)

include h hj

theorem Filed.replaceInit (tv : Level) :
    Filed (base.replaceInit (tv, base.index tv)) a expires fun l => done l ∨ l = tv := by
  intro tv' i u hu
  obtain ⟨hmem, hplace⟩ := mem_replaceInit.mp hu
  obtain ⟨n, hdue, hplaced, htells, hdone⟩ := h tv' i u hmem
  refine ⟨n, hdue, hplaced, htells, fun hd => ?_⟩
  rcases hd with hd | rfl
  · exact hdone hd
  · refine hplaced.lt_turn_of_slot fun hi => hplace ?_
    rw [hi, index_eq hj]

/-- `internal_add_timer` never adds to a bucket that comes round now, except in the first
vector. -/
theorem Filed.add (hroot : ¬done .tv1) (hdue : a.due timer = some n) (hle : a.now ≤ n)
    (htells : Tells a.now n (expires timer)) :
    Filed (base.internalAddTimer (expires timer) timer) a expires done := by
  intro tv i u hu
  rcases mem_addTail.mp hu with hu | ⟨hplace, rfl⟩
  · exact h tv i u hu
  · rw [hj] at hplace
    obtain ⟨hplaced, hahead⟩ := placed_bucket htells hle hplace.symm
    refine ⟨n, hdue, hplaced, ⟨htells, hahead.imp_right And.right⟩, fun hd => ?_⟩
    exact (hahead.resolve_left fun htv => hroot (htv ▸ hd)).1

theorem Filed.addAll (hroot : ¬done .tv1) {timers : List Nat}
    (htimers : ∀ u ∈ timers, ∃ n, a.due u = some n ∧ a.now ≤ n ∧ Tells a.now n (expires u)) :
    Filed (addAll expires base timers) a expires done := by
  induction timers generalizing base with
  | nil => exact h
  | cons timer rest ih =>
    obtain ⟨n, hdue, hle, htells⟩ := htimers timer mem_cons_self
    have hadded := h.add hj hroot hdue hle htells
    exact ih hadded hj fun u hu => htimers u (mem_cons_of_mem timer hu)

theorem Filed.cascade (hroot : ¬done .tv1) {tv : Level} (htv : tv ≠ .tv1) :
    Filed (base.cascade expires tv (base.index tv)) a expires fun l => done l ∨ l = tv := by
  refine (h.replaceInit hj tv).addAll hj (fun hd => hd.elim hroot (htv ·.symm)) fun u hu => ?_
  obtain ⟨n, hdue, hplaced, htells, -⟩ := h tv _ u hu
  exact ⟨n, hdue, hplaced.le, htells.1⟩

end

/-- A vector whose width does not divide the time does not come round now. -/
theorem Filed.done_of_not_dvd (h : Filed base a expires done) {levels : List Level}
    (hnot : ∀ tv ∈ levels, ¬2 ^ tv.shift ∣ a.now) :
    Filed base a expires fun l => done l ∨ l ∈ levels := by
  intro tv i u hu
  obtain ⟨n, hdue, hplaced, htells, hdone⟩ := h tv i u hu
  refine ⟨n, hdue, hplaced, htells, fun hd => ?_⟩
  rcases hd with hd | hd
  · exact hdone hd
  · exact Nat.lt_of_le_of_ne hplaced.ahead fun heq => hnot tv hd (heq ▸ Wheel.dvd_turn tv.shift n)

theorem Filed.mono (h : Filed base a expires done) {done' : Level → Prop}
    (hmono : ∀ l, done' l → done l) : Filed base a expires done' := by
  intro tv i u hu
  obtain ⟨n, hdue, hplaced, htells, hdone⟩ := h tv i u hu
  exact ⟨n, hdue, hplaced, htells, fun hd => hdone (hmono tv hd)⟩

/-- The vectors are cascaded as long as the indices are zero: then the next one comes round too, and
otherwise none of those that follow. -/
theorem Filed.cascadeFrom {rest : List Level} (h : Filed base a expires done)
    (hj : base.timerJiffies = a.now % 2 ^ 32) (hroot : ¬done .tv1)
    (hbits : ∀ l ∈ tv :: rest, l ≠ .tv1 ∧ l.bits = tvnBits)
    (hchain : (tv :: rest).IsChain fun l l' => l'.shift = l.shift + tvnBits)
    (hfar : (tv :: rest).Pairwise fun l l' => l.shift + tvnBits ≤ l'.shift)
    (hdvd : 2 ^ tv.shift ∣ a.now) :
    Filed (cascadeFrom expires (tv :: rest) base) a expires fun l => done l ∨ l ∈ tv :: rest := by
  induction rest generalizing tv base done with
  | nil =>
    have hcascaded := h.cascade hj hroot (hbits tv mem_cons_self).1
    rw [TvecBase.cascadeFrom, TvecBase.cascadeFrom, ite_self]
    exact hcascaded.mono fun l hl => hl.imp_right mem_singleton.mp
  | cons next rest ih =>
    obtain ⟨htv, htvbits⟩ := hbits tv mem_cons_self
    have hcascaded := h.cascade hj hroot htv
    have hzero := @Wheel.slot_eq_zero_iff tv.shift tv.bits a.now hdvd
    rw [← index_eq hj, htvbits] at hzero
    rw [TvecBase.cascadeFrom]
    split
    next hindex =>
      have hnext : 2 ^ next.shift ∣ a.now := by
        rw [(isChain_cons_cons.mp hchain).1]
        exact hzero.mp hindex
      have hrest := ih hcascaded (by rw [timerJiffies_cascade, hj])
        (fun hd => hd.elim hroot (htv ·.symm))
        (fun l hl => hbits l (mem_cons_of_mem tv hl)) (isChain_cons_cons.mp hchain).2
        (pairwise_cons.mp hfar).2 hnext
      refine hrest.mono fun l hl => ?_
      rw [mem_cons, ← or_assoc] at hl
      exact hl
    next hindex =>
      have hnot : ∀ l ∈ next :: rest, ¬2 ^ l.shift ∣ a.now := fun l hl hl' =>
        hindex (hzero.mpr ((pow_dvd_pow 2 ((pairwise_cons.mp hfar).1 l hl)).trans hl'))
      refine (hcascaded.done_of_not_dvd hnot).mono fun l hl => ?_
      rw [mem_cons, ← or_assoc] at hl
      exact hl

/-- After `__run_timers` has cascaded, only buckets of the first vector come round now. -/
theorem Filed.cascadeTimers (h : Filed base a expires fun _ => False)
    (hj : base.timerJiffies = a.now % 2 ^ 32) :
    Filed (base.cascadeTimers expires) a expires fun l => l ≠ .tv1 := by
  have hlevels : ∀ l : Level, l ≠ .tv1 → l ∈ [Level.tv2, .tv3, .tv4, .tv5] := by
    intro l hl
    cases l <;> simp_all
  have hzero := @Wheel.slot_eq_zero_iff Level.tv1.shift Level.tv1.bits a.now (Nat.one_dvd _)
  rw [← index_eq hj] at hzero
  unfold TvecBase.cascadeTimers
  split
  next hindex =>
    have hall := @Filed.cascadeFrom base expires .tv2 a (fun _ => False) [.tv3, .tv4, .tv5] h hj id
      (by decide) (by decide) (by decide) (hzero.mp hindex)
    exact hall.mono fun l hl => .inr (hlevels l hl)
  next hindex =>
    have hwide : ∀ l ∈ [Level.tv2, .tv3, .tv4, .tv5],
        Level.tv1.shift + Level.tv1.bits ≤ l.shift := by decide
    have hnot : ∀ l ∈ [Level.tv2, .tv3, .tv4, .tv5], ¬2 ^ l.shift ∣ a.now := fun l hl hl' =>
      hindex (hzero.mpr (dvd_trans (pow_dvd_pow 2 (hwide l hl)) hl'))
    exact (h.done_of_not_dvd hnot).mono fun l hl => .inr (hlevels l hl)

end TvecBase

end AndroidKernel.Timer
