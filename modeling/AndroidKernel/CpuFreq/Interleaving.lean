import AndroidKernel.CpuFreq.HighLock

/-!
# Overlapping locks and unlocks

`s5pc110_lock_dvfs_high_level` and `s5pc110_unlock_dvfs_high_level` work on three shared
variables, the token word, the levels of the tokens and the limit, and the calls of the
mutex that should keep them apart are commented out. Here the calls of several drivers, each
with a token of its own, run one load or store at a time and in any order.

Two calls that load the token word before either has stored it lose a bit. As long as no
call loads it for an update while another one is between its own load and its last store,
the word and the limit are right as soon as all calls have finished.
-/

namespace AndroidKernel.CpuFreq

open Function List Option

/-! ## The calls, one access at a time -/

/-- Where a call stands: the access it makes next, with what it has loaded for it. -/
inductive Stage
  | idle
  /-- The load that only decides about a message. -/
  | lockCheck (freqLevel : FreqLevel) (nLevel : Nat)
  | lockLoad (freqLevel : FreqLevel) (nLevel : Nat)
  | lockStore (nLevel : Nat) (token : BitVec 32)
  | lockVal (nLevel : Nat)
  | lockLimit (nLevel : Nat)
  | lockLower (nLevel : Nat)
  /-- `set_dvfs_perf_level`, which has a spin lock of its own. -/
  | lockPerf (nLevel : Nat)
  | unlockLoad
  | unlockStore (token : BitVec 32)
  | unlockVal
  | unlockLimit
  | unlockTest
  /-- The loop of the unlock: a level is loaded, compared with the limit, and loaded once
  more to be stored. -/
  | loopVal (i : LockToken)
  | loopLimit (i : LockToken) (val : Nat)
  | loopAgain (i : LockToken)
  | loopLower (i : LockToken) (val : Nat)
  deriving DecidableEq

namespace Stage

/-- The next round of the loop, or its end. -/
def loopNext (i : LockToken) : Stage :=
  if h : i.val + 1 < 9 then .loopVal ⟨i.val + 1, h⟩ else .idle

/-- One access of the driver with token `t`. -/
def exec (d : Dvfs) (t : LockToken) : Stage → Dvfs × Stage
  | idle => (d, idle)
  | lockCheck l n => (d, lockLoad l n)
  | lockLoad _ n => (d, lockStore n d.highLockToken)
  | lockStore n token => ({ d with highLockToken := token ||| 1#32 <<< t.val }, lockVal n)
  | lockVal n => ({ d with dvfslockval := update d.dvfslockval t n }, lockLimit n)
  | lockLimit n => (d, if n < d.highLockLimit then lockLower n else lockPerf n)
  | lockLower n => ({ d with highLockLimit := n }, lockPerf n)
  | lockPerf n => (d.setDvfsPerfLevel n, idle)
  | unlockLoad => (d, unlockStore d.highLockToken)
  | unlockStore token => ({ d with highLockToken := token &&& ~~~(1#32 <<< t.val) }, unlockVal)
  | unlockVal =>
    ({ d with dvfslockval := update d.dvfslockval t (maxfreqLevelSupported - 1) },
      unlockLimit)
  | unlockLimit => ({ d with highLockLimit := maxfreqLevelSupported - 1 }, unlockTest)
  | unlockTest => (d, if d.highLockToken ≠ 0#32 then loopVal 0 else idle)
  | loopVal i => (d, loopLimit i (d.dvfslockval i))
  | loopLimit i val => (d, if val < d.highLockLimit then loopAgain i else loopNext i)
  | loopAgain i => (d, loopLower i (d.dvfslockval i))
  | loopLower i val => ({ d with highLockLimit := val }, loopNext i)

/-- The token is taken or given back with the load of the token word. -/
def held (held : Holds) (t : LockToken) : Stage → Holds
  | lockLoad l _ => update held t (some l)
  | unlockLoad => update held t none
  | _ => held

/-- A call that is still before its load of the token word for an update. -/
def waiting : Stage → Bool
  | lockCheck _ _ | lockLoad _ _ | unlockLoad => true
  | _ => false

/-- A call that makes this load next. -/
def entering : Stage → Bool
  | lockLoad _ _ | unlockLoad => true
  | _ => false

/-- A call between this load and its last access to the three variables, which is where the
source has the calls of the mutex. -/
def inside : Stage → Bool
  | idle | lockCheck _ _ | lockLoad _ _ | lockPerf _ | unlockLoad => false
  | _ => true

end Stage

/-- The driver, the calls in progress and the tokens that are held. -/
structure Callers where
  dvfs : Dvfs
  stage : LockToken → Stage
  held : Holds
  called : Bool

namespace Callers

def init (behind : Nat → Int) : Callers := ⟨.init behind, fun _ => .idle, fun _ => none, false⟩

inductive Op
  | lock (nToken : LockToken) (freqLevel : FreqLevel)
  | unlock (nToken : LockToken)
  | run (nToken : LockToken)

variable (s : Callers) (t : LockToken) (stage : Stage)

def start : Callers :=
  { s with stage := update s.stage t stage, called := true }

def run : Callers where
  dvfs := ((s.stage t).exec s.dvfs t).1
  stage := update s.stage t ((s.stage t).exec s.dvfs t).2
  held := (s.stage t).held s.held t
  called := s.called

def step : Op → Option Callers
  | .lock t l =>
    if s.stage t = .idle then
      some ((getDvfsPerfLevel l).elim s fun perfLevel =>
        s.start t (.lockCheck l (Dvfs.lockLevel t perfLevel)))
    else none
  | .unlock t => if s.stage t = .idle then some (s.start t .unlockLoad) else none
  | .run t => if s.stage t = .idle then none else some (s.run t)

/-- A token is not locked again while it is held. -/
def Allowed : Op → Prop
  | .lock t _ => s.held t = none
  | _ => True

instance (s : Callers) (op : Op) : Decidable (s.Allowed op) := by
  unfold Allowed
  split <;> infer_instance

/-- No call is inside when another one loads the token word for an update, and the
launcher's token is not locked at the fastest level. -/
def Exclusive : Op → Prop
  | .lock t l => s.held t = none ∧ ¬(t = dvfsLockToken6 ∧ l = .lev1400MHZ)
  | .unlock _ => True
  | .run t => (s.stage t).entering = true → ∀ t', (s.stage t').inside = false

instance (s : Callers) (op : Op) : Decidable (s.Exclusive op) := by
  unfold Exclusive
  split <;> infer_instance

end Callers

/-! ## What is left to do of a call -/

variable (lockval : LockToken → Nat) (i : LockToken) (limit : Nat)

/-- The rest of the loop from token `i` on. -/
def lowestFrom (i limit : Nat) : Nat :=
  ((finRange 9).drop i).foldl (fun limit i => if lockval i < limit then lockval i else limit)
    limit

theorem lowestFrom_step : lowestFrom lockval i limit = lowestFrom lockval (i + 1)
    (if lockval i < limit then lockval i else limit) := by
  have hlen : i.val < (finRange 9).length := by
    exact i.isLt
  unfold lowestFrom
  rw [drop_eq_getElem_cons hlen, List.getElem_finRange]
  rfl

namespace Stage

variable (d : Dvfs) (t : LockToken) (x : Stage)

/-- The three variables once a call that is inside has made its last access to them, if no
other call does anything. -/
def complete : Stage → Dvfs
  | lockStore n token =>
    { d with
      highLockToken := token ||| 1#32 <<< t.val
      dvfslockval := update d.dvfslockval t n
      highLockLimit := if n < d.highLockLimit then n else d.highLockLimit }
  | lockVal n =>
    { d with
      dvfslockval := update d.dvfslockval t n
      highLockLimit := if n < d.highLockLimit then n else d.highLockLimit }
  | lockLimit n =>
    { d with highLockLimit := if n < d.highLockLimit then n else d.highLockLimit }
  | lockLower n => { d with highLockLimit := n }
  | unlockStore token =>
    { d with
      highLockToken := token &&& ~~~(1#32 <<< t.val)
      dvfslockval := update d.dvfslockval t 9
      highLockLimit :=
        if token &&& ~~~(1#32 <<< t.val) ≠ 0#32 then
          lowestFrom (update d.dvfslockval t 9) 0 9
        else 9 }
  | unlockVal =>
    { d with
      dvfslockval := update d.dvfslockval t 9
      highLockLimit :=
        if d.highLockToken ≠ 0#32 then lowestFrom (update d.dvfslockval t 9) 0 9 else 9 }
  | unlockLimit =>
    { d with
      highLockLimit := if d.highLockToken ≠ 0#32 then lowestFrom d.dvfslockval 0 9 else 9 }
  | unlockTest =>
    { d with
      highLockLimit :=
        if d.highLockToken ≠ 0#32 then lowestFrom d.dvfslockval 0 d.highLockLimit
        else d.highLockLimit }
  | loopVal i => { d with highLockLimit := lowestFrom d.dvfslockval i d.highLockLimit }
  | loopLimit i val =>
    { d with
      highLockLimit := lowestFrom d.dvfslockval (i + 1)
        (if val < d.highLockLimit then d.dvfslockval i else d.highLockLimit) }
  | loopAgain i =>
    { d with highLockLimit := lowestFrom d.dvfslockval (i + 1) (d.dvfslockval i) }
  | loopLower i val => { d with highLockLimit := lowestFrom d.dvfslockval (i + 1) val }
  | idle | lockCheck _ _ | lockLoad _ _ | lockPerf _ | unlockLoad => d

theorem complete_loopNext (i : LockToken) : (loopNext i).complete d t =
    { d with highLockLimit := lowestFrom d.dvfslockval (i + 1) d.highLockLimit } := by
  unfold loopNext
  split
  next => rfl
  next h =>
    have hi : i.val + 1 = 9 := by omega
    rw [hi]
    rfl

/-- An access of a call that is inside leaves it with that much less to do. -/
theorem complete_exec {x : Stage} (h : x.inside = true) :
    (x.exec d t).2.complete (x.exec d t).1 t = x.complete d t := by
  cases x with
  | idle | lockCheck _ _ | lockLoad _ _ | lockPerf _ | unlockLoad => cases h
  | lockStore | lockVal | lockLower | unlockStore | unlockVal | unlockLimit | loopAgain => rfl
  | lockLimit n =>
    by_cases hlt : n < d.highLockLimit
    · simp only [exec, complete, if_pos hlt]
    · simp only [exec, complete, if_neg hlt]
  | unlockTest =>
    by_cases htoken : d.highLockToken ≠ 0#32
    · simp only [exec, complete, if_pos htoken]
      rfl
    · simp only [exec, complete, if_neg htoken]
  | loopVal i =>
    rw [complete, lowestFrom_step d.dvfslockval i]
    rfl
  | loopLimit i val =>
    by_cases hlt : val < d.highLockLimit
    · simp only [exec, complete, if_pos hlt]
    · rw [exec, complete, if_neg hlt, if_neg hlt]
      exact complete_loopNext d t i
  | loopLower i val => exact complete_loopNext _ t i

/-- A call that is outside has nothing left to do with the three variables. -/
theorem complete_of_outside {x : Stage} (h : x.inside = false) : x.complete d t = d := by
  cases x with
  | idle | lockCheck _ _ | lockLoad _ _ | lockPerf _ | unlockLoad => rfl
  | _ => cases h

/-- The index of the current level plays no part in it. -/
theorem complete_index (i : Nat) :
    x.complete { d with cpufreqIndex := i } t = { x.complete d t with cpufreqIndex := i } := by
  cases x <;> rfl

end Stage

/-! ## The invariant -/

theorem Locks.set_index {d : Dvfs} {held : Holds} (h : Locks d held) (i : Nat) :
    Locks { d with cpufreqIndex := i } held := h.congr rfl rfl rfl

/-- The limit is the lowest level of a token that is held. -/
theorem Locks.isLeast_held {d : Dvfs} {held : Holds} (h : Locks d held)
    (hheld : ∃ t, held t ≠ none) :
    IsLeast {n | ∃ t l, held t = some l ∧ floorLevel t l = n} d.highLockLimit := by
  refine ⟨?_, fun n ⟨t, l, ht, hn⟩ => hn ▸ h.limit_le ht⟩
  obtain ⟨t, ht⟩ := (h.least hheld).1
  cases hl : held t with
  | some l =>
    rw [lockvals, hl] at ht
    exact ⟨t, l, hl, ht⟩
  | none =>
    -- the limit is the slowest level, and so is every level that is locked
    rw [lockvals_of_none hl] at ht
    obtain ⟨t', ht'⟩ := hheld
    obtain ⟨l', hl'⟩ := ne_none_iff_exists'.mp ht'
    have hle := h.limit_le hl'
    have := floorLevel_le t' l'
    exact ⟨t', l', hl', by omega⟩

namespace Callers

variable {s s' : Callers} {t : LockToken} {op : Op} {d : Dvfs} {x : Stage} {l : FreqLevel} {n : Nat}
  {behind : Nat → Int}

/-- What holds of the three variables when no call is inside. -/
structure Settled (s : Callers) (d : Dvfs) : Prop where
  locks : Locks d s.held
  limit : s.called = true → (∃ t, (s.stage t).waiting = true) ∨ d.highLockLimit ≤ 9

structure Inv (s : Callers) : Prop where
  exclusive : ∀ t t', (s.stage t).inside = true → (s.stage t').inside = true → t = t'
  inside : ∀ t, (s.stage t).inside = true → s.Settled ((s.stage t).complete s.dvfs t)
  outside : (∀ t, (s.stage t).inside = false) → s.Settled s.dvfs
  free : ∀ t l n, s.stage t = .lockCheck l n ∨ s.stage t = .lockLoad l n →
    s.held t = none ∧ n = floorLevel t l

theorem inv_init (behind : Nat → Int) : (init behind).Inv where
  exclusive _ _ h _ := nomatch h
  inside _ h := nomatch h
  outside _ := ⟨Locks.init behind, nofun⟩
  free _ _ _ h := by rcases h with h | h <;> cases h

theorem outside_of_waiting (h : x.waiting = true) : x.inside = false := by
  cases x with
  | lockCheck _ _ | lockLoad _ _ | unlockLoad => rfl
  | _ => cases h

/-- What an access of a call that is inside leaves it at. -/
theorem exec_inside (d : Dvfs) (t : LockToken) (h : x.inside = true) :
    (x.exec d t).2.waiting = false := by
  cases x with
  | idle | lockCheck _ _ | lockLoad _ _ | lockPerf _ | unlockLoad => cases h
  | lockLimit n | unlockTest =>
    rw [Stage.exec]
    split <;> rfl
  | loopLimit i val =>
    rw [Stage.exec, Stage.loopNext]
    split
    · rfl
    · split <;> rfl
  | loopLower i val =>
    rw [Stage.exec, Stage.loopNext]
    split <;> rfl
  | _ => rfl

theorem held_of_inside (held : Holds) (t : LockToken) (h : x.inside = true) :
    x.held held t = held := by
  cases x with
  | idle | lockCheck _ _ | lockLoad _ _ | lockPerf _ | unlockLoad => cases h
  | _ => rfl

section

variable (h : s.Inv)

include h

/-- Only the call with token `t` has made a step. -/
theorem Inv.of_update (hstage : s'.stage = update s.stage t x)
    (hheld : ∀ t', t' ≠ t → s'.held t' = s.held t')
    (hfree : ∀ l n, x = .lockCheck l n ∨ x = .lockLoad l n → s'.held t = none ∧ n = floorLevel t l)
    (halone : x.inside = true → ∀ t', t' ≠ t → (s.stage t').inside = false)
    (hin : x.inside = true → s'.Settled (x.complete s'.dvfs t))
    (hothers : ∀ t', t' ≠ t → (s.stage t').inside = true →
      s'.Settled ((s.stage t').complete s'.dvfs t'))
    (hout : x.inside = false → (∀ t', t' ≠ t → (s.stage t').inside = false) → s'.Settled s'.dvfs) :
    s'.Inv := by
  have hself : s'.stage t = x := by rw [hstage, update_self]
  have hother : ∀ t', t' ≠ t → s'.stage t' = s.stage t' := fun t' ht => by
    rw [hstage, update_of_ne ht]
  refine ⟨?_, ?_, ?_, ?_⟩
  · intro t₁ t₂ h₁ h₂
    by_cases e₁ : t₁ = t <;> by_cases e₂ : t₂ = t
    · exact e₁.trans e₂.symm
    · rw [e₁, hself] at h₁
      rw [hother t₂ e₂, halone h₁ t₂ e₂] at h₂
      cases h₂
    · rw [e₂, hself] at h₂
      rw [hother t₁ e₁, halone h₂ t₁ e₁] at h₁
      cases h₁
    · rw [hother t₁ e₁] at h₁
      rw [hother t₂ e₂] at h₂
      exact h.exclusive t₁ t₂ h₁ h₂
  · intro t' hin'
    by_cases e : t' = t
    · subst e
      rw [hself] at hin' ⊢
      exact hin hin'
    · rw [hother t' e] at hin' ⊢
      exact hothers t' e hin'
  · intro hall
    refine hout (hself ▸ hall t) fun t' e => ?_
    rw [← hother t' e]
    exact hall t'
  · intro t' l n hwait
    by_cases e : t' = t
    · subst e
      rw [hself] at hwait
      exact hfree l n hwait
    · rw [hother t' e] at hwait
      rw [hheld t' e]
      exact h.free t' l n hwait

/-- A call that is outside before and after its step. -/
theorem Inv.pass (hstage : s'.stage = update s.stage t x)
    (hdvfs : s'.dvfs = { s.dvfs with cpufreqIndex := n }) (hheld : s'.held = s.held)
    (hbefore : (s.stage t).inside = false) (hafter : x.inside = false)
    (hwait : x.waiting = true ∨ (s.stage t).waiting = false ∧ s'.called = s.called)
    (hfree : ∀ l n, x = .lockCheck l n ∨ x = .lockLoad l n → s.held t = none ∧ n = floorLevel t l) :
    s'.Inv := by
  have hsettled : ∀ {d}, s.Settled d → s'.Settled { d with cpufreqIndex := n } := by
    refine fun hd => ⟨hheld ▸ hd.locks.set_index n, fun hcalled => ?_⟩
    rcases hwait with hwait | ⟨hwait, hsame⟩
    · exact .inl ⟨t, by rwa [hstage, update_self]⟩
    · refine (hd.limit (hsame ▸ hcalled)).imp_left fun ⟨t', ht'⟩ => ⟨t', ?_⟩
      have e : t' ≠ t := by
        rintro rfl
        rw [hwait] at ht'
        cases ht'
      rwa [hstage, update_of_ne e]
  refine h.of_update hstage (fun _ _ => by rw [hheld]) (hheld ▸ hfree) ?_ ?_ ?_ ?_
  · rw [hafter]
    nofun
  · rw [hafter]
    nofun
  · intro t' _ hin
    rw [hdvfs, Stage.complete_index]
    exact hsettled (h.inside t' hin)
  · intro _ hall
    rw [hdvfs]
    refine hsettled (h.outside fun t' => ?_)
    by_cases e : t' = t
    · exact e ▸ hbefore
    · exact hall t' e

/-- A call that begins is waiting. -/
theorem inv_start (hidle : s.stage t = .idle) (hx : x.waiting = true)
    (hfree : ∀ l n, x = .lockCheck l n ∨ x = .lockLoad l n → s.held t = none ∧ n = floorLevel t l) :
    (s.start t x).Inv :=
  h.pass rfl rfl rfl (by rw [hidle]; rfl) (outside_of_waiting hx) (.inl hx) hfree

theorem inv_run_inside (hin : (s.stage t).inside = true) : (s.run t).Inv := by
  have halone : ∀ t', t' ≠ t → (s.stage t').inside = false := fun t' e => by
    cases hin' : (s.stage t').inside with
    | false => rfl
    | true => exact absurd (h.exclusive t' t hin' hin) e
  have hnot := exec_inside s.dvfs t hin
  have hheld : (s.run t).held = s.held := held_of_inside s.held t hin
  have hold := h.inside t hin
  have hsettled : (s.run t).Settled
      (((s.stage t).exec s.dvfs t).2.complete ((s.stage t).exec s.dvfs t).1 t) := by
    rw [Stage.complete_exec s.dvfs t hin]
    refine ⟨hheld ▸ hold.locks, fun hcalled => (hold.limit hcalled).imp_left ?_⟩
    rintro ⟨t', ht'⟩
    -- the call that waits is another one
    have e : t' ≠ t := by
      rintro rfl
      rw [outside_of_waiting ht'] at hin
      cases hin
    exact ⟨t', (congrArg Stage.waiting (update_of_ne e _ s.stage)).trans ht'⟩
  refine h.of_update rfl (fun t' _ => by rw [hheld]) ?_ (fun _ => halone) (fun _ => hsettled) ?_ ?_
  · rintro l n (e | e) <;> rw [e] at hnot <;> cases hnot
  · intro t' e hin'
    rw [halone t' e] at hin'
    cases hin'
  · intro hout _
    rwa [Stage.complete_of_outside _ t hout] at hsettled

/-- The load of the token word: from here on the call is inside. -/
theorem inv_run_enter {o : Option FreqLevel} (halone : ∀ t', (s.stage t').inside = false)
    (hexec : (s.stage t).exec s.dvfs t = (s.dvfs, x))
    (hheld : (s.stage t).held s.held t = update s.held t o) (hx : x.inside = true)
    (hsettled : ∀ s' : Callers, s'.held = update s.held t o → s'.Settled (x.complete s.dvfs t)) :
    (s.run t).Inv := by
  have hdvfs : (s.run t).dvfs = s.dvfs := congrArg Prod.fst hexec
  have hstage : (s.run t).stage = update s.stage t x := by rw [run, hexec]
  refine h.of_update hstage ?_ ?_ (fun _ t' _ => halone t') (fun _ => ?_) ?_ ?_
  · intro t' e
    exact (congrFun hheld t').trans (update_of_ne e _ _)
  · rintro l n (rfl | rfl) <;> cases hx
  · rw [hdvfs]
    exact hsettled _ hheld
  · intro t' _ hin
    rw [halone t'] at hin
    cases hin
  · rw [hx]
    nofun

theorem inv_run_perf (hstage : s.stage t = .lockPerf n) : (s.run t).Inv := by
  obtain ⟨i, -, hi⟩ := s.dvfs.setDvfsPerfLevel_eq n
  have hrun : s.run t = { s with
      dvfs := { s.dvfs with cpufreqIndex := i }, stage := update s.stage t .idle } := by
    rw [run, hstage, Stage.exec, hi]
    rfl
  rw [hrun]
  refine h.pass rfl rfl rfl ?_ rfl (.inr ⟨?_, rfl⟩) ?_
  · rw [hstage]
    rfl
  · rw [hstage]
    rfl
  · rintro l n (e | e) <;> cases e

theorem inv_run (hbusy : s.stage t ≠ .idle)
    (hexclusive : (s.stage t).entering = true → ∀ t', (s.stage t').inside = false) :
    (s.run t).Inv := by
  cases hstage : s.stage t with
  | idle => exact absurd hstage hbusy
  | lockCheck l n =>
    have hrun : s.run t = { s with stage := update s.stage t (.lockLoad l n) } := by
      rw [run, hstage]
      rfl
    rw [hrun]
    refine h.pass rfl rfl rfl ?_ rfl (.inl rfl) ?_
    · rw [hstage]
      rfl
    · rintro l' n' (e | e) <;> cases e
      exact h.free t l n (.inl hstage)
  | lockLoad l n =>
    have halone := hexclusive (by rw [hstage]; rfl)
    obtain ⟨hfree, rfl⟩ := h.free t l n (.inr hstage)
    refine inv_run_enter h halone (by rw [hstage]; rfl) (by rw [hstage]; rfl) rfl ?_
    refine fun _ hheld => ⟨hheld ▸ (h.outside halone).locks.taken hfree, fun _ => .inr ?_⟩
    have hlevel := floorLevel_le t l
    show (if floorLevel t l < s.dvfs.highLockLimit then floorLevel t l
      else s.dvfs.highLockLimit) ≤ 9
    split <;> omega
  | unlockLoad =>
    have halone := hexclusive (by rw [hstage]; rfl)
    refine inv_run_enter h halone (by rw [hstage]; rfl) (by rw [hstage]; rfl) rfl ?_
    refine fun _ hheld => ⟨hheld ▸ (h.outside halone).locks.unlock t, fun _ => .inr ?_⟩
    show (if s.dvfs.highLockToken &&& ~~~(1#32 <<< t.val) ≠ 0#32 then
      lowestFrom (update s.dvfs.dvfslockval t 9) 0 9 else 9) ≤ 9
    split
    · exact (foldl_lower (update s.dvfs.dvfslockval t 9) (finRange 9) 9).1
    · exact Nat.le_refl 9
  | lockPerf n => exact inv_run_perf h hstage
  | _ => exact inv_run_inside h (by rw [hstage]; rfl)

theorem inv_step (hok : s.Exclusive op) (hs : s.step op = some s') : s'.Inv := by
  cases op with
  | lock t l =>
    obtain ⟨hidle, rfl⟩ := ite_some_none_eq_some.mp hs
    rw [getDvfsPerfLevel_eq, elim_some, lockLevel_eq hok.2]
    refine inv_start h hidle rfl ?_
    rintro l' n' (e | e) <;> cases e
    exact ⟨hok.1, rfl⟩
  | unlock t =>
    obtain ⟨hidle, rfl⟩ := ite_some_none_eq_some.mp hs
    refine inv_start h hidle rfl ?_
    rintro l' n' (e | e) <;> cases e
  | run t =>
    obtain ⟨hbusy, hs⟩ := ite_none_left_eq_some.mp hs
    cases hs
    exact inv_run h hbusy hok

end

theorem inv_reached (h : Reached step Exclusive (init behind) s) : s.Inv :=
  h.invariant (inv_init behind) fun _ _ _ hinv hok hs => inv_step hinv hok hs

/-! ## The word and the limit -/

/-- The token word has the bits of the tokens that are held, and the limit is the lowest of
their levels, or the slowest level if calls have been made and none is held. -/
structure Right (s : Callers) : Prop where
  tokens : Tokens s.dvfs.highLockToken s.held
  least : (∃ t, s.held t ≠ none) →
    IsLeast {n | ∃ t l, s.held t = some l ∧ floorLevel t l = n} s.dvfs.highLockLimit
  free : s.called = true → (∀ t, s.held t = none) → s.dvfs.highLockLimit = 9

/-- In every run in which no call loads the token word for an update while another one is
between this load and its last store, the word and the limit are right whenever all calls
have finished. -/
theorem high_lock_exclusive
    (h : Reached step Exclusive (init behind) s) (hdone : ∀ t, s.stage t = .idle) : s.Right := by
  have hout : ∀ t, (s.stage t).inside = false := fun t => by
    rw [hdone t]
    rfl
  have hsettled := (inv_reached h).outside hout
  refine ⟨hsettled.locks.tokens, hsettled.locks.isLeast_held, fun hcalled hnone => ?_⟩
  have hge := hsettled.locks.free hnone
  rcases hsettled.limit hcalled with ⟨t, ht⟩ | hle
  · rw [hdone t] at ht
    cases ht
  · omega

/-- Two locks at 800 MHz and 400 MHz, where the second call makes its check while the first
one is inside. -/
theorem high_lock_exclusive_800MHZ :
    ∃ s, Reached step Exclusive (init fun _ => 0) s ∧ s.held 0 = some .lev800MHZ ∧
      s.held 1 = some .lev400MHZ ∧ s.Right := by
  obtain ⟨s, hrun, hdone, h₀, h₁⟩ : ∃ s, Reached step Exclusive (init fun _ => 0) s ∧
      (∀ t, s.stage t = .idle) ∧ s.held 0 = some .lev800MHZ ∧
        s.held 1 = some .lev400MHZ :=
    Reached.exists_of_checked [.lock 0 .lev800MHZ, .run 0, .run 0, .lock 1 .lev400MHZ, .run 1,
      .run 0, .run 0, .run 0, .run 0, .run 1, .run 0, .run 1, .run 1, .run 1, .run 1]
      (by decide +kernel)
  exact ⟨s, hrun, h₀, h₁, high_lock_exclusive hrun hdone⟩

/-- Both calls load the token word before either of them stores it: when they have finished
both tokens are held, and one of the two bits is missing. -/
theorem high_lock_lost_token :
    ∃ s, Reached step Allowed (init fun _ => 0) s ∧ (∀ t, s.stage t = .idle) ∧
      s.held 0 = some .lev800MHZ ∧ s.held 1 = some .lev400MHZ ∧
      s.dvfs.highLockToken.getLsbD 0 = false ∧ ¬s.Right := by
  obtain ⟨s, hrun, hdone, h₀, h₁, hbit⟩ : ∃ s, Reached step Allowed (init fun _ => 0) s ∧
      (∀ t, s.stage t = .idle) ∧ s.held 0 = some .lev800MHZ ∧
        s.held 1 = some .lev400MHZ ∧ s.dvfs.highLockToken.getLsbD 0 = false :=
    Reached.exists_of_checked [.lock 0 .lev800MHZ, .lock 1 .lev400MHZ, .run 0, .run 1, .run 0,
      .run 1, .run 0, .run 1, .run 0, .run 1, .run 0, .run 1, .run 0, .run 1, .run 0, .run 1]
      (by decide +kernel)
  refine ⟨s, hrun, hdone, h₀, h₁, hbit, fun hright => ?_⟩
  have hset := hright.tokens.bit 0
  rw [h₀] at hset
  cases hbit.symm.trans hset

end Callers

end AndroidKernel.CpuFreq
