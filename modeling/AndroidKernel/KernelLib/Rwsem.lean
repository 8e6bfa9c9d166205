import AndroidKernel.Lib.Runs
import AndroidKernel.Lib.Words

/-!
# Reader-writer semaphores (`lib/rwsem-spinlock.c`)

What is done under `wait_lock` is one step. A waiter that is woken holds what it asked for. The
`activity` has 32 bits, so that it counts up to 2 ^ 31 - 1 readers.
-/

namespace AndroidKernel.Rwsem

open List

inductive Mode where
  | read
  | write
  deriving DecidableEq

/-- `struct rwsem_waiter`. -/
structure Waiter where
  task : Nat
  mode : Mode
  deriving DecidableEq

/-- `struct rw_semaphore`, who holds it, and the requests: those that were granted or wait in the
order they came, and those that were granted in that order. -/
structure Semaphore where
  activity : Int := 0
  waitList : List Waiter := []
  holders : List Waiter := []
  asked : List Waiter := []
  granted : List Waiter := []

namespace Semaphore

variable (s : Semaphore)

def grant (w : Waiter) : Semaphore :=
  { s with holders := w :: s.holders, granted := s.granted ++ [w] }

/-- `__rwsem_wake_one_writer`, if there is a waiter. -/
def wakeOneWriter : Semaphore :=
  match s.waitList with
  | [] => s
  | w :: rest => { s with activity := -1, waitList := rest }.grant w

/-- The loop of `__rwsem_do_wake` and what is done after it. -/
def wakeReaders (s : Semaphore) (woken : Nat) : List Waiter → Semaphore
  | [] => { s with activity := long (s.activity + woken), waitList := [] }
  | w :: rest =>
    if w.mode = .read then (s.grant w).wakeReaders (woken + 1) rest
    else { s with activity := long (s.activity + woken), waitList := w :: rest }

/-- `__rwsem_do_wake`, if there is a waiter. -/
def doWake (wakewrite : Bool) : Semaphore :=
  -- for a writer that is not to be woken the loop does nothing
  if wakewrite ∧ ∃ w ∈ s.waitList.head?, w.mode = .write then s.wakeOneWriter
  else s.wakeReaders 0 s.waitList

/-- The test of a request, apart from the wait list, and what `activity` becomes. -/
def test : Mode → Bool × Int
  | .read => (0 ≤ s.activity, long (s.activity + 1))
  | .write => (s.activity = 0, -1)

def trylock (w : Waiter) : Semaphore × Bool :=
  if (s.test w.mode).1 ∧ s.waitList = [] then
    ({ s with activity := (s.test w.mode).2, asked := s.asked ++ [w] }.grant w, true)
  else (s, false)

def down (w : Waiter) : Semaphore :=
  if (s.trylock w).2 then (s.trylock w).1
  else { s with waitList := s.waitList ++ [w], asked := s.asked ++ [w] }

/-- `__down_read`. -/
def downRead (task : Nat) : Semaphore := s.down ⟨task, .read⟩

/-- `__down_read_trylock`. -/
def downReadTrylock (task : Nat) : Semaphore × Bool := s.trylock ⟨task, .read⟩

/-- `__down_write_nested`. -/
def downWriteNested (task : Nat) : Semaphore := s.down ⟨task, .write⟩

/-- `__down_write_trylock`. -/
def downWriteTrylock (task : Nat) : Semaphore × Bool := s.trylock ⟨task, .write⟩

/-- `__up_read`. -/
def upRead (task : Nat) : Semaphore :=
  let s := { s with activity := long (s.activity - 1), holders := s.holders.erase ⟨task, .read⟩ }
  if s.activity = 0 then s.wakeOneWriter else s

/-- `__up_write`. -/
def upWrite (task : Nat) : Semaphore :=
  { s with activity := 0, holders := s.holders.erase ⟨task, .write⟩ }.doWake true

/-- `__downgrade_write`. -/
def downgradeWrite (task : Nat) : Semaphore :=
  let holders := ⟨task, .read⟩ :: s.holders.erase ⟨task, .write⟩
  { s with activity := 1, holders := holders }.doWake false

inductive Op where
  | downRead (task : Nat)
  | downReadTrylock (task : Nat)
  | downWrite (task : Nat)
  | downWriteTrylock (task : Nat)
  | upRead (task : Nat)
  | upWrite (task : Nat)
  | downgradeWrite (task : Nat)

/-- Only a holder releases the semaphore. -/
def step (s : Semaphore) : Op → Option Semaphore
  | .downRead task => s.downRead task
  | .downReadTrylock task => (s.downReadTrylock task).1
  | .downWrite task => s.downWriteNested task
  | .downWriteTrylock task => (s.downWriteTrylock task).1
  | .upRead task => if ⟨task, .read⟩ ∈ s.holders then some (s.upRead task) else none
  | .upWrite task => if ⟨task, .write⟩ ∈ s.holders then some (s.upWrite task) else none
  | .downgradeWrite task =>
    if ⟨task, .write⟩ ∈ s.holders then some (s.downgradeWrite task) else none

/-- The step leaves fewer than 2 ^ 31 holders. -/
def Few (op : Op) : Prop := ∀ s' ∈ s.step op, s'.holders.length < 2 ^ 31

instance (op : Op) : Decidable (s.Few op) :=
  inferInstanceAs (Decidable (∀ s' ∈ s.step op, s'.holders.length < 2 ^ 31))

structure Ok : Prop where
  held : s.activity = s.holders.length ∧ (∀ w ∈ s.holders, w.mode = .read) ∨
    s.activity = -1 ∧ ∃ task, s.holders = [⟨task, .write⟩]
  idle : s.activity = 0 → s.waitList = []
  first : 0 < s.activity → ∀ w ∈ s.waitList.head?, w.mode = .write
  order : s.asked = s.granted ++ s.waitList

variable {s : Semaphore} {w : Waiter} {rest : List Waiter} {task : Nat}

theorem long_of_holders {x : Int} {l : List Waiter} (hx : x = l.length) (hl : l.length < 2 ^ 31) :
    long x = x :=
  long_of_mem (by omega) (by omega)

/-- All readers in front are woken; there is one, or the semaphore has readers already. -/
theorem ok_wakeReaders {woken : Nat} (hactivity : s.activity + woken = s.holders.length)
    (hr : ∀ w ∈ s.holders, w.mode = .read)
    (hpos : 0 < s.activity + woken ∨ ∀ w ∈ rest.head?, w.mode = .read)
    (horder : s.asked = s.granted ++ rest)
    (hfew : (s.wakeReaders woken rest).holders.length < 2 ^ 31) :
    (s.wakeReaders woken rest).Ok := by
  induction rest generalizing s woken with
  | nil =>
    refine ⟨.inl ⟨?_, hr⟩, fun _ => rfl, nofun, horder⟩
    exact (long_of_holders hactivity hfew).trans hactivity
  | cons w rest ih =>
    rw [wakeReaders] at hfew ⊢
    split at hfew
    next hmode =>
      rw [if_pos hmode]
      have hmore : s.activity + (woken + 1 : Nat) = (w :: s.holders).length := by
        rw [length_cons]
        omega
      refine ih hmore (forall_mem_cons.mpr ⟨hmode, hr⟩) (.inl ?_) (by simp [grant, horder]) hfew
      rw [grant, hmore]
      exact Int.natCast_pos.mpr (Nat.succ_pos _)
    next hmode =>
      have hpos := hpos.resolve_right fun h => hmode (h w rfl)
      rw [if_neg hmode, long_of_holders hactivity hfew]
      refine ⟨.inl ⟨hactivity, hr⟩, fun h => absurd h hpos.ne', fun _ => ?_, horder⟩
      rintro _ ⟨⟩
      cases hw : w.mode
      · exact absurd hw hmode
      · rfl

/-- A writer in front is woken. -/
theorem ok_wakeOneWriter (hactivity : s.activity = 0) (hholders : s.holders = [])
    (hfirst : ∀ w ∈ s.waitList.head?, w.mode = .write)
    (horder : s.asked = s.granted ++ s.waitList) : s.wakeOneWriter.Ok := by
  rw [wakeOneWriter]
  split
  next hlist => exact ⟨.inl (by simp [hactivity, hholders]), fun _ => hlist, by omega, horder⟩
  next w rest hlist =>
    obtain ⟨task, mode⟩ := w
    obtain rfl : mode = .write := hfirst _ (by rw [hlist]; rfl)
    exact ⟨.inr ⟨rfl, task, by rw [grant, hholders]⟩, nofun, nofun, by simp [grant, horder, hlist]⟩

theorem Ok.readers (h : s.Ok) (hfree : 0 ≤ s.activity) :
    s.activity = s.holders.length ∧ ∀ w ∈ s.holders, w.mode = .read := by
  refine h.held.resolve_right fun hw => ?_
  have := hw.1
  omega

theorem Ok.trylock (h : s.Ok) (hfew : (s.trylock w).1.holders.length < 2 ^ 31) :
    (s.trylock w).1.Ok := by
  rw [Semaphore.trylock] at hfew ⊢
  split at hfew
  next hfree =>
    obtain ⟨htest, hlist⟩ := hfree
    rw [if_pos ⟨htest, hlist⟩]
    refine ⟨?_, fun _ => hlist, by simp [grant, hlist], by simp [grant, hlist, h.order]⟩
    obtain ⟨task, mode⟩ := w
    cases mode with
    | read =>
      obtain ⟨hactivity, hr⟩ := h.readers (of_decide_eq_true htest)
      have hmore : s.activity + 1 = (⟨task, .read⟩ :: s.holders : List Waiter).length := by
        rw [length_cons]
        omega
      exact .inl ⟨(long_of_holders hmore hfew).trans hmore, forall_mem_cons.mpr ⟨rfl, hr⟩⟩
    | write =>
      have hzero : s.activity = 0 := of_decide_eq_true htest
      have hlen := (h.readers hzero.ge).1
      have hnone : s.holders = [] := length_eq_zero_iff.mp (by omega)
      exact .inr ⟨rfl, task, by rw [grant, hnone]⟩
  next hbusy => rwa [if_neg hbusy]

theorem Ok.down (h : s.Ok) (hfew : (s.down w).holders.length < 2 ^ 31) : (s.down w).Ok := by
  rw [Semaphore.down] at hfew ⊢
  split at hfew
  next hlocked =>
    rw [if_pos hlocked]
    exact h.trylock hfew
  next hnot =>
    rw [if_neg hnot]
    have hbusy (hlist : s.waitList = []) : ¬(s.test w.mode).1 = true := fun htest =>
      hnot (by rw [Semaphore.trylock, if_pos ⟨htest, hlist⟩])
    obtain ⟨task, mode⟩ := w
    refine ⟨h.held, fun (hzero : s.activity = 0) => ?_, fun hpos => ?_, by simp [h.order]⟩
    · refine absurd ?_ (hbusy (h.idle hzero))
      cases mode <;> simp [test, hzero]
    · cases hlist : s.waitList with
      | nil =>
        rintro _ ⟨⟩
        cases mode
        · exact absurd (decide_eq_true hpos.le) (hbusy hlist)
        · rfl
      | cons w rest =>
        have hfirst := h.first hpos
        rwa [hlist] at hfirst

theorem Ok.upRead (h : s.Ok) (hfew : s.holders.length < 2 ^ 31)
    (hmem : ⟨task, .read⟩ ∈ s.holders) : (s.upRead task).Ok := by
  have hpos := length_pos_of_mem hmem
  have hlen := length_erase_of_mem hmem
  rcases h.held with ⟨hactivity, hr⟩ | ⟨-, _, hw⟩
  · have hfirst := h.first (by omega)
    rw [Semaphore.upRead, long_of_mem (x := s.activity - 1) (by omega) (by omega)]
    dsimp only
    split
    next hzero =>
      exact ok_wakeOneWriter hzero (length_eq_zero_iff.mp (by dsimp only; omega)) hfirst h.order
    next hne =>
      refine ⟨.inl ⟨?_, fun w hw => hr w (mem_of_mem_erase hw)⟩, fun h => absurd h hne,
        fun _ => hfirst, h.order⟩
      dsimp only
      omega
  · rw [hw] at hmem
    cases mem_singleton.mp hmem

theorem Ok.erase_write (h : s.Ok) (hmem : ⟨task, .write⟩ ∈ s.holders) :
    s.holders.erase ⟨task, .write⟩ = [] := by
  rcases h.held with ⟨-, hr⟩ | ⟨-, _, hw⟩
  · cases hr _ hmem
  · rw [hw] at hmem ⊢
    rw [mem_singleton.mp hmem, erase_cons_head]

theorem Ok.upWrite (h : s.Ok) (hmem : ⟨task, .write⟩ ∈ s.holders)
    (hfew : (s.upWrite task).holders.length < 2 ^ 31) : (s.upWrite task).Ok := by
  rw [Semaphore.upWrite, h.erase_write hmem, doWake] at hfew ⊢
  split at hfew
  next hfirst =>
    rw [if_pos hfirst]
    obtain ⟨-, w', hhead, hmode⟩ := hfirst
    refine ok_wakeOneWriter rfl rfl (fun w hw => ?_) h.order
    rwa [Option.mem_unique hw hhead]
  next hfirst =>
    rw [if_neg hfirst]
    refine ok_wakeReaders rfl nofun (.inr fun w hw => ?_) h.order hfew
    cases hmode : w.mode with
    | read => rfl
    | write => exact absurd ⟨rfl, w, hw, hmode⟩ hfirst

theorem Ok.downgradeWrite (h : s.Ok) (hmem : ⟨task, .write⟩ ∈ s.holders)
    (hfew : (s.downgradeWrite task).holders.length < 2 ^ 31) : (s.downgradeWrite task).Ok := by
  rw [Semaphore.downgradeWrite, h.erase_write hmem, doWake, if_neg (by simp)] at hfew ⊢
  exact ok_wakeReaders rfl (by simp) (.inl Int.one_pos) h.order hfew

/-- **While there are fewer than 2 ^ 31 holders**, `activity` counts them, readers and writers do
not hold the semaphore together, and requests are granted in the order in which they came. -/
theorem semaphore_ok (h : Reached step Few {} s) : s.Ok := by
  have hinv : s.Ok ∧ s.holders.length < 2 ^ 31 := by
    refine h.invariant (P := fun s => s.Ok ∧ s.holders.length < 2 ^ 31)
      ⟨⟨.inl ⟨rfl, nofun⟩, fun _ => rfl, nofun, rfl⟩, by decide⟩ ?_
    rintro s s' op ⟨h, hlt⟩ hok hs
    have hfew := hok s' hs
    refine ⟨?_, hfew⟩
    cases op with
    | downRead | downWrite =>
      cases hs
      exact h.down hfew
    | downReadTrylock | downWriteTrylock =>
      cases hs
      exact h.trylock hfew
    | upRead task =>
      obtain ⟨hmem, rfl⟩ := Option.ite_some_none_eq_some.mp hs
      exact h.upRead hlt hmem
    | upWrite task =>
      obtain ⟨hmem, rfl⟩ := Option.ite_some_none_eq_some.mp hs
      exact h.upWrite hmem hfew
    | downgradeWrite task =>
      obtain ⟨hmem, rfl⟩ := Option.ite_some_none_eq_some.mp hs
      exact h.downgradeWrite hmem hfew
  exact hinv.1

/-- Two readers are woken when a writer leaves; the next writer waits. -/
theorem semaphore_ok_readers : ∃ s, Reached step Few {} s ∧
    (s.activity = 2 ∧ s.waitList = [⟨4, .write⟩]) ∧ s.Ok :=
  Reached.exists_of_checked_and
    [.downWrite 1, .downRead 2, .downRead 3, .downWrite 4, .downReadTrylock 5, .upWrite 1]
    (by decide +kernel) fun _ hrun _ => semaphore_ok hrun

/-- So many readers in a row, the last of which may make `activity` negative. -/
theorem reached_readers {n : Nat} (hn : n ≤ 2 ^ 31) :
    ∃ s, Reached step (fun _ _ => True) {} s ∧ s.activity = long n ∧ s.holders.length = n ∧
      s.waitList = [] := by
  induction n with
  | zero => exact ⟨_, .init, rfl, rfl, rfl⟩
  | succ n ih =>
    obtain ⟨s, hrun, hactivity, hholders, hlist⟩ := ih (by omega)
    rw [long_of_mem (by omega) (by omega)] at hactivity
    have htest : (s.test .read).1 = true ∧ s.waitList = [] :=
      ⟨decide_eq_true (hactivity ▸ Int.natCast_nonneg n), hlist⟩
    have hstep : s.step (.downRead n) = some (s.downRead n) := rfl
    refine ⟨s.downRead n, hrun.step trivial hstep, ?_⟩
    rw [downRead, down, trylock, if_pos htest]
    exact ⟨by simp [test, grant, hactivity], by simp [grant, hholders], hlist⟩

/-- The reader number 2 ^ 31 makes `activity` negative, as if there were writers. -/
theorem activity_overflows :
    ∃ s, Reached step (fun _ _ => True) {} s ∧ s.activity = -2 ^ 31 ∧ ¬s.Ok := by
  obtain ⟨s, hrun, hactivity, hholders, -⟩ := reached_readers le_rfl
  refine ⟨s, hrun, hactivity, fun h => ?_⟩
  obtain ⟨hcount, -⟩ | ⟨hwriter, -⟩ := h.held
  · rw [hactivity, hholders] at hcount
    exact absurd hcount (by decide)
  · rw [hactivity] at hwriter
    exact absurd hwriter (by decide)

end Semaphore

end AndroidKernel.Rwsem
