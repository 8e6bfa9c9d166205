import AndroidKernel.Lib.Runs

/-!
# The low memory killer

`lowmem_shrink` tests `lowmem_deathpending` first and sets it after it has waited for the lock of
the task list. Other tasks that reclaim memory may run in between.
-/

namespace AndroidKernel.LowMemory

/-- What the scan reads of a process. -/
structure Task where
  id : Nat
  /-- It has an `mm` and a `signal`. -/
  alive : Bool
  oomAdj : Int
  rss : Int

/-- What must not happen: a `SIGKILL` while there is a victim that has not been freed, or `task_nb`
is registered twice, or unregistered when it is not registered. -/
inductive Fault
  | kill
  | register
  | unregister
  deriving DecidableEq

/-- `waiting` has the `min_adj` of each call of `lowmem_shrink` before the lock. The code does not
keep `victims` and `faults`. -/
structure State where
  tasks : List Task
  deathpending : Option Nat
  registered : Nat
  waiting : List Int
  victims : List Nat
  faults : List Fault

inductive Op
  | shrink (otherFree otherFile : Nat) (nrToScan : Int)
  | locked (minAdj : Int)
  | free (id : Nat)
  /-- Processes come and go and change. -/
  | others (tasks : List Task)

def oomAdjustMax : Int := 15

-- `lowmem_adj` and `lowmem_minfree`, up to their sizes.
variable (adj : List Int) (minfree : List Nat) (s : State)

/-- `min_adj`. -/
def minAdj (otherFree otherFile : Nat) : Int :=
  (((adj.zip minfree).find? fun e => otherFree + otherFile < e.2).map Prod.fst).getD
    (oomAdjustMax + 1)

/-- The loop over the processes. -/
def select (minAdj : Int) (tasks : List Task) : Option Task :=
  tasks.foldl (fun selected p =>
    if !p.alive || p.oomAdj < minAdj || p.rss ≤ 0 then selected
    else if selected.any fun q => p.oomAdj < q.oomAdj || p.oomAdj = q.oomAdj && p.rss ≤ q.rss then
      selected
    else some p) none

namespace State

/-- `lowmem_shrink` up to the lock. -/
def lowmemShrink (otherFree otherFile : Nat) (nrToScan : Int) : State :=
  let m := minAdj adj minfree otherFree otherFile
  if s.deathpending.isSome || m = oomAdjustMax + 1 || nrToScan ≤ 0 then s
  else { s with waiting := m :: s.waiting }

/-- The rest of it, under the lock. -/
def lowmemShrinkLocked (m : Int) : State :=
  match select m s.tasks with
  | none => { s with waiting := s.waiting.erase m }
  | some p =>
    { s with
      waiting := s.waiting.erase m
      deathpending := some p.id
      registered := s.registered + 1
      victims := p.id :: s.victims
      faults := s.faults ++ (if s.registered = 0 then [] else [.register]) ++
        if s.victims = [] then [] else [.kill] }

/-- `task_notify_func`. -/
def taskNotifyFunc (id : Nat) : State :=
  if s.deathpending = some id then
    { s with
      deathpending := none
      registered := s.registered - 1
      faults := s.faults ++ if s.registered = 0 then [.unregister] else [] }
  else s

/-- A task is freed, which is told to `task_nb` if that is registered. -/
def freeTask (id : Nat) : State :=
  let s := { s with victims := s.victims.filter (· ≠ id) }
  if s.registered = 0 then s else s.taskNotifyFunc id

def step : Op → Option State
  | .shrink otherFree otherFile nrToScan =>
    some (s.lowmemShrink adj minfree otherFree otherFile nrToScan)
  | .locked m => if m ∈ s.waiting then some (s.lowmemShrinkLocked m) else none
  | .free id => some (s.freeTask id)
  | .others tasks => some { s with tasks := tasks }

def init (tasks : List Task) : State := ⟨tasks, none, 0, [], [], []⟩

/-- No call of `lowmem_shrink` begins before another one has ended. -/
def alone : Op → Bool
  | .shrink .. => s.waiting.isEmpty
  | _ => true

/-- There is no victim, or there is one and no call before the lock. -/
structure Inv : Prop where
  faults : s.faults = []
  calls : s.waiting.length ≤ 1
  victim : s.deathpending = none ∧ s.victims = [] ∧ s.registered = 0 ∨
    ∃ v, s.deathpending = some v ∧ s.victims = [v] ∧ s.registered = 1 ∧ s.waiting = []

variable {adj minfree s} {s' : State} {op : Op}

theorem Inv.lowmemShrinkLocked (h : s.Inv) {m : Int} (hm : m ∈ s.waiting) :
    (s.lowmemShrinkLocked m).Inv := by
  obtain ⟨hfaults, hcalls, ⟨hd, hv, hr⟩ | ⟨v, -, -, -, hnone⟩⟩ := h
  · have herase : s.waiting.erase m = [] := List.length_eq_zero_iff.mp <| by
      rw [List.length_erase_of_mem hm]
      omega
    unfold State.lowmemShrinkLocked
    split
    · exact ⟨hfaults, by simp [herase], .inl ⟨hd, hv, hr⟩⟩
    · exact ⟨by simp [hfaults, hr, hv], by simp [herase],
        .inr ⟨_, rfl, by rw [hv], by rw [hr], herase⟩⟩
  · rw [hnone] at hm
    cases hm

theorem Inv.freeTask (h : s.Inv) (id : Nat) : (s.freeTask id).Inv := by
  obtain ⟨hfaults, hcalls, ⟨hd, hv, hr⟩ | ⟨v, hd, hv, hr, hnone⟩⟩ := h
  · rw [State.freeTask, if_pos hr]
    exact ⟨hfaults, hcalls, .inl ⟨hd, by rw [hv]; rfl, hr⟩⟩
  · rw [State.freeTask, if_neg (by simp [hr]), taskNotifyFunc]
    by_cases hid : v = id
    · rw [if_pos (by rw [hd, hid])]
      exact ⟨by simp [hfaults, hr], hcalls, .inl ⟨rfl, by simp [hv, hid], by simp [hr]⟩⟩
    · rw [if_neg (by simp [hd, hid])]
      exact ⟨hfaults, hcalls, .inr ⟨v, hd, by simp [hv, hid], hr, hnone⟩⟩

theorem Inv.step (h : s.Inv) (hok : s.alone op) (hs : s.step adj minfree op = some s') :
    s'.Inv := by
  cases op with
  | shrink otherFree otherFile nrToScan =>
    cases hs
    have hwaiting : s.waiting = [] := List.isEmpty_iff.mp hok
    unfold State.lowmemShrink
    simp only
    split
    · exact h
    next hnot =>
      refine ⟨h.faults, by simp [hwaiting], .inl (h.victim.resolve_right ?_)⟩
      rintro ⟨v, hd, -⟩
      simp [hd] at hnot
  | locked m =>
    obtain ⟨hm, rfl⟩ := Option.ite_some_none_eq_some.mp hs
    exact h.lowmemShrinkLocked hm
  | free id =>
    cases hs
    exact h.freeTask id
  | others tasks =>
    cases hs
    exact ⟨h.faults, h.calls, h.victim⟩

/-- If the calls do not overlap, there is at most one victim at a time. -/
theorem one_victim {tasks : List Task}
    (h : Reached (step adj minfree) (fun s op => s.alone op) (init tasks) s) :
    s.faults = [] ∧ s.victims.length ≤ 1 := by
  have hinv : s.Inv := h.invariant ⟨rfl, Nat.zero_le 1, .inl ⟨rfl, rfl, rfl⟩⟩
    fun _ _ _ h hok hs => h.step hok hs
  refine ⟨hinv.faults, ?_⟩
  rcases hinv.victim with ⟨-, hv, -⟩ | ⟨v, -, hv, -⟩ <;> simp [hv]

theorem one_victim_killed : ∃ s, Reached (step [0] [1536]) (fun s op => s.alone op)
    (init [⟨7, true, 5, 100⟩, ⟨8, true, 5, 200⟩]) s ∧ s.victims = [8] ∧ s.faults = [] :=
  Reached.exists_of_checked_and [.shrink 100 200 1, .locked 0, .shrink 100 200 1]
    (by decide +kernel) fun _ hs _ => (one_victim hs).1

/-- Two calls pass the test before the first of them kills. When the victim has given up its memory,
the second call kills another task. -/
theorem two_victims : ∃ s, Reached (step [0] [1536]) (fun _ _ => True)
    (init [⟨7, true, 5, 100⟩, ⟨8, true, 5, 200⟩]) s ∧ s.victims = [7, 8] ∧
    s.faults = [.register, .kill] :=
  Reached.exists_of_checked [.shrink 100 200 1, .shrink 100 200 1, .locked 0,
    .others [⟨7, true, 5, 100⟩, ⟨8, false, 5, 200⟩], .locked 0] (by decide +kernel)

end State

end AndroidKernel.LowMemory
