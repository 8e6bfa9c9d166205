import AndroidKernel.Logger.Runs

/-!
# Writers that overlap

`logger_aio_write` reads `w_off` before it takes the lock, and goes back to what it read when
it fails. Here the two are steps of their own, so that other calls can come in between.
`committed` is not in the code: it records the entries of the writes that succeeded.
-/

namespace AndroidKernel.Logger

open Function Option

abbrev TaskId := Nat

structure Writers where
  log : Log
  /-- what a write that has not taken the lock yet has read -/
  orig : TaskId → Option Nat
  committed : List Entry

namespace Writers

def init (size : Nat) (buffer : Nat → Byte) : Writers where
  log := .init size buffer
  orig _ := none
  committed := []

inductive Op where
  | sample (task : TaskId)
  | write (task : TaskId) (header : Header) (iov : List Segment)
  | call (op : Logger.Op)

/-- The entries that are committed once a write has returned `result`. -/
def commit (committed : List Entry) (header : Header) (iov : List Segment) : Result → List Entry
  | .ret (_ + 1) => committed ++ [entryOf header iov]
  | _ => committed

def step (s : Writers) : Op → Option Writers
  | .sample task =>
    match s.orig task with
    | some _ => none
    | none => some { s with orig := update s.orig task (some s.log.wOff) }
  | .write task header iov =>
    (s.orig task).map fun orig =>
      let (log, result) := s.log.loggerAioWrite orig header iov
      { log := log
        orig := update s.orig task none
        committed := commit s.committed header iov result }
  -- a write is made in two steps
  | .call (.write _ _) => none
  | .call op => (s.log.step op).map fun r => { s with log := r.1 }

/-- The log stands for a queue of all the entries that were committed. -/
def Ok (s : Writers) : Prop := ∃ q : Queue, Refines s.log q ∧ q.entries = s.committed

end Writers

/-- The write fails with `-EFAULT`. -/
def Fails (iov : List Segment) : Prop :=
  Log.payloadLen iov ≠ 0 ∧ unreadable (Log.payloadLen iov) iov = true
  deriving Decidable

/-- A write that fails finds the log at the offset that it read before. -/
def Fresh (s : Writers) : Writers.Op → Prop
  | .write task _ iov => Fails iov → s.orig task = some s.log.wOff
  | _ => True

instance (s : Writers) (op : Writers.Op) : Decidable (Fresh s op) := by
  unfold Fresh
  split <;> infer_instance

variable {s s' : Writers} {task : TaskId} {header : Header} {iov : List Segment}
  {orig k : Nat} {buffer : Nat → Byte} {q : Queue}

namespace Writers

/-- What the locked part of a write can do. -/
theorem step_write (h : s.step (.write task header iov) = some s') :
    ∃ orig, s.orig task = some orig ∧ s'.log = (s.log.loggerAioWrite orig header iov).1 ∧
      s'.committed = commit s.committed header iov (s.log.loggerAioWrite orig header iov).2 := by
  obtain ⟨orig, horig, rfl⟩ := map_eq_some_iff.mp h
  exact ⟨orig, horig, rfl, rfl⟩

/-- A write that fails leaves everything but the cursors as it was, and puts the write offset
where it was when the call read it. -/
theorem step_write_fails (hr : Refines s.log q) (horig : s.orig task = some orig)
    (hfails : Fails iov) (hs : s.step (.write task header iov) = some s') :
    s'.log.wOff = orig ∧ s'.committed = s.committed ∧
      ∃ log' head readers, s'.log = { log' with wOff := orig } ∧ log'.wOff = s.log.wOff ∧
        q.PulledAll s.log.size (entryOf header iov).length head readers ∧
        Refines log' { q with head := head, readers := readers } := by
  obtain ⟨orig', horig', hlog, hcommitted⟩ := step_write hs
  obtain rfl := some.inj (horig.symm.trans horig')
  obtain ⟨log', head, readers, heq, -, hwoff, -, hpulled, hr'⟩ :=
    loggerAioWrite_fault header hr hfails.1 orig hfails.2
  rw [heq] at hlog hcommitted
  exact ⟨by rw [hlog], hcommitted, log', head, readers, hlog, hwoff, hpulled, hr'⟩

/-- If the offset that was read is the one that the log has, only cursors are moved. -/
theorem step_write_fails_fresh (hr : Refines s.log q) (horig : s.orig task = some s.log.wOff)
    (hfails : Fails iov) (hs : s.step (.write task header iov) = some s') :
    ∃ head readers, q.PulledAll s.log.size (entryOf header iov).length head readers ∧
      Refines s'.log { q with head := head, readers := readers } := by
  obtain ⟨-, -, log', head, readers, hlog', hwoff, hpulled, hr'⟩ :=
    step_write_fails hr horig hfails hs
  rw [← hwoff] at hlog'
  exact ⟨head, readers, hpulled, hlog' ▸ hr'⟩

theorem write_ok (h : s.Ok) (hfresh : Fresh s (.write task header iov))
    (hs : s.step (.write task header iov) = some s') : s'.Ok := by
  obtain ⟨q, hr, hq⟩ := h
  obtain ⟨orig, horig, hlog, hcommitted⟩ := step_write hs
  by_cases hlen : Log.payloadLen iov = 0
  · have heq : s.log.loggerAioWrite orig header iov = (s.log, .ret 0) := by
      simp only [Log.loggerAioWrite, if_pos hlen]
    rw [heq] at hlog hcommitted
    exact ⟨q, hlog ▸ hr, hq.trans hcommitted.symm⟩
  · cases hread : unreadable (Log.payloadLen iov) iov with
    | false =>
      obtain ⟨log', head, readers, heq, -, -, hr'⟩ := loggerAioWrite_ok header hr hlen orig hread
      obtain ⟨n, hn⟩ := Nat.exists_eq_succ_of_ne_zero hlen
      rw [heq, hn] at hlog hcommitted
      rw [← show s'.log = log' from hlog] at hr'
      refine ⟨_, hr', ?_⟩
      rw [hcommitted, ← hq]
      rfl
    | true =>
      obtain ⟨head, readers, -, hr'⟩ :=
        step_write_fails_fresh hr (hfresh ⟨hlen, hread⟩) ⟨hlen, hread⟩ hs
      exact ⟨_, hr', hq.trans (step_write_fails hr horig ⟨hlen, hread⟩ hs).2.1.symm⟩

theorem step_call {op : Logger.Op} (hop : ∀ header iov, op ≠ .write header iov) :
    s.step (.call op) = (s.log.step op).map fun r => { s with log := r.1 } := by
  cases op with
  | write header iov => exact absurd rfl (hop header iov)
  | _ => rfl

/-- The other calls commit nothing. -/
theorem call_ok (h : s.Ok) {op : Logger.Op} (hs : s.step (.call op) = some s') : s'.Ok := by
  obtain ⟨q, href, hq⟩ := h
  have hop : ∀ header iov, op ≠ .write header iov := by
    rintro header iov rfl
    cases hs
  rw [step_call hop] at hs
  obtain ⟨⟨log', result⟩, hr, rfl⟩ := map_eq_some_iff.mp hs
  obtain ⟨q', hstep, -, href'⟩ := step_refines href hr
  refine ⟨q', href', ?_⟩
  have hentries : q'.entries = q.entries := by
    cases hstep with
    | write => exact absurd rfl (hop _ _)
    | _ => rfl
  exact hentries.trans hq

theorem step_ok {op : Op} (h : s.Ok) (hfresh : Fresh s op) (hs : s.step op = some s') : s'.Ok := by
  cases op with
  | sample task =>
    unfold step at hs
    cases horig : s.orig task with
    | some orig => simp [horig] at hs
    | none =>
      simp only [horig, some.injEq] at hs
      subst hs
      exact h
  | write task header iov => exact write_ok h hfresh hs
  | call op => exact call_ok h hs

theorem init_ok (hsize : 2 * entryMaxLen < 2 ^ k) (buffer : Nat → Byte) :
    (Writers.init (2 ^ k) buffer).Ok :=
  ⟨{}, init_refines hsize buffer, rfl⟩

end Writers

/-- **If each write that fails finds the log where it read that it was**, every entry that was
committed stays in the queue that the log stands for. A write that fails leaves `w_off` as it
was at the start of its critical section if and only if this is what it had read, and then it does
nothing but move readers that are in the way of its entry. -/
theorem failed_write_keeps_entries (hsize : 2 * entryMaxLen < 2 ^ k)
    (h : Reached Writers.step Fresh (.init (2 ^ k) buffer) s) :
    (∃ q : Queue, Refines s.log q ∧ q.entries = s.committed) ∧
    ∀ task header iov orig s', s.orig task = some orig → Fails iov →
      s.step (.write task header iov) = some s' → (s'.log.wOff = s.log.wOff ↔ orig = s.log.wOff) ∧
      (orig = s.log.wOff → ∃ (q : Queue) (head : Nat) (readers : List (ReaderId × Nat)),
        Refines s.log q ∧ q.entries = s.committed ∧
        q.PulledAll s.log.size (entryOf header iov).length head readers ∧
        Refines s'.log { q with head := head, readers := readers }) := by
  have hok : s.Ok := h.invariant (P := Writers.Ok) (Writers.init_ok hsize buffer)
    fun _ _ _ hok hfresh hs => Writers.step_ok hok hfresh hs
  refine ⟨hok, ?_⟩
  intro task header iov orig s' horig hfails hs
  obtain ⟨q, hr, hq⟩ := hok
  constructor
  · rw [(Writers.step_write_fails hr horig hfails hs).1]
  · rintro rfl
    obtain ⟨head, readers, hpulled, hr'⟩ := Writers.step_write_fails_fresh hr horig hfails hs
    exact ⟨q, head, readers, hr, hq, hpulled, hr'⟩

/-- Two writers, of which one has committed an entry. The other one then reads the offset, and
fails; the reader still gets the entry. -/
theorem failed_write_keeps_entries_twoWriters :
    ∃ (header : Header) (iov bad : List Segment) (s s' : Writers),
    Reached Writers.step Fresh (.init (2 ^ 14) fun _ => 0) s ∧
    s.committed = [entryOf header iov] ∧ Fails bad ∧ s.step (.write 0 header bad) = some s' ∧
    (s'.log.step (.read 0 entryMaxLen false)).map Prod.snd = some (.read (entryOf header iov)) ∧
    s'.log.wOff = s.log.wOff := by
  let header : Header := ⟨0, 1, 1, 0, 0⟩
  let iov : List Segment := [⟨[7], none, fun _ => 0⟩]
  let bad : List Segment := [⟨[7], some 0, fun _ => 0⟩]
  have hfails : Fails bad := ⟨by decide, by decide⟩
  obtain ⟨s, hs, ⟨hcommitted, horig, s', hs', hread⟩⟩ : ∃ s,
      Reached Writers.step Fresh (.init (2 ^ 14) fun _ => 0) s ∧
      s.committed = [entryOf header iov] ∧ s.orig 0 = some s.log.wOff ∧
      ∃ s' ∈ s.step (.write 0 header bad), (s'.log.step (.read 0 entryMaxLen false)).map Prod.snd =
        some (.read (entryOf header iov)) :=
    Reached.exists_of_checked
      [.call (.openLog true), .sample 1, .write 1 header iov, .sample 1, .sample 0]
      (by decide +kernel)
  have hwoff := ((failed_write_keeps_entries (by decide) hs).2 0 header bad _ s' horig hfails hs').1
  exact ⟨header, iov, bad, s, s', hs, hcommitted, hfails, hs', hread, hwoff.mpr rfl⟩

/-- Two writes read the offset 0. The second one commits its entry, and when the first one then
fails, it puts the offset back to 0: the reader, who has read nothing, finds the log empty. -/
theorem failed_write_hides_entry : ∃ (header : Header) (iov bad : List Segment) (s s' : Writers),
    Reached Writers.step (fun _ _ => True) (.init (2 ^ 14) fun _ => 0) s ∧
    s.committed = [entryOf header iov] ∧ Fails bad ∧
    s.step (.write 0 header bad) = some s' ∧ s'.log.wOff ≠ s.log.wOff ∧
    ∃ log, s'.log.step (.read 0 entryMaxLen false) = some (log, .eagain) := by
  let header : Header := ⟨0, 1, 1, 0, 0⟩
  let iov : List Segment := [⟨[7], none, fun _ => 0⟩]
  let bad : List Segment := [⟨[7], some 0, fun _ => 0⟩]
  obtain ⟨s, hs, hcommitted, s', hs', hwoff, hread⟩ : ∃ s,
      Reached Writers.step (fun _ _ => True) (.init (2 ^ 14) fun _ => 0) s ∧
      s.committed = [entryOf header iov] ∧ ∃ s' ∈ s.step (.write 0 header bad),
        s'.log.wOff ≠ s.log.wOff ∧
        (s'.log.step (.read 0 entryMaxLen false)).map Prod.snd = some .eagain :=
    Reached.exists_of_checked
      [.call (.openLog true), .sample 0, .sample 1, .write 1 header iov] (by decide +kernel)
  obtain ⟨⟨log, -⟩, hlog, rfl⟩ := Option.map_eq_some_iff.mp hread
  exact ⟨header, iov, bad, s, s', hs, hcommitted, ⟨by decide, by decide⟩, hs', hwoff, log, hlog⟩

end AndroidKernel.Logger
