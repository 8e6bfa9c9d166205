import AndroidKernel.Lib.Runs

/-!
# Early suspend (`kernel/power/earlysuspend.c`)

User space requests the system to sleep or to wake up. A request is noted in `state`
at once; two works on a single-threaded work queue then bring the drivers into line:
`early_suspend` calls the suspend handlers and releases `main_wake_lock`, `late_resume`
calls the resume handlers.

Requests can come at any point of a work but inside the sections that hold
`state_lock`, so that each such section is one step of the worker, and each call of a
handler is one. The handler list changes only while no work holds
`early_suspend_lock`. `history` is not part of the code: it records the handler calls
and the ends of passes, with the list that they went over. What is done for low-power audio and the
sync work are left out; they touch neither `state` nor the lock.
-/

namespace AndroidKernel.EarlySuspend

open List Bool

/-! ## The model -/

inductive Direction where
  | suspend
  | resume
  deriving DecidableEq

/-- `struct early_suspend`. -/
structure Handler where
  id : Nat
  level : Int
  suspend : Bool
  resume : Bool
  deriving DecidableEq

/-- Whether the handler has a function for this direction. -/
def Handler.has (handler : Handler) : Direction → Bool
  | .suspend => handler.suspend
  | .resume => handler.resume

/-- `early_suspend_work` and `late_resume_work`. -/
inductive Work where
  | earlySuspend
  | lateResume
  deriving DecidableEq

/-- Where the worker is. -/
inductive Worker where
  | idle
  /-- a work was taken off the queue and starts -/
  | start (work : Work)
  /-- the handlers that a pass has not come to yet -/
  | calling (dir : Direction) (rest : List Handler)
  /-- `early_suspend` is at its label `abort` -/
  | finish
  deriving DecidableEq

inductive Event where
  | call (dir : Direction) (handler : Nat)
  | pass (dir : Direction) (handlers : List Handler)
  deriving DecidableEq

structure State where
  /-- the bits `SUSPEND_REQUESTED` and `SUSPENDED` of `state` -/
  requested : Bool := false
  suspended : Bool := false
  /-- whether `main_wake_lock` is active -/
  mainWakeLock : Bool := true
  handlers : List Handler := []
  /-- the pending works, in the order in which they will run -/
  queue : List Work := []
  worker : Worker := .idle
  history : List Event := []
  deriving DecidableEq

namespace State

variable (s : State) (dir : Direction)

/-- `queue_work`: nothing happens to a work that is pending. -/
def queueWork (work : Work) : State :=
  if work ∈ s.queue then s else { s with queue := s.queue ++ [work] }

/-- `request_suspend_state`; `sleep` is `new_state != PM_SUSPEND_ON`. -/
def requestSuspendState (sleep : Bool) : State :=
  if !s.requested && sleep then
    { s with requested := true }.queueWork .earlySuspend
  else if s.requested && !sleep then
    { s with requested := false, mainWakeLock := true }.queueWork .lateResume
  else s

/-- The handler's function for this direction is called, if there is one. -/
def callHandler (handler : Handler) : State :=
  if handler.has dir then { s with history := s.history ++ [.call dir handler.id] } else s

/-- The first part of `early_suspend`, up to the end of its locked section. -/
def earlySuspend : State :=
  if s.requested && !s.suspended then
    { s with suspended := true, worker := .calling .suspend s.handlers }
  else { s with worker := .finish }

/-- The last section of `early_suspend`. -/
def earlySuspendFinish : State :=
  let s := if s.requested && s.suspended then { s with mainWakeLock := false } else s
  { s with worker := .idle }

/-- The first part of `late_resume`. -/
def lateResume : State :=
  if !s.requested && s.suspended then
    { s with suspended := false, worker := .calling .resume s.handlers.reverse }
  else { s with worker := .idle }

/-- A pass has come to its end. -/
def endPass : State :=
  { s with
    history := s.history ++ [.pass dir s.handlers]
    worker := match dir with
      | .suspend => .finish
      | .resume => .idle }

/-- The next step of the worker. -/
def work (s : State) : Option State :=
  match s.worker with
  | .idle =>
    match s.queue with
    | [] => none
    | work :: queue => some { s with queue := queue, worker := .start work }
  | .start .earlySuspend => some s.earlySuspend
  | .start .lateResume => some s.lateResume
  | .calling dir (handler :: rest) =>
    some { s.callHandler dir handler with worker := .calling dir rest }
  | .calling dir [] => some (s.endPass dir)
  | .finish => some s.earlySuspendFinish

/-- Whether a work holds `early_suspend_lock`. -/
def locked : Bool :=
  match s.worker with
  | .calling .. => true
  | _ => false

/-- Where `register_early_suspend` puts a handler. -/
def insertHandler (handler : Handler) : List Handler → List Handler
  | [] => [handler]
  | e :: rest =>
    if e.level > handler.level then handler :: e :: rest else e :: insertHandler handler rest

/-- `register_early_suspend`. -/
def registerEarlySuspend (handler : Handler) : State :=
  let s := { s with handlers := insertHandler handler s.handlers }
  if s.suspended then s.callHandler .suspend handler else s

end State

inductive Op where
  | request (sleep : Bool)
  | register (handler : Handler)
  | unregister (handler : Handler)
  | work
  deriving DecidableEq

def State.step (s : State) : Op → Option State
  | .request sleep => some (s.requestSuspendState sleep)
  | .register handler => if s.locked then none else some (s.registerEarlySuspend handler)
  | .unregister handler =>
    if s.locked then none else some { s with handlers := s.handlers.erase handler }
  | .work => s.work

/-! ## What is pending in which state -/

variable {s s' : State} {op : Op}

/-- The passes that have come to their end. -/
def State.passes (s : State) : List Direction :=
  s.history.filterMap fun
    | .pass dir _ => some dir
    | .call .. => none

/-- The work is pending or has just been taken off the queue. -/
def State.Awaits (s : State) (work : Work) : Prop := work ∈ s.queue ∨ s.worker = .start work

/-- `early_suspend` will still come to its end. -/
def State.WillFinish (s : State) : Prop :=
  s.Awaits .earlySuspend ∨ (∃ rest, s.worker = .calling .suspend rest) ∨ s.worker = .finish

/-- The passes alternate, and which one is next depends on the state and on the pass
that is going on. -/
structure State.Passes (s : State) : Prop where
  alternate : ∀ i dir, s.passes[i]? = some dir → dir = if i % 2 = 0 then .suspend else .resume
  parity : match s.worker with
    | .calling .suspend _ => s.suspended = true ∧ s.passes.length % 2 = 0
    | .calling .resume _ => s.suspended = false ∧ s.passes.length % 2 = 1
    | _ => s.suspended = true ↔ s.passes.length % 2 = 1

/-- Where `state` and the lock do not fit together yet, a work is there to see to it. -/
structure State.Ok (s : State) : Prop where
  awake : s.requested = false → s.mainWakeLock = true
  toSuspend : s.requested = true → s.suspended = false → s.Awaits .earlySuspend
  toResume : s.requested = false → s.suspended = true → s.Awaits .lateResume
  toRelease : s.requested = true → s.suspended = true → s.mainWakeLock = true → s.WillFinish
  passes : s.Passes

namespace State

variable {work : Work} {dir : Direction}

theorem init_ok : Ok {} := by
  refine ⟨fun _ => rfl, nofun, nofun, nofun, ?_, ?_⟩
  · intro i dir h
    simp [passes] at h
  · simp [passes]

@[simp] theorem queueWork_mem : work ∈ (s.queueWork work).queue := by
  unfold queueWork
  split
  · assumption
  · simp

/-- Queueing a work changes nothing but the queue. -/
theorem queueWork_eq (s : State) (work : Work) :
    s.queueWork work = { s with queue := (s.queueWork work).queue } := by
  unfold queueWork
  split <;> rfl

/-- The passes depend on little of the state. -/
theorem Passes.of_eq (h : s.Passes) (hsuspended : s'.suspended = s.suspended)
    (hworker : s'.worker = s.worker) (hpasses : s'.passes = s.passes) : s'.Passes := by
  refine ⟨hpasses ▸ h.alternate, ?_⟩
  rw [hworker, hpasses, hsuspended]
  exact h.parity

/-! ## Requests and the handler list -/

theorem requestSuspendState_ok (h : s.Ok) (sleep : Bool) : (s.requestSuspendState sleep).Ok := by
  unfold requestSuspendState
  split
  · -- `early_suspend` is queued, so that whatever it has to do will be done
    have hmem : Work.earlySuspend ∈ ({ s with requested := true }.queueWork .earlySuspend).queue :=
      queueWork_mem
    rw [queueWork_eq]
    exact ⟨nofun, fun _ _ => .inl hmem, nofun, fun _ _ _ => .inl (.inl hmem),
      h.passes.of_eq rfl rfl rfl⟩
  · split
    · have hmem : Work.lateResume ∈
          ({ s with requested := false, mainWakeLock := true }.queueWork .lateResume).queue :=
        queueWork_mem
      rw [queueWork_eq]
      exact ⟨fun _ => rfl, nofun, fun _ _ => .inl hmem, nofun, h.passes.of_eq rfl rfl rfl⟩
    · exact h

/-- Nothing that the works go by depends on the handlers and their calls. -/
theorem Ok.of_handlers (h : s.Ok) (handlers : List Handler) (history : List Event)
    (hpasses : ({ s with history := history } : State).passes = s.passes) :
    ({ s with handlers := handlers, history := history } : State).Ok :=
  ⟨h.awake, h.toSuspend, h.toResume, h.toRelease, h.passes.of_eq rfl rfl hpasses⟩

theorem callHandler_eq (s : State) (dir : Direction) (handler : Handler) :
    ∃ history, s.callHandler dir handler = { s with history := history } ∧
      ({ s with history := history } : State).passes = s.passes := by
  unfold callHandler
  split
  · exact ⟨_, rfl, by simp [passes]⟩
  · exact ⟨s.history, rfl, rfl⟩

theorem registerEarlySuspend_ok (h : s.Ok) (handler : Handler) :
    (s.registerEarlySuspend handler).Ok := by
  unfold registerEarlySuspend
  have hs := h.of_handlers (insertHandler handler s.handlers) s.history rfl
  dsimp only
  split
  · obtain ⟨history, heq, hpasses⟩ := callHandler_eq
      { s with handlers := insertHandler handler s.handlers } .suspend handler
    rw [heq]
    exact hs.of_handlers _ history hpasses
  · exact hs

/-! ## The works -/

/-- A pass that comes to its end is the one whose turn it is. -/
theorem Passes.end (h : s.Passes) (hworker : s.worker = .calling dir []) :
    (s.endPass dir).Passes := by
  have hpasses : (s.endPass dir).passes = s.passes ++ [dir] := by
    simp [endPass, passes]
  have hparity := h.parity
  rw [hworker] at hparity
  refine ⟨?_, ?_⟩
  · intro i dir' hi
    rw [hpasses] at hi
    rcases Nat.lt_trichotomy i s.passes.length with hlt | rfl | hgt
    · rw [getElem?_append_left hlt] at hi
      exact h.alternate i dir' hi
    · obtain rfl : dir = dir' := by simpa using hi
      cases dir with
      | suspend => rw [if_pos hparity.2]
      | resume => rw [if_neg (by rw [hparity.2]; decide)]
    · rw [getElem?_eq_none (by simp; omega)] at hi
      cases hi
  · rw [hpasses, length_append]
    cases dir with
    | suspend =>
      show s.suspended = true ↔ (s.passes.length + 1) % 2 = 1
      simp only [hparity.1, true_iff]
      omega
    | resume =>
      show s.suspended = true ↔ (s.passes.length + 1) % 2 = 1
      simp only [hparity.1, false_eq_true, false_iff]
      omega

section

variable (h : s.Ok)

include h

theorem earlySuspend_ok (hworker : s.worker = .start .earlySuspend) : s.earlySuspend.Ok := by
  have hparity := h.passes.parity
  rw [hworker] at hparity
  unfold earlySuspend
  split
  next hstate =>
    simp only [and_eq_true, not_eq_true'] at hstate
    refine ⟨h.awake, nofun, ?_, fun _ _ _ => .inr (.inl ⟨_, rfl⟩), h.passes.alternate, rfl, ?_⟩
    · intro hreq
      cases hstate.1.symm.trans hreq
    · show s.passes.length % 2 = 0
      have hnot : ¬ s.passes.length % 2 = 1 := by simp [← hparity, hstate.2]
      omega
  next hstate =>
    refine ⟨h.awake, ?_, ?_, fun _ _ _ => .inr (.inr rfl), h.passes.alternate, hparity⟩
    · intro hreq hsus
      exact absurd (by simp [show s.requested = true from hreq,
        show s.suspended = false from hsus]) hstate
    · intro hreq hsus
      exact .inl ((h.toResume hreq hsus).resolve_right (by simp [hworker]))

theorem earlySuspendFinish_ok (hworker : s.worker = .finish) : s.earlySuspendFinish.Ok := by
  have hparity := h.passes.parity
  rw [hworker] at hparity
  have hqueue {work : Work} (h : s.Awaits work) : work ∈ s.queue :=
    h.resolve_right (by simp [hworker])
  unfold earlySuspendFinish
  split
  next hstate =>
    simp only [and_eq_true] at hstate
    refine ⟨?_, ?_, ?_, nofun, h.passes.alternate, hparity⟩
    · intro hreq
      cases hstate.1.symm.trans hreq
    · exact fun hreq hsus => .inl (hqueue (h.toSuspend hreq hsus))
    · exact fun hreq hsus => .inl (hqueue (h.toResume hreq hsus))
  next hstate =>
    refine ⟨h.awake, fun hreq hsus => .inl (hqueue (h.toSuspend hreq hsus)),
      fun hreq hsus => .inl (hqueue (h.toResume hreq hsus)), ?_, h.passes.alternate, hparity⟩
    intro hreq hsus
    exact absurd (by simp [show s.requested = true from hreq,
      show s.suspended = true from hsus]) hstate

theorem lateResume_ok (hworker : s.worker = .start .lateResume) : s.lateResume.Ok := by
  have hparity := h.passes.parity
  rw [hworker] at hparity
  unfold lateResume
  split
  next hstate =>
    simp only [and_eq_true, not_eq_true'] at hstate
    refine ⟨h.awake, ?_, nofun, nofun, h.passes.alternate, rfl, hparity.mp hstate.2⟩
    intro hreq
    cases hstate.1.symm.trans hreq
  next hstate =>
    refine ⟨h.awake, ?_, ?_, ?_, h.passes.alternate, hparity⟩
    · intro hreq hsus
      exact .inl ((h.toSuspend hreq hsus).resolve_right (by simp [hworker]))
    · intro hreq hsus
      exact absurd (by simp [show s.requested = false from hreq,
        show s.suspended = true from hsus]) hstate
    · intro hreq hsus hlock
      -- the worker is at the start of `late_resume`, so `early_suspend` is pending
      rcases h.toRelease hreq hsus hlock with (h | h) | ⟨rest, h⟩ | h
      · exact .inl (.inl h)
      all_goals cases hworker.symm.trans h

/-- A step of a pass; one of `early_suspend` will still come to its end. -/
theorem pass_ok {rest : List Handler} {history : List Event} {worker : Worker}
    (hworker : s.worker = .calling dir rest)
    (hfinish : dir = .suspend → (∃ rest, worker = .calling .suspend rest) ∨ worker = .finish)
    (hpasses : ({ s with history := history, worker := worker } : State).Passes) :
    ({ s with history := history, worker := worker } : State).Ok := by
  have hqueue {work : Work} (h : s.Awaits work) : work ∈ s.queue :=
    h.resolve_right (by simp [hworker])
  refine ⟨h.awake, fun hreq hsus => .inl (hqueue (h.toSuspend hreq hsus)),
    fun hreq hsus => .inl (hqueue (h.toResume hreq hsus)), fun hreq hsus hlock => ?_, hpasses⟩
  rcases h.toRelease hreq hsus hlock with h | ⟨rest, h⟩ | h
  · exact .inl (.inl (hqueue h))
  · exact .inr (hfinish (Worker.calling.inj (hworker.symm.trans h)).1)
  · cases hworker.symm.trans h

theorem endPass_ok (hworker : s.worker = .calling dir []) : (s.endPass dir).Ok := by
  refine pass_ok h hworker ?_ (h.passes.end hworker)
  rintro rfl
  exact .inr rfl

/-- The next handler is called and the pass goes on. -/
theorem calling_ok {handler : Handler} {rest : List Handler}
    (hworker : s.worker = .calling dir (handler :: rest)) :
    ({ s.callHandler dir handler with worker := .calling dir rest } : State).Ok := by
  obtain ⟨history, heq, hpasses⟩ := callHandler_eq s dir handler
  have hparity := h.passes.parity
  rw [hworker] at hparity
  rw [heq]
  refine pass_ok h hworker ?_ ⟨hpasses ▸ h.passes.alternate, ?_⟩
  · rintro rfl
    exact .inl ⟨rest, rfl⟩
  · have hlength := congrArg (·.length % 2) hpasses
    cases dir <;> exact ⟨hparity.1, hlength.trans hparity.2⟩

/-- The worker takes the next work off the queue. -/
theorem take_ok {queue : List Work} (hworker : s.worker = .idle)
    (hqueue : s.queue = work :: queue) :
    ({ s with queue := queue, worker := .start work } : State).Ok := by
  have hawaits {work' : Work} (h : s.Awaits work') :
      ({ s with queue := queue, worker := .start work } : State).Awaits work' := by
    have hmem : work' ∈ s.queue := h.resolve_right (by simp [hworker])
    rw [hqueue, mem_cons] at hmem
    rcases hmem with rfl | hmem
    · exact .inr rfl
    · exact .inl hmem
  have hparity := h.passes.parity
  rw [hworker] at hparity
  refine ⟨h.awake, fun hreq hsus => hawaits (h.toSuspend hreq hsus),
    fun hreq hsus => hawaits (h.toResume hreq hsus), ?_, h.passes.alternate, hparity⟩
  intro hreq hsus hlock
  rcases h.toRelease hreq hsus hlock with h | ⟨rest, h⟩ | h
  · exact .inl (hawaits h)
  all_goals cases hworker.symm.trans h

theorem work_ok (hs : s.work = some s') : s'.Ok := by
  unfold work at hs
  split at hs
  case h_1 hworker =>
    split at hs
    · cases hs
    · cases hs
      exact take_ok h hworker ‹_›
  case h_2 hworker => cases hs; exact earlySuspend_ok h hworker
  case h_3 hworker => cases hs; exact lateResume_ok h hworker
  case h_4 hworker => cases hs; exact calling_ok h hworker
  case h_5 hworker => cases hs; exact endPass_ok h hworker
  case h_6 hworker => cases hs; exact earlySuspendFinish_ok h hworker

theorem step_ok (hs : s.step op = some s') : s'.Ok := by
  cases op with
  | request sleep =>
    cases hs
    exact requestSuspendState_ok h sleep
  | register handler =>
    obtain ⟨-, hs⟩ := Option.ite_none_left_eq_some.mp hs
    cases hs
    exact registerEarlySuspend_ok h handler
  | unregister handler =>
    obtain ⟨-, hs⟩ := Option.ite_none_left_eq_some.mp hs
    cases hs
    exact h.of_handlers _ s.history rfl
  | work => exact work_ok h hs

end

end State

/-! ## The calls of a pass -/

/-- The handlers in the order in which a pass goes over them. -/
def order (handlers : List Handler) : Direction → List Handler
  | .suspend => handlers
  | .resume => handlers.reverse

/-- The calls of a pass over these handlers. -/
def calls (dir : Direction) (handlers : List Handler) : List Event :=
  (handlers.filter (·.has dir)).map fun handler => .call dir handler.id

/-- Right before the end of a pass all handlers of the list have been called. -/
inductive Complete : List Event → Prop
  | nil : Complete []
  | call {history : List Event} (dir : Direction) (handler : Nat) :
      Complete history → Complete (history ++ [.call dir handler])
  | pass {history : List Event} {dir : Direction} {handlers : List Handler} :
      Complete history → calls dir (order handlers dir) <:+ history →
      Complete (history ++ [.pass dir handlers])

namespace State

/-- A pass that is going on has called the handlers that it has come to. -/
structure Calls (s : State) : Prop where
  complete : Complete s.history
  going : ∀ dir rest, s.worker = .calling dir rest →
    ∃ done, order s.handlers dir = done ++ rest ∧ calls dir done <:+ s.history

theorem callHandler_complete (s : State) (h : Complete s.history) (dir : Direction)
    (handler : Handler) : Complete (s.callHandler dir handler).history := by
  unfold callHandler
  split
  · exact h.call dir handler.id
  · exact h

/-- No pass is going on. -/
theorem Calls.of_not_locked (h : Complete s.history) (hlocked : s.locked = false) : s.Calls := by
  refine ⟨h, fun dir rest hworker => ?_⟩
  rw [locked, hworker] at hlocked
  cases hlocked

theorem calls_snoc {history : List Event} {dir : Direction} {done : List Handler}
    (h : calls dir done <:+ s.history) (handler : Handler)
    (hhistory : (s.callHandler dir handler).history = history) :
    calls dir (done ++ [handler]) <:+ history := by
  subst hhistory
  unfold callHandler calls
  rw [filter_append, map_append]
  by_cases hhas : handler.has dir = true
  · obtain ⟨before, hbefore⟩ := h
    refine ⟨before, ?_⟩
    simp [hhas, ← hbefore, calls]
  · simpa [hhas, calls] using h

theorem work_calls (h : s.Calls) (hs : s.work = some s') : s'.Calls := by
  unfold work at hs
  split at hs
  case h_1 =>
    split at hs
    · cases hs
    · cases hs
      exact .of_not_locked h.complete rfl
  case h_2 =>
    cases hs
    unfold earlySuspend
    split
    · refine ⟨h.complete, ?_⟩
      rintro dir rest ⟨⟩
      exact ⟨[], rfl, nil_suffix⟩
    · exact .of_not_locked h.complete rfl
  case h_3 =>
    cases hs
    unfold lateResume
    split
    · refine ⟨h.complete, ?_⟩
      rintro dir rest ⟨⟩
      exact ⟨[], rfl, nil_suffix⟩
    · exact .of_not_locked h.complete rfl
  case h_4 dir handler rest hworker =>
    cases hs
    obtain ⟨done, hdone, hcalls⟩ := h.going _ _ hworker
    refine ⟨callHandler_complete s h.complete dir handler, ?_⟩
    rintro _ _ ⟨⟩
    refine ⟨done ++ [handler], ?_, calls_snoc hcalls handler rfl⟩
    obtain ⟨history, heq, -⟩ := callHandler_eq s dir handler
    rw [heq, append_assoc]
    exact hdone
  case h_5 dir hworker =>
    cases hs
    obtain ⟨done, hdone, hcalls⟩ := h.going _ _ hworker
    rw [append_nil] at hdone
    refine .of_not_locked (h.complete.pass (hdone ▸ hcalls)) ?_
    cases dir <;> rfl
  case h_6 =>
    cases hs
    unfold earlySuspendFinish
    split <;> exact .of_not_locked h.complete rfl

theorem step_calls (h : s.Calls) (hs : s.step op = some s') : s'.Calls := by
  cases op with
  | request sleep =>
    cases hs
    unfold requestSuspendState
    split
    · rw [queueWork_eq]
      exact ⟨h.complete, h.going⟩
    · split
      · rw [queueWork_eq]
        exact ⟨h.complete, h.going⟩
      · exact h
  | register handler =>
    obtain ⟨hlocked, hs⟩ := Option.ite_none_left_eq_some.mp hs
    cases hs
    unfold registerEarlySuspend
    dsimp only
    split
    · obtain ⟨history, heq, -⟩ := callHandler_eq
        { s with handlers := insertHandler handler s.handlers } .suspend handler
      refine .of_not_locked (callHandler_complete
        { s with handlers := insertHandler handler s.handlers } h.complete .suspend handler) ?_
      rw [heq]
      exact eq_false_of_ne_true hlocked
    · exact .of_not_locked h.complete (eq_false_of_ne_true hlocked)
  | unregister handler =>
    obtain ⟨hlocked, hs⟩ := Option.ite_none_left_eq_some.mp hs
    cases hs
    exact .of_not_locked h.complete (eq_false_of_ne_true hlocked)
  | work => exact work_calls h hs

end State

/-! ## Every run -/

/-- However requests, the works and changes of the handler list interleave: without a
request to sleep the system is kept awake, the passes over the handlers alternate and are complete,
and once no work is left the state is settled one way or the other. -/
theorem suspendState_follows (h : Reached State.step (fun _ _ => True) {} s) :
    (s.requested = false → s.mainWakeLock = true) ∧
    (∀ i dir, s.passes[i]? = some dir → dir = if i % 2 = 0 then .suspend else .resume) ∧
    Complete s.history ∧ (s.queue = [] → s.worker = .idle →
      ((s.requested = false ∧ s.suspended = false) ∨ (s.requested = true ∧ s.suspended = true)) ∧
      (s.mainWakeLock = true ↔ s.requested = false ∧ s.suspended = false)) := by
  have hok : s.Ok := h.invariant State.init_ok fun _ _ _ hok _ hs => State.step_ok hok hs
  have hcalls : s.Calls := h.invariant ⟨.nil, nofun⟩ fun _ _ _ hcalls _ hs =>
    State.step_calls hcalls hs
  refine ⟨hok.awake, hok.passes.alternate, hcalls.complete, fun hqueue hworker => ?_⟩
  have hnone (work : Work) : ¬ s.Awaits work := by simp [State.Awaits, hqueue, hworker]
  have hfinished : ¬ s.WillFinish := by simp [State.WillFinish, hnone, hworker]
  cases hreq : s.requested with
  | false =>
    cases hsus : s.suspended with
    | false => simp [hok.awake hreq]
    | true => exact absurd (hok.toResume hreq hsus) (hnone _)
  | true =>
    cases hsus : s.suspended with
    | false => exact absurd (hok.toSuspend hreq hsus) (hnone _)
    | true =>
      have hlock : s.mainWakeLock ≠ true := fun hlock => hfinished (hok.toRelease hreq hsus hlock)
      simp [hlock]

/-- A request to wake up overtakes `early_suspend` while it calls its handler; the next
request to sleep comes before `late_resume` has run. -/
theorem suspendState_follows_overtaken : ∃ s, Reached State.step (fun _ _ => True) {} s ∧
    s.queue = [] ∧ s.worker = .idle ∧ s.requested = true ∧ s.passes = [.suspend] ∧
    (s.mainWakeLock = true ↔ s.requested = false ∧ s.suspended = false) := by
  obtain ⟨s, hs, hqueue, hworker, hrest⟩ : ∃ s, Reached State.step (fun _ _ => True) {} s ∧
      s.queue = [] ∧ s.worker = .idle ∧ s.requested = true ∧ s.passes = [.suspend] :=
    Reached.exists_of_checked [.register ⟨0, 0, true, true⟩, .request true, .work, .work,
      .request false, .work, .request true, .work, .work, .work, .work, .work, .work, .work]
      (by decide +kernel)
  exact ⟨s, hs, hqueue, hworker, hrest.1, hrest.2,
    ((suspendState_follows hs).2.2.2 hqueue hworker).2⟩

end AndroidKernel.EarlySuspend
