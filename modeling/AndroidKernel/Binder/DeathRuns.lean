import AndroidKernel.Binder.DeathFrame

/-!
# Death notifications: every run

Each step of the driver keeps the invariant and tells a process that a notification
is cleared only if that was the next thing to say about it. From this follows the
protocol of death notifications in every run.
-/

namespace AndroidKernel.Binder

open List Option

namespace State

variable {s s' : State} {w : Work} {env : Env} {signal taken : Bool} {request : Request}

/-! ## Steps that deal with registrations -/

/-- `BR_CLEAR_DEATH_NOTIFICATION_DONE` was not returned for the registration `d`, and is
not about to be. -/
def Uncleared (s : State) (d : DeathId) : Prop :=
  .cleared ∉ s.deathEvents d ∧
    ∀ death, s.deaths.get d = some death → death.type ≠ some .clearDeathNotification

/-- The invariant is kept, and `BR_CLEAR_DEATH_NOTIFICATION_DONE` is returned for no
registration that was not about to get it. -/
structure Advances (s s' : State) : Prop where
  inv : s'.DeathInv
  uncleared : ∀ d, s.Uncleared d → .cleared ∉ s'.deathEvents d

theorem Uncleared.of_kept {d : DeathId} (h : s.Uncleared d) (hk : Kept s s') : s'.Uncleared d := by
  refine ⟨hk.events d ▸ h.1, ?_⟩
  intro death hd
  exact h.2 death (hk.deaths d death hd)

theorem Uncleared.record {d d' : DeathId} {e : DeathEvent} (h : s.Uncleared d')
    (he : d = d' → e ≠ .cleared) : (s.record (.death d e)).Uncleared d' := by
  refine ⟨?_, h.2⟩
  rw [deathEvents_record]
  split
  next heq =>
    rw [mem_append, mem_singleton, not_or]
    exact ⟨h.1, (he heq).symm⟩
  · exact h.1

namespace Advances

variable {s' s'' : State}

theorem of_kept (h : s.DeathInv) (hk : Kept s s') : Advances s s' where
  inv := hk.inv h
  uncleared _ hd := (hd.of_kept hk).1

theorem refl (h : s.DeathInv) : Advances s s := of_kept h (Kept.refl s)

theorem after_kept (hk : Kept s s') (h : Advances s' s'') : Advances s s'' where
  inv := h.inv
  uncleared d hd := h.uncleared d (hd.of_kept hk)

theorem then_kept (h : Advances s s') (hk : Kept s' s'') : Advances s s'' where
  inv := hk.inv h.inv
  uncleared d hd := hk.events d ▸ h.uncleared d hd

/-- Nothing at all is returned. -/
theorem of_events (h : s'.DeathInv) (he : ∀ d, s'.deathEvents d = s.deathEvents d) :
    Advances s s' where
  inv := h
  uncleared d hd := he d ▸ hd.1

end Advances

/-! ## Commands -/

theorem bcDeadBinderDone_advances (h : s.DeathInv)
    {cookie : UInt32} : Ensures (s.bcDeadBinderDone p th cookie) Fault.NotDeath (Advances s) := by
  refine (bcDeadBinderDone_inv h p th cookie).weaken ?_
  rintro s' ⟨hinv, hhist⟩
  refine ⟨hinv, ?_⟩
  intro d hd
  rcases hhist with hhist | ⟨d', hhist⟩
  · rw [deathEvents, hhist]
    exact hd.1
  · rw [deathEvents, hhist, filterMap_append, mem_append]
    rintro (hmem | hmem)
    · exact hd.1 hmem
    · obtain ⟨e, he, heq⟩ := mem_filterMap.mp hmem
      cases mem_singleton.mp he
      rw [Event.ofDeath] at heq
      split at heq <;> cases heq

theorem binderThreadWrite_advances (h : s.DeathInv)
    {cmd : Command} : Ensures (s.binderThreadWrite p th env cmd) Fault.NotDeath (Advances s) := by
  have hkept : ∀ {x : Except Fault State}, Ensures x Fault.NotDeath (Kept s) →
      Ensures x Fault.NotDeath (Advances s) := fun hx => hx.weaken fun s' => .of_kept h
  have hsilent (s' : State) (h' : s'.DeathInv ∧ s'.history = s.history) : Advances s s' :=
    .of_events h'.1 fun d => congrArg (filterMap (Event.ofDeath d)) h'.2
  cases cmd with
  | ref cmd target => exact hkept bcRef_kept
  | increfsDone ptr cookie => exact hkept bcDone_kept.2
  | acquireDone ptr cookie => exact hkept bcDone_kept.1
  | freeBuffer dataPtr => exact hkept (bcFreeBuffer_kept h.areas)
  | transaction tr | reply tr => exact hkept (binderTransaction_kept h.areas)
  | registerLooper => exact hkept bcRegisterLooper_kept
  | enterLooper | exitLooper => exact hkept (thread_ensures.bind fun _ _ => Kept.setThread)
  | requestDeathNotification target cookie =>
    exact (bcRequestDeath_inv h ..).weaken hsilent
  | clearDeathNotification target cookie =>
    exact (bcClearDeath_inv h ..).weaken hsilent
  | deadBinderDone cookie => exact bcDeadBinderDone_advances h

/-! ## Reads -/

/-- A thread never reads from `delivered_death`. -/
theorem entry_of_nextWork {c : ReadCall} {waitForProcWork : Bool}
    (h : s.nextWork c waitForProcWork = some w) :
    ∃ q, s.works.entry w = some q ∧ q.isDelivered = false := by
  unfold nextWork at h
  split at h
  next v vs htodo =>
    cases h
    refine ⟨.thread c.thread, (s.works.mem_items _ w).mp ?_, rfl⟩
    rw [show s.works.items (.thread c.thread) = w :: vs from htodo]
    exact mem_cons_self
  · split at h
    · exact ⟨_, IntrusiveLists.entry_of_head? h, rfl⟩
    · cases h

/-- What a read does: in addition, no registration is about to be cleared that was not
before. -/
structure Reads (s s' : State) : Prop where
  inv : s'.DeathInv
  uncleared : ∀ d, s.Uncleared d → s'.Uncleared d

theorem Reads.trans {s'' : State} (h : Reads s s') (h' : Reads s' s'') : Reads s s'' where
  inv := h'.inv
  uncleared d hd := h'.uncleared d (h.uncleared d hd)

theorem Reads.advances (h : Reads s s') : Advances s s' where
  inv := h.inv
  uncleared d hd := (h.uncleared d hd).1

section

variable (h : s.DeathInv)

include h

theorem Reads.of_kept (hk : Kept s s') : Reads s s' where
  inv := hk.inv h
  uncleared _ hd := hd.of_kept hk

theorem readDeath_reads {q : Queue} (c : ReadCall) (ptr k : Nat)
    (hentry : s.works.entry (.death d) = some q) (hq : q.isDelivered = false) :
    Ensures (s.readDeath c d ptr k) Fault.NotDeath fun r => Reads s r.1 := by
  refine death_ensures.bind fun death hget => ?_
  have hreturned (x : Return) : Reads s (s.returnTo c.thread x) := .of_kept h Kept.returnTo
  split
  · exact (by decide : Fault.NotDeath (.endless .threadRead))
  next htype =>
    split
    · exact .of_kept h (Kept.refl s)
    · refine ⟨(hreturned _).inv.finish hget hentry hq htype, fun d' hd => ?_⟩
      -- the one that is cleared was about to be
      have hne : d ≠ d' := by
        rintro rfl
        exact hd.2 death hget htype
      have hrecord := ((hreturned (.death brClearDeathNotificationDone death.cookie)).uncleared
        d' hd).record (e := .cleared) fun heq => absurd heq hne
      refine ⟨hrecord.1, ?_⟩
      intro x hx
      exact hrecord.2 x (Heap.get_free_eq_some.mp hx).2
  -- BR_DEAD_BINDER: it waits for the answer.
  next type htype hne =>
    split
    · exact .of_kept h (Kept.refl s)
    · refine ((hreturned _).inv.deliver hget hentry hq ?_ c.proc).bind ?_
      · rw [hne]
        rintro ⟨⟩
        exact htype rfl
      · rintro s' ⟨hinv, hhist, hdeaths⟩
        refine Ensures.pure_iff.mpr ⟨hinv, fun d' hd => ?_⟩
        unfold Uncleared deathEvents
        rw [hhist, hdeaths]
        exact ((hreturned _).uncleared d' hd).record (by simp)

theorem readWork_reads (c : ReadCall) (ptr k : Nat)
    (hw : ∃ q, s.works.entry w = some q ∧ q.isDelivered = false) : Ensures (s.readWork c ptr k w)
    Fault.NotDeath fun r => Reads s r.1 := by
  cases w with
  | transaction t =>
    exact (readTransaction_kept h.areas).weaken fun _ => .of_kept h
  | transactionComplete t =>
    unfold readWork
    dsimp only
    split
    · exact .of_kept h (Kept.refl s)
    · exact .of_kept h (Kept.returnTo.trans (Kept.listDel nofun))
  | node n =>
    exact readNode_kept.weaken fun _ => .of_kept h
  | death d =>
    obtain ⟨q, hentry, hq⟩ := hw
    exact readDeath_reads h c ptr k hentry hq

theorem readLoop_reads (c : ReadCall) (waitForProcWork : Bool) (fuel ptr k : Nat) :
    Ensures (readLoop c waitForProcWork fuel s ptr k) Fault.NotDeath (Reads s) := by
  induction fuel generalizing s ptr k with
  | zero => exact (by decide : Fault.NotDeath (.endless .threadRead))
  | succ fuel ih =>
    unfold readLoop
    cases hnext : s.nextWork c waitForProcWork with
    | none =>
      refine thread_ensures.bind fun thread _ => ?_
      split
      · exact readRetry_kept.weaken fun _ => .of_kept h
      · exact readDone_kept.weaken fun _ => .of_kept h
    | some w =>
      dsimp only
      split
      · exact readDone_kept.weaken fun _ => .of_kept h
      · refine (readWork_reads h c ptr k (entry_of_nextWork hnext)).bind ?_
        rintro ⟨s₁, next⟩ h₁
        cases next with
        | more ptr => exact (ih h₁.inv ptr (k + 1)).weaken fun s' h' => h₁.trans h'
        | done => exact readDone_kept.weaken fun s' h' => h₁.trans (.of_kept h₁.inv h')
        | fault => exact h₁

theorem readResume_advances :
    Ensures (s.readResume p th env signal taken) Fault.NotDeath (Advances s) := by
  refine thread_ensures.bind fun thread _ => ?_
  split
  · exact .refl h
  · split
    · exact wakeThread_kept.weaken fun _ => .of_kept h
    split
    · refine wakeThread_kept.bind fun s₁ h₁ => ?_
      exact (readLoop_reads (h₁.inv h) ..).weaken fun s₂ h₂ => .after_kept h₁ h₂.advances
    · split
      · exact wakeThread_kept.weaken fun _ => .of_kept h
      · exact .refl h

/-! ## Processes -/

theorem releaseNodes_advances {p : ProcId} {proc : BinderProc} (hproc : s.procs.get p = some proc)
    (hk : Kept s s') : Ensures (s'.releaseNodes p proc.nodes) Fault.NotDeath (Advances s) := by
  refine (releaseNodes_inv (hk.inv h) p _ (h.linked.nodup_nodes p proc hproc) ?_).weaken
    fun s'' h'' => .after_kept hk (.of_events h''.1 h''.2)
  -- the nodes that the process had at the start are still its own
  intro n hn node hnode
  obtain ⟨hlt, howner⟩ := h.linked.proc_nodes p proc n hproc hn
  rcases hk.nodes.get n node hnode with ⟨x, hx, heq⟩ | ⟨hle, -⟩
  · exact heq.trans (howner x hx)
  · exact absurd hlt (Nat.not_lt.mpr hle)

theorem binderDeferredRelease_advances {env : PageEnv} :
    Ensures (s.binderDeferredRelease p env) Fault.NotDeath (Advances s) := by
  refine proc_ensures.bind fun proc hproc => ?_
  refine (bugOn_ensures (by decide)).bind fun _ _ => ?_
  refine (bugOn_ensures (by decide)).bind fun _ _ => ?_
  refine dropContextMgr_kept.bind fun s₁ h₁ => ?_
  refine (releaseThreads_kept (h₁.areas h.areas)).bind fun s₂ h₂ => ?_
  refine (releaseNodes_advances h hproc (h₁.trans h₂)).bind fun s₃ h₃ => ?_
  refine releaseRefs_kept.bind fun s₄ h₄ => ?_
  have h₄ := h₃.then_kept h₄
  refine (binderReleaseWork_kept h₄.inv.areas rfl).bind fun s₅ h₅ => ?_
  have h₅ := h₄.then_kept h₅
  refine (releaseBuffers_kept h₅.inv.areas).bind fun s₆ h₆ => ?_
  exact (h₅.then_kept h₆).then_kept freeProc_kept

theorem binderDeferredFunc_advances {env : PageEnv} :
    Ensures (s.binderDeferredFunc env) Fault.NotDeath (Advances s) := by
  unfold binderDeferredFunc
  split
  · exact .refl h
  rename_i p ps _
  refine proc_ensures.bind fun proc hproc => ?_
  have hlist : Kept s { s with deferredList := ps } := Calm.kept { Calm.refl s with }
  have hset : Kept s ({ s with deferredList := ps }.setProc p { proc with
      deferredWork := {}, files := proc.files && !proc.deferredWork.putFiles }) :=
    hlist.trans (Kept.setProc hproc (Sublist.refl _))
  have hflush {s : State} (flush : Bool) (ths : List ThreadId) :
      Ensures (s.flushIf flush ths) Fault.NotDeath (Kept s) := by
    unfold flushIf
    split
    · exact binderDeferredFlush_kept
    · exact Kept.refl s
  refine (hflush _ _).bind fun s₁ h₁ => ?_
  have h₁ := hset.trans h₁
  split
  · exact (binderDeferredRelease_advances (h₁.inv h)).weaken fun s₂ => .after_kept h₁
  · exact .of_kept h h₁

/-! ## The driver -/

theorem ioctlRequest_advances :
    Ensures (s.ioctlRequest p th env request) Fault.NotDeath (Advances s) := by
  cases request with
  | write cmd more =>
    have hwrite : Ensures (s.writeCommand p th env cmd) Fault.NotDeath (Advances s) := by
      refine thread_ensures.bind fun thread _ => ?_
      split
      · exact binderThreadWrite_advances h
      · exact .refl h
    refine Ensures.bind hwrite fun s₁ h₁ => ?_
    split
    · exact h₁
    · exact endIoctl_kept.weaken fun s₂ => h₁.then_kept
  | read size consumed nonBlock =>
    refine readStart_kept.bind fun s₁ h₁ => ?_
    exact endIoctl_kept.weaken fun s₂ h₂ => .of_kept h (h₁.trans h₂)
  | setMaxThreads maxThreads =>
    have hset : Ensures (s.setMaxThreads p maxThreads) Fault.NotDeath (Kept s) := by
      refine proc_ensures.bind fun proc hproc => ?_
      refine Kept.setProc hproc ?_
      exact Sublist.refl _
    refine Ensures.bind hset fun s₁ h₁ => ?_
    exact endIoctl_kept.weaken fun s₂ h₂ => .of_kept h (h₁.trans h₂)
  | setContextMgr euid =>
    refine setContextManager_kept.bind fun s₁ h₁ => ?_
    exact endIoctl_kept.weaken fun s₂ h₂ => .of_kept h (h₁.trans h₂)
  | threadExit => exact (binderFreeThread_kept h.areas).weaken fun _ => .of_kept h
  | other => exact endIoctl_kept.weaken fun _ => .of_kept h

theorem step_advances {op : Op} (hop : s.enabled op) :
    Ensures (s.step op) Fault.NotDeath (Advances s) := by
  have hkept : ∀ {x : Except Fault State}, Ensures x Fault.NotDeath (Kept s) →
      Ensures x Fault.NotDeath (Advances s) := fun hx => hx.weaken fun _ => .of_kept h
  cases op with
  | openFile pid euid kzalloc => exact .of_kept h binderOpen_kept
  | mmap p r => exact hkept (mmapArea_kept hop.2)
  | vmaClose p => exact hkept (binderVmaClose_kept h.areas)
  | flush p => exact hkept (@binderDeferWork_kept s p fun w => { w with flush := true })
  | release p => exact hkept binderRelease_kept
  | deferred env => exact binderDeferredFunc_advances h
  | ioctl p pid env request =>
    refine binderGetThread_kept.bind ?_
    rintro ⟨s₁, th⟩ h₁
    cases th with
    | none => exact .of_kept h h₁
    | some th => exact (ioctlRequest_advances (h₁.inv h)).weaken fun _ => .after_kept h₁
  | resume th env signal taken =>
    refine thread_ensures.bind fun thread _ => ?_
    refine (readResume_advances h).bind fun s₁ h₁ => ?_
    exact endIoctl_kept.weaken fun _ => h₁.then_kept
  | poll p pid env => exact hkept binderPoll_kept

end

/-! ## Runs -/

theorem init_deathInv : init.DeathInv := by
  have hrefs {r ref} : init.refs.get r ≠ some ref := some_ne_none ref ∘ Eq.symm
  have hnodes {n node} : init.nodes.get n ≠ some node := some_ne_none node ∘ Eq.symm
  have hprocs {p proc} : init.procs.get p ≠ some proc := some_ne_none proc ∘ Eq.symm
  have hdeaths {d death} : init.deaths.get d ≠ some death := some_ne_none death ∘ Eq.symm
  have howner {r d} : init.deathOf r ≠ some d := some_ne_none d ∘ Eq.symm
  refine ⟨?_, ?_, ?_⟩
  · intro p a ha
    exact absurd ha.symm (some_ne_none a)
  · constructor
    · exact fun _ _ h => absurd h hrefs
    · exact fun _ _ _ h => absurd h hnodes
    · exact fun _ _ h => absurd h hnodes
    · exact fun _ _ _ h => absurd h hprocs
    · exact fun _ _ h => absurd h hprocs
  · intro d
    constructor
    · exact fun _ => rfl
    · exact fun _ => ⟨rfl, .inl nil_prefix⟩
    · exact fun _ h => absurd h hdeaths
    · exact fun _ h => absurd h howner
    · exact fun _ _ h => absurd h howner
    · exact fun _ h => absurd h howner

theorem Reachable.deathInv (h : s.Reachable) : s.DeathInv := by
  refine h.invariant init_deathInv ?_
  intro s s' op hinv hop hs
  have hstep := step_advances hinv hop
  cases hres : s.step op with
  | error e =>
    rw [hres] at hs
    cases hs
  | ok s₁ =>
    rw [hres] at hs hstep
    cases hs
    exact hstep.inv

/-- **Death notifications follow their protocol** in every run. While the owner of a
node is alive, the notification of a reference to it is on no list; no step runs into
one of the two `BUG()`s about notifications; and what is returned for one registration
is `Proper`. As long as `BR_DEAD_BINDER` is queued or waits for its acknowledgement, no
step returns `BR_CLEAR_DEATH_NOTIFICATION_DONE`. -/
theorem reachable_death_protocol (h : s.Reachable) :
    (∀ r ref d node p, s.refs.get r = some ref → ref.death = some d →
      s.nodes.get ref.node = some node → node.proc = some p → s.works.entry (.death d) = none) ∧
    (∀ op, s.enabled op → s.step op ≠ .error (.bug .bcClearDeath) ∧
      s.step op ≠ .error (.bug .deferredReleaseDeath)) ∧ (∀ d, Proper (s.deathEvents d)) ∧
    (∀ d death, s.deaths.get d = some death → s.works.entry (.death d) ≠ none →
      death.type ≠ some .clearDeathNotification → ∀ op s', s.enabled op →
      s.step op = .ok s' → .cleared ∉ s'.deathEvents d) := by
  have hinv := h.deathInv
  refine ⟨?_, ?_, ?_, ?_⟩
  · intro r ref d node p hr hd hn hp
    have howner : s.deathOf r = some d := deathOf_eq_some.mpr ⟨ref, hr, hd⟩
    exact ((hinv.registration d).alive r howner ⟨ref, node, p, hr, hn, hp⟩).1
  · intro op hop
    have hstep := step_advances hinv hop
    refine ⟨?_, ?_⟩
    · intro he
      rw [he] at hstep
      exact hstep.1 rfl
    · intro he
      rw [he] at hstep
      exact hstep.2 rfl
  · intro d
    cases hd : s.deaths.get d with
    | none => exact ((hinv.registration d).gone hd).2
    | some death => exact ((hinv.registration d).live death hd).proper
  · intro d death hd _ htype op s' hop hs
    have hstep := step_advances hinv hop
    rw [hs] at hstep
    refine hstep.uncleared d ⟨((hinv.registration d).live death hd).not_cleared, ?_⟩
    intro death' hd'
    exact some.inj (hd.symm.trans hd') ▸ htype

/-- A kernel that grants everything. -/
def ampleEnv : Env where
  kzalloc _ := true
  page := { mm := true, page := fun _ => .mapped }
  copyData := true
  copyOffsets := true
  fget _ := true
  unusedFd _ := none
  putUser _ := true
  uninitialized := 0

/-- A process becomes the context manager, another one asks to be told of its death,
the first one dies, and the other one is told; it clears the notification, acknowledges
the death, and reads that the notification is cleared. -/
def deathRun : List Op :=
  [.openFile 1 0 true, .openFile 2 0 true,
    .ioctl 0 1 ampleEnv (.setContextMgr 0),
    .ioctl 1 2 ampleEnv (.write (.ref .acquire 0) false),
    .ioctl 1 2 ampleEnv (.write (.requestDeathNotification 0 7) false),
    .release 0, .deferred ampleEnv.page,
    .ioctl 1 2 ampleEnv (.read 64 0 false), .resume 1 ampleEnv false false,
    .ioctl 1 2 ampleEnv (.write (.clearDeathNotification 0 7) false),
    .ioctl 1 2 ampleEnv (.write (.deadBinderDone 7) false),
    .ioctl 1 2 ampleEnv (.read 64 0 false), .resume 1 ampleEnv false false]

/-- When the death was told the notification cannot be cleared yet; at the end it is. -/
theorem deathRun_protocol : (∃ s : State, s.Reachable ∧ s.deathEvents 0 = [.deadBinder] ∧
      s.works.entry (.death 0) = some (.deliveredDeath 1) ∧
      ∀ op s', s.enabled op → s.step op = .ok s' → .cleared ∉ s'.deathEvents 0) ∧
    ∃ s : State, s.Reachable ∧ s.deathEvents 0 = [.deadBinder, .deadBinderDone, .cleared] ∧
      Proper (s.deathEvents 0) := by
  obtain ⟨s, hreach, hevents, hentry, hdeath⟩ : ∃ s : State, s.Reachable ∧
      s.deathEvents 0 = [.deadBinder] ∧ s.works.entry (.death 0) = some (.deliveredDeath 1) ∧
      (s.deaths.get 0).map (·.type) = some (some .deadBinder) :=
    Reached.exists_of_checked (deathRun.take 9) (by decide +kernel)
  obtain ⟨death, hget, htype⟩ := map_eq_some_iff.mp hdeath
  obtain ⟨-, -, -, huncleared⟩ := reachable_death_protocol hreach
  refine ⟨⟨s, hreach, hevents, hentry, huncleared 0 death hget ?_ ?_⟩,
    Reached.exists_of_checked_and deathRun (by decide +kernel) fun s hreach _ =>
      (reachable_death_protocol hreach).2.2.1 0⟩
  · rw [hentry]
    nofun
  · rw [htype]
    nofun

end State

end AndroidKernel.Binder
