import AndroidKernel.Binder.Counting

/-!
# Death notifications: the protocol

What the functions that deal with death notifications do to the invariant: one
lemma for each way a registration goes on, and the functions put together from
them. `BC_CLEAR_DEATH_NOTIFICATION` and `binder_deferred_release` do not run into
their `BUG()`s.
-/

namespace AndroidKernel.Binder

open List Option

variable {s s' : State} {d : DeathId} {r : RefId} {ref : BinderRef} {death : BinderRefDeath}
  {q : Queue} {p : ProcId}

/-! ## References and their registrations -/

theorem RefLinks.setRef {refs : Heap BinderRef} {nodes : Heap BinderNode} {procs : Heap BinderProc}
    {ref' : BinderRef} (h : RefLinks refs nodes procs) (href : refs.get r = some ref)
    (hnode : ref'.node = ref.node) : RefLinks (refs.set r ref') nodes procs :=
  h.restrictRefs rfl (Heap.forall_get_set ⟨ref, href, hnode⟩ fun _ x hx => ⟨x, hx, rfl⟩)

namespace State

theorem deathOf_setRef {ref' : BinderRef} (h : s.refs.get r = some ref) (r' : RefId) :
    (s.setRef r ref').deathOf r' = if r' = r then ref'.death else s.deathOf r' := by
  rw [deathOf, State.setRef]
  split
  next hr =>
    rw [hr, Heap.get_set_self h]
    rfl
  next hr =>
    rw [Heap.get_set_of_ne hr]
    rfl

theorem OwnerAlive.of_setRef {o : Option DeathId} {r' : RefId} (h : s.refs.get r = some ref)
    (ho : (s.setRef r { ref with death := o }).OwnerAlive r') : s.OwnerAlive r' := by
  obtain ⟨x, node, p, hx, hn, hp⟩ := ho
  rcases Heap.get_set_eq_some.mp hx with ⟨rfl, rfl, -⟩ | ⟨-, hx⟩
  · exact ⟨ref, node, p, h, hn, hp⟩
  · exact ⟨x, node, p, hx, hn, hp⟩

theorem deathEvents_record (d' : DeathId) (e : DeathEvent) :
    (s.record (.death d e)).deathEvents d' =
      if d = d' then s.deathEvents d' ++ [e] else s.deathEvents d' := by
  rw [deathEvents, State.record, filterMap_append]
  by_cases hd : d = d'
  · rw [if_pos hd, filterMap_cons_some (show Event.ofDeath d' (.death d e) = some e from
      if_pos hd)]
    rfl
  · rw [if_neg hd, filterMap_cons_none (show Event.ofDeath d' (.death d e) = none from
      if_neg hd)]
    exact append_nil _

/-- A registration that is linked to a reference has only that one. -/
theorem DeathInv.owner_eq (h : s.DeathInv) (hr : s.refs.get r = some ref)
    (hd : ref.death = some d) {r' : RefId} (hr' : s.deathOf r' = some d) : r' = r :=
  (h.registration d).unique r' r hr' (deathOf_eq_some.mpr ⟨ref, hr, hd⟩)

namespace DeathInv

/-! ## How a registration goes on -/

section

variable (h : s.DeathInv)

include h

/-- A new registration. -/
theorem register (href : s.refs.get r = some ref) (x : BinderRefDeath) :
    ({ s with deaths := s.deaths.alloc x }.setRef r
      { ref with death := some s.deaths.next }).DeathInv := by
  let s₁ : State := { s with deaths := s.deaths.alloc x }
  have href₁ : s₁.refs.get r = some ref := href
  have hreg := h.registration s.deaths.next
  have hentry := (hreg.gone Heap.get_next).1
  have hevents := hreg.unused le_rfl
  have howner : ∀ r', (s₁.setRef r { ref with death := some s.deaths.next }).deathOf r' =
      some s.deaths.next → r' = r := by
    intro r' hr'
    rw [deathOf_setRef href₁] at hr'
    split at hr'
    · assumption
    · obtain ⟨death, hget, -⟩ := hreg.owned r' hr'
      rw [Heap.get_next] at hget
      cases hget
  refine h.change h.areas (h.linked.setRef href rfl) ?_ (Nat.le_succ _)
    (fun d hd => ⟨Heap.get_alloc.trans (if_neg hd), rfl, rfl⟩) ?_
    fun r' => OwnerAlive.of_setRef href₁
  · refine .of_live Heap.get_alloc_next ?_ (fun _ _ hne => absurd hentry hne) ?_
      fun _ _ _ => ⟨hentry, hevents⟩
    · show Told (s.works.entry _) _ (s.deathEvents _)
      rw [hentry, hevents]
      exact .inl rfl
    · intro r₁ r₂ h₁ h₂
      rw [howner r₁ h₁, howner r₂ h₂]
  · intro r' d hd hr'
    rw [deathOf_setRef href₁] at hr'
    split at hr'
    · exact absurd (some.inj hr').symm hd
    · exact hr'

/-- A reference gives its registration up. -/
theorem unregister (href : s.refs.get r = some ref) :
    (s.setRef r { ref with death := none }).DeathInv := by
  refine ⟨h.areas, h.linked.setRef href rfl, ?_⟩
  intro d
  refine (h.registration d).same rfl le_rfl (.inl rfl) rfl ?_ ?_
  · intro r' hr'
    rw [deathOf_setRef href] at hr'
    split at hr'
    · cases hr'
    · exact hr'
  · intro r' _ ho
    exact OwnerAlive.of_setRef href ho

theorem deathOf_unregister (href : s.refs.get r = some ref) (hd : ref.death = some d) (r' : RefId) :
    (s.setRef r { ref with death := none }).deathOf r' ≠ some d := by
  intro hr'
  rw [deathOf_setRef href] at hr'
  split at hr'
  · cases hr'
  next hne =>
    exact hne (h.owner_eq href hd hr')

variable (hget : s.deaths.get d = some death)

include hget

/-- The type of the work changes, as far as what was told allows it. -/
theorem setDeath {death' : BinderRefDeath}
    (htold : Told (s.works.entry (.death d)) death'.type (s.deathEvents d))
    (howned : ∀ r, s.deathOf r = some d → s.works.entry (.death d) ≠ none →
      death'.type = some .deadBinder) : (s.setDeath d death').DeathInv := by
  have hreg := h.registration d
  exact h.change h.areas h.linked
    (.of_live (Heap.get_set_self hget) htold howned hreg.unique hreg.alive) le_rfl
    (fun _ hd => ⟨Heap.get_set_of_ne hd, rfl, rfl⟩) (fun _ _ _ hr => hr) fun _ ho => ho

/-- Work that is on no list can get any type. -/
theorem setType (hentry : s.works.entry (.death d) = none) (type : Option DeathWork) :
    (s.setDeath d { death with type := type }).DeathInv := by
  have htold := (h.registration d).live death hget
  rw [hentry] at htold
  refine h.setDeath hget ?_ ?_
  · rw [hentry]
    exact htold
  · intro _ _ hne
    exact absurd hentry hne

/-- Work is queued: to clear the notification of a reference that gave it up, or
because the owner of the node is dead. -/
theorem queue (hq : q.isDelivered = false)
    (hevents : death.type ≠ some .clearDeathNotification → s.deathEvents d = [])
    (howner : ∀ r, s.deathOf r = some d → death.type = some .deadBinder ∧ ¬ s.OwnerAlive r) :
    Ensures (s.listAddTail (.death d) q) Fault.NotDeath
      fun s' => s'.DeathInv ∧ s'.history = s.history := by
  rw [listAddTail]
  split
  next hnone =>
    have hreg := h.registration d
    have htold := hreg.live death hget
    rw [hnone] at htold
    have hself : (s.works.addTail (.death d) q hnone).entry (.death d) = some q :=
      IntrusiveLists.entry_addTail_self
    refine ⟨h.change h.areas h.linked (d := d) ?_ le_rfl (fun d' hd => ⟨rfl, ?_, rfl⟩)
      (fun _ _ _ hr => hr) fun _ ho => ho, rfl⟩
    · refine .of_live hget ?_ (fun r hr _ => (howner r hr).1) hreg.unique
        fun r hr ho => absurd ho (howner r hr).2
      rw [hself]
      unfold Told
      dsimp only
      rw [hq, if_neg Bool.false_ne_true]
      split
      · exact htold
      next htype =>
        exact hevents htype
    · show (s.works.addTail (.death d) q hnone).entry _ = _
      exact IntrusiveLists.entry_addTail_of_ne fun heq => hd (Work.death.inj heq)
  · exact (by decide : Fault.NotDeath .corruptList)

/-- A death that was told is acknowledged. -/
theorem acknowledge (hentry : s.works.entry (.death d) = some (.deliveredDeath p)) :
    ((s.listDel (.death d)).record (.death d .deadBinderDone)).DeathInv := by
  have hreg := h.registration d
  have htold := hreg.live death hget
  rw [hentry] at htold
  have hnone : (s.works.del (.death d)).entry (.death d) = none := IntrusiveLists.entry_del_self
  refine h.change h.areas h.linked ?_ le_rfl
    (fun d' hd => ⟨rfl, ?_, (deathEvents_record ..).trans (if_neg (Ne.symm hd))⟩)
    (fun _ _ _ hr => hr) fun _ ho => ho
  · refine .of_live hget ?_ (fun r _ hne => absurd hnone hne) hreg.unique fun r hr ho => ?_
    · show Told ((s.works.del (.death d)).entry _) _ _
      rw [hnone, deathEvents_record, if_pos rfl]
      exact .inr (congrArg (fun told => told ++ [DeathEvent.deadBinderDone]) htold)
    · cases hentry.symm.trans (hreg.alive r hr ho).1
  · exact IntrusiveLists.entry_del_of_ne fun heq => hd (Work.death.inj heq)

/-- A reference is deleted together with its registration. -/
theorem delete (howner : ∀ r', s.deathOf r' = some d → r' = r) : ({ s.listDel (.death d) with
      deaths := s.deaths.free d, refs := s.refs.free r } : State).DeathInv := by
  have hrefs : ∀ {r' d'}, ((s.refs.free r).get r').bind BinderRef.death = some d' →
      r' ≠ r ∧ s.deathOf r' = some d' := by
    intro r' d' hr'
    obtain ⟨ref, hget, hd⟩ := bind_eq_some_iff.mp hr'
    obtain ⟨hne, hget⟩ := Heap.get_free_eq_some.mp hget
    exact ⟨hne, deathOf_eq_some.mpr ⟨ref, hget, hd⟩⟩
  have hlt : d < s.deaths.next := Heap.lt_next_of_get hget
  refine h.change h.areas (h.linked.restrictRefs rfl ?_) ?_ le_rfl
    (fun d' hd => ⟨Heap.get_free_of_ne hd, ?_, rfl⟩) (fun _ _ _ hr' => (hrefs hr').2) ?_
  · intro r' ref hr'
    exact ⟨ref, (Heap.get_free_eq_some.mp hr').2, rfl⟩
  · exact .of_gone hlt Heap.get_free_self IntrusiveLists.entry_del_self
      ((h.registration d).live death hget).proper
      fun r' hr' => (hrefs hr').1 (howner r' (hrefs hr').2)
  · exact IntrusiveLists.entry_del_of_ne fun heq => hd (Work.death.inj heq)
  · rintro r' ⟨ref, node, p, hr', hn, hp⟩
    exact ⟨ref, node, p, (Heap.get_free_eq_some.mp hr').2, hn, hp⟩

variable (hentry : s.works.entry (.death d) = some q)

include hentry

/-- What was told of work that waits to be read. -/
theorem told_of_queued (hq : q.isDelivered = false) :
    if death.type = some .clearDeathNotification then Settled (s.deathEvents d)
    else s.deathEvents d = [] := by
  have htold := (h.registration d).live death hget
  rw [hentry] at htold
  unfold Told at htold
  dsimp only at htold
  rwa [hq] at htold

/-- A reference whose notification is on a list did not give it up, and the owner of its
node is dead. -/
theorem of_linked (hr : s.deathOf r = some d) :
    death.type = some .deadBinder ∧ ¬ s.OwnerAlive r := by
  obtain ⟨x, hx, htype⟩ := (h.registration d).owned r hr
  cases hx.symm.trans hget
  refine ⟨htype (by rw [hentry]; nofun), ?_⟩
  intro ho
  rw [((h.registration d).alive r hr ho).1] at hentry
  cases hentry

/-- `BR_CLEAR_DEATH_NOTIFICATION_DONE` is returned and the notification is freed. -/
theorem finish (hq : q.isDelivered = false) (htype : death.type = some .clearDeathNotification) :
    ({ (s.record (.death d .cleared)).listDel (.death d) with
      deaths := s.deaths.free d } : State).DeathInv := by
  have hlt : d < s.deaths.next := Heap.lt_next_of_get hget
  have hsettled := h.told_of_queued hget hentry hq
  rw [if_pos htype] at hsettled
  refine h.change h.areas h.linked ?_ le_rfl (fun d' hd =>
    ⟨Heap.get_free_of_ne hd, ?_, (deathEvents_record ..).trans (if_neg (Ne.symm hd))⟩)
    (fun _ _ _ hr => hr) fun _ ho => ho
  · refine .of_gone hlt Heap.get_free_self IntrusiveLists.entry_del_self ?_
      fun r hr => ?_
    · show Proper ((s.record (.death d .cleared)).deathEvents d)
      rw [deathEvents_record, if_pos rfl]
      exact hsettled.proper_cleared
    · cases htype.symm.trans (h.of_linked hget hentry hr).1
  · exact IntrusiveLists.entry_del_of_ne fun heq => hd (Work.death.inj heq)

/-- `BR_DEAD_BINDER` is returned. -/
theorem deliver (hq : q.isDelivered = false)
    (htype : death.type ≠ some .clearDeathNotification) (p : ProcId) :
    Ensures ((s.record (.death d .deadBinder)).moveToDelivered p d) Fault.NotDeath fun s' =>
      s'.DeathInv ∧ s'.history = (s.record (.death d .deadBinder)).history ∧
        s'.deaths = s.deaths := by
  unfold moveToDelivered
  rw [listAdd]
  split
  · have hnil := h.told_of_queued hget hentry hq
    rw [if_neg htype] at hnil
    refine ⟨h.change h.areas h.linked ?_ le_rfl
      (fun d' hd => ⟨rfl, ?_, (deathEvents_record ..).trans (if_neg (Ne.symm hd))⟩)
      (fun _ _ _ hr => hr) fun _ ho => ho, rfl, rfl⟩
    · refine .of_live hget ?_ (fun r hr _ => (h.of_linked hget hentry hr).1)
        (h.registration d).unique fun r hr ho => absurd ho (h.of_linked hget hentry hr).2
      show Told (if Work.death d = .death d then some (.deliveredDeath p) else _) _
        ((s.record (.death d .deadBinder)).deathEvents d)
      rw [if_pos rfl, deathEvents_record, if_pos rfl, hnil]
      rfl
    · show (if Work.death d' = .death d then _ else (s.works.del (.death d)).entry _) = _
      have hne : Work.death d' ≠ .death d := fun heq => hd (Work.death.inj heq)
      rw [if_neg hne, IntrusiveLists.entry_del_of_ne hne]
  · exact (by decide : Fault.NotDeath .corruptList)

end

end DeathInv

/-! ## `binder_delete_ref` -/

theorem binderDeleteRef_kept {r : RefId} : s.Keeps (s.binderDeleteRef r) := by
  refine ref_ensures.bind fun ref href => ?_
  refine eraseRef_kept.bind fun s₁ h₁ => ?_
  refine dropRefStrong_kept.bind fun s₂ h₂ => ?_
  refine hlistDelRef_kept.bind fun s₃ h₃ => ?_
  refine binderDecNode_kept.bind fun s₄ h₄ => ?_
  have h := ((h₁.trans h₂).trans h₃).trans h₄
  have hfree : RefsEvolve s₄.refs (s₄.refs.free r) := Heap.Evolves.free fun _ => ⟨rfl, rfl⟩
  unfold deleteRefDeath
  cases hd : ref.death with
  | none =>
    refine h.trans (Calm.kept { Calm.refl s₄ with
      refs := hfree, linked := fun hl => hl.restrictRefs rfl ?_ })
    intro r' x hr'
    exact ⟨x, (Heap.get_free_eq_some.mp hr').2, rfl⟩
  | some d =>
    refine (Ensures.bind death_ensures fun death hget => ?_).bind fun s₅ h₅ => h₅
    refine ⟨?_, h.refs.trans hfree, h.nodes, h.areas, ?_, h.events, ?_⟩
    · intro hinv
      refine (h.inv hinv).delete hget ?_
      intro r' hr'
      exact hinv.owner_eq href hd (h.refs.deathOf hr')
    · rintro d' ⟨p, hp⟩
      refine h.delivered d' ⟨p, ?_⟩
      have hp' : (if Work.death d' = .death d then none else s₄.works.entry (.death d')) =
        some (.deliveredDeath p) := hp
      split at hp'
      · cases hp'
      · exact hp'
    · intro d' x hx
      exact h.deaths d' x (Heap.get_free_eq_some.mp hx).2

/-! ## Commands -/

theorem mem_of_findDelivered {cookie : UInt32} {ws : List Work}
    (h : s.findDelivered cookie ws = some d) : .death d ∈ ws := by
  induction ws with
  | nil => cases h
  | cons w ws ih =>
    cases w with
    | death d' =>
      unfold findDelivered at h
      split at h
      · cases h
        exact mem_cons_self
      · exact mem_cons_of_mem _ (ih h)
    | _ => exact mem_cons_of_mem _ (ih h)

/-- Queueing a notification changes nothing else. -/
theorem listAddTail_other (s : State) (d : DeathId) (q : Queue) :
    Ensures (s.listAddTail (.death d) q) (fun _ => True) fun s' =>
      s'.refs = s.refs ∧ s'.nodes = s.nodes ∧ ∀ d', d' ≠ d →
        s'.works.entry (.death d') = s.works.entry (.death d') ∧
        s'.deathEvents d' = s.deathEvents d' := by
  rw [listAddTail]
  split
  next hnone =>
    refine ⟨rfl, rfl, fun d' hne => ⟨?_, rfl⟩⟩
    show (s.works.addTail (.death d) q hnone).entry _ = _
    exact IntrusiveLists.entry_addTail_of_ne fun heq => hne (Work.death.inj heq)
  · trivial

section

variable (h : s.DeathInv)

include h

theorem queueDeath_inv (hget : s.deaths.get d = some death)
    (hevents : death.type ≠ some .clearDeathNotification → s.deathEvents d = [])
    (howner : ∀ r, s.deathOf r = some d → death.type = some .deadBinder ∧ ¬ s.OwnerAlive r)
    (p : ProcId) (th : ThreadId) : Ensures (s.queueDeath p th d) Fault.NotDeath
      fun s' => s'.DeathInv ∧ s'.history = s.history := by
  refine thread_ensures.bind fun thread _ => ?_
  refine h.queue hget ?_ hevents howner
  split <;> rfl

theorem bcRequestDeath_inv (p : ProcId) (th : ThreadId) (target cookie : UInt32) (kzalloc : Bool) :
    Ensures (s.bcRequestDeath p th target cookie kzalloc) Fault.NotDeath
      fun s' => s'.DeathInv ∧ s'.history = s.history := by
  refine binderGetRef_ensures.bind fun found _ => ?_
  split
  · exact ⟨h, rfl⟩
  rename_i r
  refine ref_ensures.bind fun ref href => ?_
  split
  · exact ⟨h, rfl⟩
  split
  · refine thread_ensures.bind fun thread _ => ?_
    exact ⟨Kept.setThread.inv h, rfl⟩
  refine node_ensures.bind fun node hnode => ?_
  split
  next hdead =>
    -- the owner is dead already
    have hreg := h.register href { cookie := cookie, type := some .deadBinder }
    refine queueDeath_inv hreg Heap.get_alloc_next ?_ ?_ p th
    · intro _
      exact (h.registration _).unused le_rfl
    intro r' hr'
    refine ⟨rfl, ?_⟩
    have hr : r' = r := hreg.owner_eq (Heap.get_set_self href) rfl hr'
    rintro ⟨x, node', q, hx, hn, hq⟩
    rw [hr, State.setRef, Heap.get_set_self href] at hx
    cases hx
    cases hnode.symm.trans hn
    rw [hdead] at hq
    cases hq
  · exact ⟨h.register href _, rfl⟩

/-- A notification that is queued is cleared when it has been told; another at once. -/
theorem bcClearDeath_inv (p : ProcId) (th : ThreadId) (target cookie : UInt32) :
    Ensures (s.bcClearDeath p th target cookie) Fault.NotDeath
      fun s' => s'.DeathInv ∧ s'.history = s.history := by
  refine binderGetRef_ensures.bind fun found _ => ?_
  split
  · exact ⟨h, rfl⟩
  rename_i r
  refine ref_ensures.bind fun ref href => ?_
  split
  · exact ⟨h, rfl⟩
  rename_i d hd
  refine death_ensures.bind fun death hget => ?_
  split
  · exact ⟨h, rfl⟩
  have hfree := h.unregister href
  have hno := h.deathOf_unregister href hd
  dsimp only
  split
  next hunlinked =>
    have hnone : s.works.entry (.death d) = none := by
      simpa [unlinked, State.setRef] using hunlinked
    refine queueDeath_inv (hfree.setType hget hnone _) (Heap.get_set_self hget) ?_ ?_ p th
    · intro hne
      exact absurd rfl hne
    · intro r' hr'
      exact absurd hr' (hno r')
  next hlinked =>
    have hne : s.works.entry (.death d) ≠ none := by
      simpa [unlinked, State.setRef] using hlinked
    obtain ⟨q, hentry⟩ := ne_none_iff_exists'.mp hne
    have hr : s.deathOf r = some d := deathOf_eq_some.mpr ⟨ref, href, hd⟩
    have htype := (h.of_linked hget hentry hr).1
    rw [htype]
    refine Ensures.ok_bind ⟨hfree.setDeath hget ?_ ?_, rfl⟩
    · -- the work stays where it is
      have htold := (h.registration d).live death hget
      rw [htype] at htold
      exact htold
    · intro r' hr'
      exact absurd hr' (hno r')

/-- One that was cleared in the meantime is queued again. -/
theorem bcDeadBinderDone_inv (p : ProcId) (th : ThreadId) (cookie : UInt32) :
    Ensures (s.bcDeadBinderDone p th cookie) Fault.NotDeath fun s' => s'.DeathInv ∧
      (s'.history = s.history ∨ ∃ d, s'.history = s.history ++ [.death d .deadBinderDone]) := by
  unfold bcDeadBinderDone
  split
  · exact ⟨h, .inl rfl⟩
  rename_i d hfound
  have hentry : s.works.entry (.death d) = some (.deliveredDeath p) :=
    (s.works.mem_items _ _).mp (mem_of_findDelivered hfound)
  refine death_ensures.bind fun death hget => ?_
  have hdone := h.acknowledge hget hentry
  split
  next htype =>
    refine (queueDeath_inv (hdone.setType hget IntrusiveLists.entry_del_self _)
      (Heap.get_set_self hget) ?_ ?_ p th).weaken fun s' h' => ⟨h'.1, .inr ⟨d, h'.2⟩⟩
    · intro hne
      exact absurd rfl hne
    · -- a reference would still have the type that its notification was queued with
      intro r hr
      have htype' := (h.of_linked hget hentry hr).1
      rw [htype] at htype'
      cases htype'
  · exact ⟨hdone, .inr ⟨d, rfl⟩⟩

/-! ## The owner of a node dies -/

/-- Nothing happened to the notification of a reference yet, and the owner of its node
is dead. -/
structure Unnotified (s : State) (r : RefId) : Prop where
  untold : ∀ d, s.deathOf r = some d → s.works.entry (.death d) = none ∧ s.deathEvents d = []
  dead : ¬ s.OwnerAlive r

/-- The others are not affected by the notification of `r`. -/
structure NotifiedOnly (s : State) (r : RefId) (s' : State) : Prop where
  inv : s'.DeathInv
  refs : s'.refs = s.refs
  nodes : s'.nodes = s.nodes
  other : ∀ d, s.deathOf r ≠ some d → s'.works.entry (.death d) = s.works.entry (.death d) ∧
    s'.deathEvents d = s.deathEvents d

/-- The notification is queued for the process that has the reference. -/
theorem notifyDeath_inv (hr : s.Unnotified r) : Ensures (s.notifyDeath r) Fault.NotDeath
      fun s' => s.NotifiedOnly r s' ∧ s'.history = s.history := by
  refine ref_ensures.bind fun ref href => ?_
  split
  · exact ⟨⟨h, rfl, rfl, fun _ _ => ⟨rfl, rfl⟩⟩, rfl⟩
  rename_i d hd
  have hdeath : s.deathOf r = some d := deathOf_eq_some.mpr ⟨ref, href, hd⟩
  obtain ⟨hentry, hevents⟩ := hr.untold d hdeath
  refine death_ensures.bind fun death hget => ?_
  have hunlinked : (!s.unlinked (.death d)) = false := by
    rw [unlinked, hentry]
    rfl
  rw [hunlinked]
  refine Ensures.ok_bind ?_
  have hqueue := (h.setType hget hentry (some .deadBinder)).queue (q := .proc ref.proc)
    (Heap.get_set_self hget) rfl (fun _ => hevents) ?_
  · refine (hqueue.and (listAddTail_other _ d _)).mono (fun _ he => he.1) ?_
    rintro s' ⟨⟨hinv, hhist⟩, hrefs, hnodes, hother⟩
    refine ⟨⟨hinv, hrefs, hnodes, ?_⟩, hhist⟩
    intro d' hne
    refine hother d' ?_
    rintro rfl
    exact hne hdeath
  · intro r' hr'
    refine ⟨rfl, ?_⟩
    rw [h.owner_eq href hd hr']
    exact hr.dead

/-- The references of one node are told, each once. -/
theorem notifyDeaths_inv (rs : List RefId) (hnodup : rs.Nodup) (hrs : ∀ r ∈ rs, s.Unnotified r) :
    Ensures (s.notifyDeaths rs) Fault.NotDeath fun s' =>
      s'.DeathInv ∧ s'.nodes = s.nodes ∧ s'.history = s.history := by
  induction rs generalizing s with
  | nil => exact ⟨h, rfl, rfl⟩
  | cons r rs ih =>
    obtain ⟨hr, hnodup⟩ := nodup_cons.mp hnodup
    refine (notifyDeath_inv h (hrs r mem_cons_self)).bind ?_
    rintro s' ⟨h', hhist⟩
    have hdeathOf : ∀ r', s'.deathOf r' = s.deathOf r' := by
      intro r'
      rw [deathOf, h'.refs]
      rfl
    refine (ih h'.inv hnodup ?_).weaken
      fun s'' h'' => ⟨h''.1, h''.2.1.trans h'.nodes, h''.2.2.trans hhist⟩
    intro r' hr'
    have hun := hrs r' (mem_cons_of_mem _ hr')
    constructor
    · intro d hd
      rw [hdeathOf] at hd
      -- the notification of another reference is another one
      have hne : s.deathOf r ≠ some d := by
        intro hrd
        exact hr ((h.registration d).unique r r' hrd hd ▸ hr')
      obtain ⟨hentry, hevents⟩ := h'.other d hne
      exact ⟨hentry.trans (hun.untold d hd).1, hevents.trans (hun.untold d hd).2⟩
    · rintro ⟨ref, node, p, href, hnode, hp⟩
      rw [h'.refs] at href
      rw [h'.nodes] at hnode
      exact hun.dead ⟨ref, node, p, href, hnode, hp⟩

/-- A node that loses its owner is no longer among the nodes of a process. -/
theorem DeathInv.orphan {n : NodeId} {node : BinderNode} {proc : BinderProc}
    (hp : s.procs.get p = some proc) (hn : s.nodes.get n = some node)
    (howner : node.proc = some p) :
    ({ ((s.setProc p { proc with nodes := proc.nodes.erase n }).listDel (.node n)).setNode n
        { node with proc := none, localStrongRefs := 0, localWeakRefs := 0 } with
      deadNodes := n :: s.deadNodes } : State).DeathInv := by
  let node' : BinderNode := { node with proc := none, localStrongRefs := 0, localWeakRefs := 0 }
  have hnodes : ∀ {m x}, (s.nodes.set n node').get m = some x →
      m = n ∧ x = node' ∨ m ≠ n ∧ s.nodes.get m = some x := by
    intro m x hx
    rcases Heap.get_set_eq_some.mp hx with ⟨hm, hx, -⟩ | hm
    · exact .inl ⟨hm, hx⟩
    · exact .inr hm
  refine ⟨h.areas, ⟨h.linked.ref_node, ?_, ?_, ?_, ?_⟩, ?_⟩
  · intro m x r hx hr
    rcases hnodes hx with ⟨rfl, rfl⟩ | ⟨-, hx⟩
    · exact h.linked.node_refs m node r hn hr
    · exact h.linked.node_refs m x r hx hr
  · exact Heap.forall_get_set (h.linked.nodup_refs n node hn) h.linked.nodup_refs
  · intro q x m hq hm
    rcases Heap.get_set_eq_some.mp hq with ⟨rfl, rfl, -⟩ | ⟨hne, hq⟩
    · obtain ⟨hmn, hm⟩ := ((h.linked.nodup_nodes q proc hp).mem_erase_iff).mp hm
      obtain ⟨hlt, hback⟩ := h.linked.proc_nodes q proc m hp hm
      refine ⟨hlt, ?_⟩
      intro y hy
      rcases hnodes hy with ⟨heq, -⟩ | ⟨-, hy⟩
      · exact absurd heq hmn
      · exact hback y hy
    · obtain ⟨hlt, hback⟩ := h.linked.proc_nodes q x m hq hm
      refine ⟨hlt, ?_⟩
      intro y hy
      rcases hnodes hy with ⟨rfl, -⟩ | ⟨-, hy⟩
      · cases howner.symm.trans (hback node hn)
        exact absurd rfl hne
      · exact hback y hy
  · exact Heap.forall_get_set ((h.linked.nodup_nodes p proc hp).erase n) h.linked.nodup_nodes
  · intro d
    have hentry : (s.works.del (.node n)).entry (.death d) = s.works.entry (.death d) :=
      IntrusiveLists.entry_del_of_ne nofun
    refine (h.registration d).same rfl le_rfl (.inl hentry) rfl (fun _ hr => hr) ?_
    rintro r - ⟨ref, x, q, hr, hx, hq⟩
    rcases hnodes hx with ⟨-, rfl⟩ | ⟨-, hx⟩
    · cases hq
    · exact ⟨ref, x, q, hr, hx, hq⟩

/-- The references of the node are told; without any it is freed. -/
theorem releaseNode_inv (p : ProcId) (n : NodeId)
    (hn : ∀ node, s.nodes.get n = some node → node.proc = some p) :
    Ensures (s.releaseNode p n) Fault.NotDeath fun s' =>
      s'.DeathInv ∧ (∀ m, m ≠ n → s'.nodes.get m = s.nodes.get m) ∧
        ∀ d, s'.deathEvents d = s.deathEvents d := by
  refine proc_ensures.bind fun proc hproc => ?_
  refine node_ensures.bind fun node hnode => ?_
  split
  · have hset : Kept s (s.setProc p { proc with nodes := proc.nodes.erase n }) :=
      Kept.setProc hproc erase_sublist
    refine ⟨?_, fun m hm => Heap.get_free_of_ne hm, Kept.freeNode.events⟩
    exact ((hset.trans (Kept.listDel (w := .node n) nofun)).trans Kept.freeNode).inv h
  · have howner := hn node hnode
    have horphan := h.orphan hproc hnode howner
    refine (notifyDeaths_inv horphan node.refs (h.linked.nodup_refs n node hnode) ?_).weaken ?_
    · intro r hr
      obtain ⟨-, hback⟩ := h.linked.node_refs n node r hnode hr
      constructor
      · intro d hd
        have hd' : s.deathOf r = some d := hd
        obtain ⟨ref, href, -⟩ := deathOf_eq_some.mp hd'
        obtain ⟨hentry, hevents⟩ := (h.registration d).alive r hd'
          ⟨ref, node, p, href, (hback ref href).symm ▸ hnode, howner⟩
        have hkept : (s.works.del (.node n)).entry (.death d) = s.works.entry (.death d) :=
          IntrusiveLists.entry_del_of_ne nofun
        exact ⟨hkept.trans hentry, hevents⟩
      · rintro ⟨ref, x, q, href, hx, hq⟩
        rw [hback ref href] at hx
        cases (Heap.get_set_self hnode).symm.trans hx
        cases hq
    · rintro s' ⟨hinv, hnodes, hhist⟩
      refine ⟨hinv, fun m hm => ?_, fun d => congrArg (filterMap (Event.ofDeath d)) hhist⟩
      rw [hnodes]
      exact Heap.get_set_of_ne hm

theorem releaseNodes_inv (p : ProcId) (ns : List NodeId) (hnodup : ns.Nodup)
    (hns : ∀ n ∈ ns, ∀ node, s.nodes.get n = some node → node.proc = some p) :
    Ensures (s.releaseNodes p ns) Fault.NotDeath
      fun s' => s'.DeathInv ∧ ∀ d, s'.deathEvents d = s.deathEvents d := by
  induction ns generalizing s with
  | nil => exact ⟨h, fun _ => rfl⟩
  | cons n ns ih =>
    obtain ⟨hn, hnodup⟩ := nodup_cons.mp hnodup
    refine (releaseNode_inv h p n (hns n mem_cons_self)).bind ?_
    rintro s' ⟨hinv, hother, hevents⟩
    refine (ih hinv hnodup ?_).weaken fun s'' h'' => ⟨h''.1, fun d => (h''.2 d).trans (hevents d)⟩
    intro m hm node hnode
    rw [hother m (fun heq => hn (heq ▸ hm))] at hnode
    exact hns m (mem_cons_of_mem _ hm) node hnode

end

end State

end AndroidKernel.Binder
