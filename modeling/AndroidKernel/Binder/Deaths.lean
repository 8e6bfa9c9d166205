import AndroidKernel.Binder.Driver
import AndroidKernel.Binder.Pointers

/-!
# Death notifications: the invariant

The work of a registration is reused for three purposes, and it goes from the
`todo` lists to `delivered_death`, to no list and back. Where it is and which
type it has says what its process has been told so far: `Told`. A reference that
still has its notification allows less, and while the owner of the node is alive
nothing has happened at all.

`Kept` relates a state to a later one that keeps the invariant, for all the
functions that do not change a registration on purpose.
-/

namespace AndroidKernel.Binder

open List Option

/-! ## What is told of a registration -/

/-- What an event says about the registration `d`. -/
def Event.ofDeath (d : DeathId) : Event → Option DeathEvent
  | .death d' e => if d' = d then some e else none
  | _ => none

/-- What happened to the registration `d`, in order. -/
def State.deathEvents (s : State) (d : DeathId) : List DeathEvent :=
  s.history.filterMap (Event.ofDeath d)

/-- A process learns of a death once and acknowledges it, before the notification
is cleared; or the notification is cleared without. -/
def Proper (events : List DeathEvent) : Prop :=
  events <+: [.deadBinder, .deadBinderDone, .cleared] ∨ events = [.cleared]

/-- Nothing is outstanding: nothing was told, or what was told was acknowledged. -/
def Settled (events : List DeathEvent) : Prop :=
  events = [] ∨ events = [.deadBinder, .deadBinderDone]

variable {events : List DeathEvent} {entry entry' : Option Queue} {r : RefId} {d : DeathId}

theorem Settled.proper (h : Settled events) : Proper events := by
  rcases h with rfl | rfl
  · exact .inl (by decide)
  · exact .inl (by decide)

theorem Settled.proper_cleared (h : Settled events) : Proper (events ++ [.cleared]) := by
  rcases h with rfl | rfl
  · exact .inr rfl
  · exact .inl (by decide)

/-- The list is `delivered_death` of a process. -/
def Queue.isDelivered : Queue → Bool
  | .deliveredDeath _ => true
  | _ => false

/-- What can have been told of a registration, by the list its work is on and the
type of the work. -/
def Told (entry : Option Queue) (type : Option DeathWork) (events : List DeathEvent) : Prop :=
  match entry with
  | none => Settled events
  | some q =>
    if q.isDelivered then events = [.deadBinder]
    else if type = some .clearDeathNotification then Settled events
    else events = []

section

variable {entry : Option Queue} {type : Option DeathWork} {events : List DeathEvent}
  (h : Told entry type events)

include h

theorem Told.proper : Proper events := by
  cases entry with
  | none => exact Settled.proper h
  | some q =>
    unfold Told at h
    dsimp only at h
    split at h
    · subst h
      exact .inl (by decide)
    · split at h
      · exact h.proper
      · subst h
        exact .inl (by decide)

theorem Told.not_cleared : .cleared ∉ events := by
  have hsettled : ∀ {events}, Settled events → .cleared ∉ events := by
    rintro _ (rfl | rfl) <;> decide
  cases entry with
  | none => exact hsettled h
  | some q =>
    unfold Told at h
    dsimp only at h
    split at h
    · subst h
      decide
    · split at h
      · exact hsettled h
      · subst h
        decide

end

/-- Work that waits to be read leaves its list, or goes to another one from which
it is read. -/
def Requeued (entry entry' : Option Queue) : Prop :=
  entry' = entry ∨ ∃ q, entry = some q ∧ q.isDelivered = false ∧
    ∀ q', entry' = some q' → q'.isDelivered = false

theorem Requeued.eq_none (h : Requeued entry entry') (he : entry = none) : entry' = none := by
  rcases h with rfl | ⟨q, hq, -⟩
  · exact he
  · rw [he] at hq
    cases hq

theorem Told.requeued {type : Option DeathWork} (h : Told entry type events)
    (he : Requeued entry entry') : Told entry' type events := by
  rcases he with rfl | ⟨q, rfl, hq, hq'⟩
  · exact h
  unfold Told at h
  simp only [hq, Bool.false_eq_true, if_false] at h
  cases entry' with
  | none =>
    split at h
    · exact h
    · exact .inl h
  | some q' =>
    unfold Told
    simpa only [hq' q' rfl, Bool.false_eq_true, if_false] using h

/-! ## The invariant -/

/-- How processes, nodes and references refer to each other, as far as death
notifications depend on it. -/
structure RefLinks (refs : Heap BinderRef) (nodes : Heap BinderNode) (procs : Heap BinderProc) :
    Prop where
  ref_node : ∀ r ref, refs.get r = some ref → ref.node < nodes.next
  node_refs : ∀ n node r, nodes.get n = some node → r ∈ node.refs →
    r < refs.next ∧ ∀ ref, refs.get r = some ref → ref.node = n
  nodup_refs : ∀ n node, nodes.get n = some node → node.refs.Nodup
  proc_nodes : ∀ p proc n, procs.get p = some proc → n ∈ proc.nodes →
    n < nodes.next ∧ ∀ node, nodes.get n = some node → node.proc = some p
  nodup_nodes : ∀ p proc, procs.get p = some proc → proc.nodes.Nodup

namespace State

/-- The registration of a reference. -/
def deathOf (s : State) (r : RefId) : Option DeathId := (s.refs.get r).bind BinderRef.death

/-- The work of the registration `d` is on `delivered_death` of a process. -/
def Delivered (s : State) (d : DeathId) : Prop :=
  ∃ p, s.works.entry (.death d) = some (.deliveredDeath p)

/-- The process that owns the node of a reference is alive. -/
def OwnerAlive (s : State) (r : RefId) : Prop :=
  ∃ ref node p, s.refs.get r = some ref ∧ s.nodes.get ref.node = some node ∧ node.proc = some p

/-- The state of one registration. -/
structure RegistrationOk (s : State) (d : DeathId) : Prop where
  unused : s.deaths.next ≤ d → s.deathEvents d = []
  gone : s.deaths.get d = none → s.works.entry (.death d) = none ∧ Proper (s.deathEvents d)
  live : ∀ death, s.deaths.get d = some death →
    Told (s.works.entry (.death d)) death.type (s.deathEvents d)
  owned : ∀ r, s.deathOf r = some d → ∃ death, s.deaths.get d = some death ∧
    (s.works.entry (.death d) ≠ none → death.type = some .deadBinder)
  unique : ∀ r r', s.deathOf r = some d → s.deathOf r' = some d → r = r'
  alive : ∀ r, s.deathOf r = some d → s.OwnerAlive r →
    s.works.entry (.death d) = none ∧ s.deathEvents d = []

/-- The invariant of death notifications. -/
structure DeathInv (s : State) : Prop where
  areas : s.AreasInv
  linked : RefLinks s.refs s.nodes s.procs
  registration : ∀ d, s.RegistrationOk d

variable {s s' : State} {d : DeathId} {r : RefId} {ref : BinderRef} {death : BinderRefDeath}

theorem deathOf_eq_some :
    s.deathOf r = some d ↔ ∃ ref, s.refs.get r = some ref ∧ ref.death = some d :=
  bind_eq_some_iff

/-- A registration that nothing happens to. -/
theorem RegistrationOk.same (h : s.RegistrationOk d)
    (hget : s'.deaths.get d = s.deaths.get d) (hnext : s.deaths.next ≤ s'.deaths.next)
    (hentry : Requeued (s.works.entry (.death d)) (s'.works.entry (.death d)))
    (hevents : s'.deathEvents d = s.deathEvents d)
    (hrefs : ∀ r, s'.deathOf r = some d → s.deathOf r = some d)
    (halive : ∀ r, s.deathOf r = some d → s'.OwnerAlive r → s.OwnerAlive r) :
    s'.RegistrationOk d where
  unused hd := hevents.trans (h.unused (hnext.trans hd))
  gone hd := by
    obtain ⟨hnone, hproper⟩ := h.gone (hget.symm.trans hd)
    exact ⟨hentry.eq_none hnone, hevents ▸ hproper⟩
  live death hd := by
    rw [hevents]
    exact (h.live death (hget.symm.trans hd)).requeued hentry
  owned r hr := by
    obtain ⟨death, hd, htype⟩ := h.owned r (hrefs r hr)
    exact ⟨death, hget.trans hd, fun hne => htype fun hnone => hne (hentry.eq_none hnone)⟩
  unique r r' hr hr' := h.unique r r' (hrefs r hr) (hrefs r' hr')
  alive r hr ho := by
    obtain ⟨hnone, hnil⟩ := h.alive r (hrefs r hr) (halive r (hrefs r hr) ho)
    exact ⟨hentry.eq_none hnone, hevents.trans hnil⟩

/-- A registration that has not been freed. -/
theorem RegistrationOk.of_live (hget : s.deaths.get d = some death)
    (htold : Told (s.works.entry (.death d)) death.type (s.deathEvents d))
    (howned : ∀ r, s.deathOf r = some d → s.works.entry (.death d) ≠ none →
      death.type = some .deadBinder)
    (hunique : ∀ r r', s.deathOf r = some d → s.deathOf r' = some d → r = r')
    (halive : ∀ r, s.deathOf r = some d → s.OwnerAlive r →
      s.works.entry (.death d) = none ∧ s.deathEvents d = []) : s.RegistrationOk d where
  unused hle := absurd (Heap.lt_next_of_get hget) (Nat.not_lt.mpr hle)
  gone hgone := by cases hget.symm.trans hgone
  live x hx := by
    cases hget.symm.trans hx
    exact htold
  owned r hr := ⟨death, hget, howned r hr⟩
  unique := hunique
  alive := halive

/-- A registration that has been freed. -/
theorem RegistrationOk.of_gone (hlt : d < s.deaths.next) (hget : s.deaths.get d = none)
    (hentry : s.works.entry (.death d) = none) (hproper : Proper (s.deathEvents d))
    (hno : ∀ r, s.deathOf r ≠ some d) : s.RegistrationOk d where
  unused hle := absurd hlt (Nat.not_lt.mpr hle)
  gone _ := ⟨hentry, hproper⟩
  live x hx := by cases hget.symm.trans hx
  owned r hr := absurd hr (hno r)
  unique r _ hr := absurd hr (hno r)
  alive r hr := absurd hr (hno r)

/-- Something happens to one registration. -/
theorem DeathInv.change (h : s.DeathInv) (hareas : s'.AreasInv)
    (hlinked : RefLinks s'.refs s'.nodes s'.procs) (hself : s'.RegistrationOk d)
    (hnext : s.deaths.next ≤ s'.deaths.next)
    (hother : ∀ d', d' ≠ d → s'.deaths.get d' = s.deaths.get d' ∧
      s'.works.entry (.death d') = s.works.entry (.death d') ∧ s'.deathEvents d' = s.deathEvents d')
    (hrefs : ∀ r d', d' ≠ d → s'.deathOf r = some d' → s.deathOf r = some d')
    (halive : ∀ r, s'.OwnerAlive r → s.OwnerAlive r) : s'.DeathInv := by
  refine ⟨hareas, hlinked, fun d' => ?_⟩
  by_cases hd : d' = d
  · rwa [hd]
  · obtain ⟨hget, hentry, hevents⟩ := hother d' hd
    exact (h.registration d').same hget hnext (.inl hentry) hevents (fun r => hrefs r d' hd)
      fun r _ => halive r

end State

/-! ## Heaps that grow and shrink -/

/-- A reference keeps its node and its registration; a new one has none. -/
def RefsEvolve : Heap BinderRef → Heap BinderRef → Prop :=
  Heap.Evolves (fun ref ref' => ref'.node = ref.node ∧ ref'.death = ref.death)
    fun ref => ref.death = none

/-- A node keeps its owner. -/
def NodesEvolve : Heap BinderNode → Heap BinderNode → Prop :=
  Heap.Evolves (fun node node' => node'.proc = node.proc) fun _ => True

theorem RefsEvolve.refl (h : Heap BinderRef) : RefsEvolve h h :=
  Heap.Evolves.refl fun _ => ⟨rfl, rfl⟩

theorem RefsEvolve.trans {h h' h'' : Heap BinderRef} (h₁ : RefsEvolve h h')
    (h₂ : RefsEvolve h' h'') : RefsEvolve h h'' :=
  Heap.Evolves.trans (fun _ _ _ hxy hyz => ⟨hyz.1.trans hxy.1, hyz.2.trans hxy.2⟩)
    (fun _ _ hx hxy => hxy.2.trans hx) h₁ h₂

theorem NodesEvolve.refl (h : Heap BinderNode) : NodesEvolve h h :=
  Heap.Evolves.refl fun _ => rfl

theorem NodesEvolve.trans {h h' h'' : Heap BinderNode} (h₁ : NodesEvolve h h')
    (h₂ : NodesEvolve h' h'') : NodesEvolve h h'' :=
  Heap.Evolves.trans (fun _ _ _ hxy hyz => hyz.trans hxy) (fun _ _ _ _ => trivial) h₁ h₂

namespace RefLinks

variable {refs refs' : Heap BinderRef} {nodes nodes' : Heap BinderNode}
  {procs procs' : Heap BinderProc}

section

variable (h : RefLinks refs nodes procs)

include h

/-- Nothing is added. -/
theorem restrict (hrefsNext : refs'.next = refs.next) (hnodesNext : nodes'.next = nodes.next)
    (hrefs : ∀ r ref', refs'.get r = some ref' → ∃ ref, refs.get r = some ref ∧
      ref'.node = ref.node)
    (hnodes : ∀ n node', nodes'.get n = some node' → ∃ node, nodes.get n = some node ∧
      node'.proc = node.proc ∧ node'.refs.Sublist node.refs)
    (hprocs : ∀ p proc', procs'.get p = some proc' →
      (∃ proc, procs.get p = some proc ∧ proc'.nodes.Sublist proc.nodes) ∨ proc'.nodes = []) :
    RefLinks refs' nodes' procs' where
  ref_node r ref' hr := by
    obtain ⟨ref, hr, hnode⟩ := hrefs r ref' hr
    rw [hnode, hnodesNext]
    exact h.ref_node r ref hr
  node_refs n node' r hn hr := by
    obtain ⟨node, hn, -, hsub⟩ := hnodes n node' hn
    obtain ⟨hlt, hback⟩ := h.node_refs n node r hn (hsub.subset hr)
    refine ⟨hrefsNext ▸ hlt, ?_⟩
    intro ref' hr'
    obtain ⟨ref, hr, hnode⟩ := hrefs r ref' hr'
    exact hnode.trans (hback ref hr)
  nodup_refs n node' hn := by
    obtain ⟨node, hn, -, hsub⟩ := hnodes n node' hn
    exact (h.nodup_refs n node hn).sublist hsub
  proc_nodes p proc' n hp hn := by
    rcases hprocs p proc' hp with ⟨proc, hp, hsub⟩ | hnil
    · obtain ⟨hlt, hback⟩ := h.proc_nodes p proc n hp (hsub.subset hn)
      refine ⟨hnodesNext ▸ hlt, ?_⟩
      intro node' hn'
      obtain ⟨node, hn, hproc, -⟩ := hnodes n node' hn'
      exact hproc.trans (hback node hn)
    · rw [hnil] at hn
      cases hn
  nodup_nodes p proc' hp := by
    rcases hprocs p proc' hp with ⟨proc, hp, hsub⟩ | hnil
    · exact (h.nodup_nodes p proc hp).sublist hsub
    · exact hnil ▸ nodup_nil

theorem restrictRefs (hnext : refs'.next = refs.next)
    (hrefs : ∀ r ref', refs'.get r = some ref' → ∃ ref, refs.get r = some ref ∧
      ref'.node = ref.node) : RefLinks refs' nodes procs :=
  h.restrict hnext rfl hrefs (fun _ node hn => ⟨node, hn, rfl, Sublist.refl _⟩)
    fun _ proc hp => .inl ⟨proc, hp, Sublist.refl _⟩

theorem restrictNodes (hnext : nodes'.next = nodes.next)
    (hnodes : ∀ n node', nodes'.get n = some node' → ∃ node, nodes.get n = some node ∧
      node'.proc = node.proc ∧ node'.refs.Sublist node.refs) : RefLinks refs nodes' procs :=
  h.restrict rfl hnext (fun _ ref hr => ⟨ref, hr, rfl⟩) hnodes
    fun _ proc hp => .inl ⟨proc, hp, Sublist.refl _⟩

theorem restrictProcs (hprocs : ∀ p proc', procs'.get p = some proc' →
      (∃ proc, procs.get p = some proc ∧ proc'.nodes.Sublist proc.nodes) ∨ proc'.nodes = []) :
    RefLinks refs nodes procs' :=
  h.restrict rfl rfl (fun _ ref hr => ⟨ref, hr, rfl⟩)
    (fun _ node hn => ⟨node, hn, rfl, Sublist.refl _⟩) hprocs

end

variable {n : NodeId} {node : BinderNode} {p : ProcId} {proc : BinderProc} {ref : BinderRef}

/-- A new node of a process. -/
theorem addNode (h : RefLinks refs nodes procs) (hp : procs.get p = some proc)
    (hrefs : node.refs = []) (hproc : node.proc = some p) {proc' : BinderProc}
    (hnodes : proc'.nodes.Perm (nodes.next :: proc.nodes)) :
    RefLinks refs (nodes.alloc node) (procs.set p proc') := by
  have hfresh : ∀ q proc, procs.get q = some proc → nodes.next ∉ proc.nodes := by
    intro q proc hq hmem
    exact Nat.lt_irrefl _ (h.proc_nodes q proc _ hq hmem).1
  have hold : ∀ q x m, procs.get q = some x → m ∈ x.nodes → m < nodes.next + 1 ∧
      ∀ y, (nodes.alloc node).get m = some y → y.proc = some q := by
    intro q x m hq hmem
    obtain ⟨hlt, hback⟩ := h.proc_nodes q x m hq hmem
    refine ⟨Nat.lt_succ_of_lt hlt, ?_⟩
    intro y hy
    rcases Heap.get_alloc_eq_some.mp hy with ⟨rfl, -⟩ | ⟨-, hy⟩
    · exact absurd hmem (hfresh q x hq)
    · exact hback y hy
  constructor
  · intro r ref hr
    exact Nat.lt_succ_of_lt (h.ref_node r ref hr)
  · intro m x r hm hr
    rcases Heap.get_alloc_eq_some.mp hm with ⟨-, rfl⟩ | ⟨-, hm⟩
    · rw [hrefs] at hr
      cases hr
    · exact h.node_refs m x r hm hr
  · exact Heap.forall_get_alloc (hrefs ▸ nodup_nil) h.nodup_refs
  · intro q x m hq hmem
    rcases Heap.get_set_eq_some.mp hq with ⟨rfl, rfl, -⟩ | ⟨hne, hq⟩
    · rcases mem_cons.mp (hnodes.mem_iff.mp hmem) with rfl | hmem
      · refine ⟨Nat.lt_succ_self _, ?_⟩
        intro y hy
        rw [Heap.get_alloc_next] at hy
        exact some.inj hy ▸ hproc
      · exact hold q proc m hp hmem
    · exact hold q x m hq hmem
  · have hnew := nodup_cons.mpr ⟨hfresh p proc hp, h.nodup_nodes p proc hp⟩
    exact Heap.forall_get_set (hnodes.nodup_iff.mpr hnew) h.nodup_nodes

/-- A new reference to a node. -/
theorem addRef (h : RefLinks refs nodes procs) (hn : nodes.get n = some node)
    (href : ref.node = n) :
    RefLinks (refs.alloc ref) (nodes.set n { node with refs := refs.next :: node.refs }) procs := by
  have hfresh : ∀ m x, nodes.get m = some x → refs.next ∉ x.refs := by
    intro m x hm hmem
    exact Nat.lt_irrefl _ (h.node_refs m x _ hm hmem).1
  constructor
  · have hlt := Heap.lt_next_of_get hn
    exact Heap.forall_get_alloc (href ▸ hlt) h.ref_node
  · intro m x r hm hr
    -- every reference of the node was there, but the new one
    have hold : ∀ y, nodes.get m = some y → r ∈ y.refs → r < (refs.alloc ref).next ∧
        ∀ z, (refs.alloc ref).get r = some z → z.node = m := by
      intro y hy hmem
      obtain ⟨hlt, hback⟩ := h.node_refs m y r hy hmem
      refine ⟨Nat.lt_succ_of_lt hlt, ?_⟩
      intro z hz
      rcases Heap.get_alloc_eq_some.mp hz with ⟨rfl, -⟩ | ⟨-, hz⟩
      · exact absurd hlt (Nat.lt_irrefl _)
      · exact hback z hz
    rcases Heap.get_set_eq_some.mp hm with ⟨rfl, rfl, -⟩ | ⟨hne, hm⟩
    · rcases mem_cons.mp hr with rfl | hr
      · refine ⟨Nat.lt_succ_self _, ?_⟩
        intro z hz
        rw [Heap.get_alloc_next] at hz
        exact some.inj hz ▸ href
      · exact hold node hn hr
    · exact hold x hm hr
  · have hnew := nodup_cons.mpr ⟨hfresh n node hn, h.nodup_refs n node hn⟩
    exact Heap.forall_get_set hnew h.nodup_refs
  · intro q proc m hq hmem
    obtain ⟨hlt, hback⟩ := h.proc_nodes q proc m hq hmem
    refine ⟨hlt, ?_⟩
    intro y hy
    rcases Heap.get_set_eq_some.mp hy with ⟨rfl, rfl, -⟩ | ⟨hne, hy⟩
    · exact hback node hn
    · exact hback y hy
  · exact h.nodup_nodes

end RefLinks

/-! ## Steps that leave registrations alone -/

/-- Nothing that registrations depend on differs, but that their work may leave a
list before it is read. -/
structure Calm (s s' : State) : Prop where
  deaths : s'.deaths = s.deaths
  entry : ∀ d, Requeued (s.works.entry (.death d)) (s'.works.entry (.death d))
  events : ∀ d, s'.deathEvents d = s.deathEvents d
  refs : RefsEvolve s.refs s'.refs
  nodes : NodesEvolve s.nodes s'.nodes
  linked : RefLinks s.refs s.nodes s.procs → RefLinks s'.refs s'.nodes s'.procs
  areas : s.AreasInv → s'.AreasInv

/-- The invariant is kept, references keep their registration, nodes keep their
owner, nothing goes to `delivered_death`, and registrations stay as they are or go. -/
structure Kept (s s' : State) : Prop where
  inv : s.DeathInv → s'.DeathInv
  refs : RefsEvolve s.refs s'.refs
  nodes : NodesEvolve s.nodes s'.nodes
  areas : s.AreasInv → s'.AreasInv
  delivered : ∀ d, s'.Delivered d → s.Delivered d
  events : ∀ d, s'.deathEvents d = s.deathEvents d
  deaths : ∀ d death, s'.deaths.get d = some death → s.deaths.get d = some death

/-- A computation keeps the registrations, and runs into none of their `BUG()`s. -/
abbrev State.Keeps (s : State) (x : Except Fault State) : Prop := Ensures x Fault.NotDeath (Kept s)

/-- The same of a computation that also returns something. -/
abbrev State.KeepsFst {α : Type} (s : State) (x : Except Fault (State × α)) : Prop :=
  Ensures x Fault.NotDeath fun r => Kept s r.1

variable {s s' s'' : State}

theorem Calm.refl (s : State) : Calm s s where
  deaths := rfl
  entry _ := .inl rfl
  events _ := rfl
  refs := RefsEvolve.refl _
  nodes := NodesEvolve.refl _
  linked := id
  areas := id

/-- A reference with a registration had it before. -/
theorem RefsEvolve.deathOf (h : RefsEvolve s.refs s'.refs)
    (hr : s'.deathOf r = some d) : s.deathOf r = some d := by
  obtain ⟨ref', hr', hd⟩ := State.deathOf_eq_some.mp hr
  rcases h.get r ref' hr' with ⟨ref, hr, -, hdeath⟩ | ⟨-, hnone⟩
  · exact State.deathOf_eq_some.mpr ⟨ref, hr, hdeath.symm.trans hd⟩
  · rw [hnone] at hd
    cases hd

theorem Calm.delivered (h : Calm s s') (hd : s'.Delivered d) : s.Delivered d := by
  obtain ⟨p, hp⟩ := hd
  rcases h.entry d with heq | ⟨-, -, -, hnot⟩
  · exact ⟨p, heq ▸ hp⟩
  · cases hnot _ hp

theorem Calm.inv (h : Calm s s') (hinv : s.DeathInv) : s'.DeathInv := by
  refine ⟨h.areas hinv.areas, h.linked hinv.linked, ?_⟩
  intro d
  refine (hinv.registration d).same (congrArg (·.get d) h.deaths)
    (Nat.le_of_eq (congrArg Heap.next h.deaths).symm) (h.entry d) (h.events d)
    (fun r => h.refs.deathOf) ?_
  intro r hr ho
  obtain ⟨ref, hr, -⟩ := State.deathOf_eq_some.mp hr
  -- An owner that is alive was alive before.
  obtain ⟨ref', node', p, hr', hn', hp⟩ := ho
  obtain ⟨hnode, -⟩ := h.refs.get_old hr hr'
  rw [hnode] at hn'
  rcases h.nodes.get _ node' hn' with ⟨node, hn, hproc⟩ | ⟨hle, -⟩
  · exact ⟨ref, node, p, hr, hn, hproc.symm.trans hp⟩
  · exact absurd (hinv.linked.ref_node r ref hr) (Nat.not_lt.mpr hle)

theorem Calm.kept (h : Calm s s') : Kept s s' where
  inv := h.inv
  refs := h.refs
  nodes := h.nodes
  areas := h.areas
  delivered _ := h.delivered
  events := h.events
  deaths _ _ hd := h.deaths ▸ hd

/-- A new node of a process. -/
def State.addNode (s : State) (p : ProcId) (proc : BinderProc) (nodes : List NodeId)
    (ptr cookie : UInt32) : State :=
  { s with nodes := s.nodes.alloc { proc := some p, ptr := ptr, cookie := cookie } }.setProc p
    { proc with nodes := nodes }

/-- A new reference of a process to the node `n`. -/
def State.addRef (s : State) (p : ProcId) (proc : BinderProc) (n : NodeId) (node : BinderNode)
    (desc : UInt32) (refsByDesc : List RefId) : State :=
  ({ s with refs := s.refs.alloc { proc := p, node := n, desc := desc } }.setProc p
    { proc with refsByDesc := refsByDesc, refsByNode := s.refs.next :: proc.refsByNode }).setNode n
    { node with refs := s.refs.next :: node.refs }

namespace Kept

variable {th : ThreadId} {t : TransactionId}

theorem refl (s : State) : Kept s s := (Calm.refl s).kept

theorem trans (h : Kept s s') (h' : Kept s' s'') : Kept s s'' where
  inv := h'.inv ∘ h.inv
  refs := h.refs.trans h'.refs
  nodes := h.nodes.trans h'.nodes
  areas := h'.areas ∘ h.areas
  delivered d hd := h.delivered d (h'.delivered d hd)
  events d := (h'.events d).trans (h.events d)
  deaths d death hd := h.deaths d death (h'.deaths d death hd)

/-- After a step that keeps the registrations, a computation that keeps them. -/
theorem keeps {x : Except Fault State} (h : Kept s s') (hx : s'.Keeps x) : s.Keeps x :=
  hx.weaken fun _ h' => h.trans h'

theorem bind {x : Except Fault State} {f : State → Except Fault State} (hx : s.Keeps x)
    (hf : ∀ s', Kept s s' → s'.Keeps (f s')) : s.Keeps (x >>= f) :=
  Ensures.bind hx fun s' h => h.keeps (hf s' h)

theorem keepsFst {α : Type} {x : Except Fault (State × α)} (h : Kept s s') (hx : s'.KeepsFst x) :
    s.KeepsFst x :=
  hx.weaken fun _ h' => h.trans h'

variable {n : NodeId} {node node' : BinderNode} {p : ProcId} {proc proc' : BinderProc}
  {w : Work} {q : Queue} {r : RefId} {ref ref' : BinderRef}

theorem setNode (h : s.nodes.get n = some node) (hproc : node'.proc = node.proc)
    (hrefs : node'.refs.Sublist node.refs) : Kept s (s.setNode n node') := by
  refine Calm.kept { Calm.refl s with nodes := ?_, linked := fun hl => hl.restrictNodes rfl ?_ }
  · refine Heap.Evolves.set (fun _ => rfl) ?_
    intro x hx
    exact some.inj (h.symm.trans hx) ▸ hproc
  · exact Heap.forall_get_set ⟨node, h, hproc, hrefs⟩ fun _ x hx => ⟨x, hx, rfl, Sublist.refl _⟩

/-- Assignments to the counts and flags of a node. -/
theorem setCounts (h : s.nodes.get n = some node) (hproc : node'.proc = node.proc)
    (hrefs : node'.refs = node.refs) : Kept s (s.setNode n node') :=
  setNode h hproc (hrefs ▸ Sublist.refl _)

theorem freeNode : Kept s (s.freeNode n node) := by
  refine Calm.kept { Calm.refl s with
    events := ?_, nodes := ?_, linked := fun hl => hl.restrictNodes rfl ?_ }
  · intro d
    simp [State.deathEvents, State.freeNode, State.record, Event.ofDeath]
  · exact Heap.Evolves.free fun _ => rfl
  · intro m x hx
    exact ⟨x, (Heap.get_free_eq_some.mp hx).2, rfl, Sublist.refl _⟩

theorem addNode {nodes : List NodeId} {ptr cookie : UInt32} (h : s.procs.get p = some proc)
    (hnodes : nodes.Perm (s.nodes.next :: proc.nodes)) :
    Kept s (s.addNode p proc nodes ptr cookie) :=
  Calm.kept { Calm.refl s with
    nodes := Heap.Evolves.alloc (fun _ => rfl) trivial
    linked := fun hl => hl.addNode h rfl rfl hnodes }

theorem setProc (h : s.procs.get p = some proc) (hnodes : proc'.nodes.Sublist proc.nodes) :
    Kept s (s.setProc p proc') := by
  refine Calm.kept { Calm.refl s with linked := fun hl => hl.restrictProcs ?_ }
  exact Heap.forall_get_set (.inl ⟨proc, h, hnodes⟩) fun _ x hx => .inl ⟨x, hx, Sublist.refl _⟩

/-- Work leaves its list; a notification must not be on `delivered_death`. -/
theorem listDel (hw : ∀ d, w = .death d → ¬ s.Delivered d) : Kept s (s.listDel w) := by
  refine Calm.kept { Calm.refl s with entry := ?_ }
  intro d
  show Requeued _ ((s.works.del w).entry (.death d))
  by_cases hd : Work.death d = w
  · subst hd
    rw [IntrusiveLists.entry_del_self]
    cases he : s.works.entry (.death d) with
    | none => exact .inl rfl
    | some q =>
      refine .inr ⟨q, rfl, ?_, nofun⟩
      cases q with
      | deliveredDeath p => exact absurd ⟨p, he⟩ (hw d rfl)
      | _ => rfl
  · rw [IntrusiveLists.entry_del_of_ne hd]
    exact .inl rfl

theorem listDelNode : Kept s (s.listDel (.node n)) := listDel nofun

theorem listAddTail (hw : ∀ d, w ≠ .death d) : s.Keeps (s.listAddTail w q) := by
  rw [State.listAddTail]
  split
  next hnone =>
    refine Calm.kept { Calm.refl s with entry := ?_ }
    intro d
    rw [IntrusiveLists.entry_addTail_of_ne (hw d).symm]
    exact .inl rfl
  · exact Fault.notDeath_corruptList

/-- Work goes to the list of a thread. -/
theorem requeue (hw : ∃ q, s.works.entry w = some q ∧ q.isDelivered = false) :
    s.Keeps ((s.listDel w).listAddTail w (.thread th)) := by
  obtain ⟨q, hq, hdelivered⟩ := hw
  rw [State.listAddTail]
  split
  · refine Calm.kept { Calm.refl s with entry := ?_ }
    intro d
    show Requeued _ (if Work.death d = w then some (.thread th) else (s.works.del w).entry _)
    by_cases hd : Work.death d = w
    · rw [if_pos hd, hd]
      refine .inr ⟨q, hq, hdelivered, ?_⟩
      rintro q' ⟨⟩
      rfl
    · rw [if_neg hd, IntrusiveLists.entry_del_of_ne hd]
      exact .inl rfl
  · exact Fault.notDeath_corruptList

theorem setRef (h : Kept s s') (href : s.refs.get r = some ref) (hnode : ref'.node = ref.node)
    (hdeath : ref'.death = ref.death) : Kept s (s'.setRef r ref') := by
  refine h.trans (Calm.kept { Calm.refl s' with
    refs := ?_, linked := fun hl => hl.restrictRefs rfl ?_ })
  · refine Heap.Evolves.set (fun _ => ⟨rfl, rfl⟩) ?_
    intro x hx
    obtain ⟨hnode', hdeath'⟩ := h.refs.get_old href hx
    exact ⟨hnode.trans hnode'.symm, hdeath.trans hdeath'.symm⟩
  · intro q x hx
    rcases Heap.get_set_eq_some.mp hx with ⟨rfl, rfl, hsome⟩ | ⟨-, hq⟩
    · obtain ⟨y, hy⟩ := isSome_iff_exists.mp hsome
      exact ⟨y, hy, hnode.trans (h.refs.get_old href hy).1.symm⟩
    · exact ⟨x, hq, rfl⟩

theorem addRef {desc : UInt32} {refsByDesc : List RefId} (h : s.procs.get p = some proc)
    (hn : s.nodes.get n = some node) : Kept s (s.addRef p proc n node desc refsByDesc) := by
  refine Calm.kept { Calm.refl s with refs := ?_, nodes := ?_, linked := ?_ }
  · exact Heap.Evolves.alloc (fun _ => ⟨rfl, rfl⟩) rfl
  · refine Heap.Evolves.set (fun _ => rfl) ?_
    intro x hx
    exact some.inj (hn.symm.trans hx) ▸ rfl
  · intro hl
    refine (hl.addRef hn rfl).restrictProcs ?_
    exact Heap.forall_get_set (.inl ⟨proc, h, Sublist.refl _⟩)
      fun _ x hx => .inl ⟨x, hx, Sublist.refl _⟩

theorem setThread {thread : BinderThread} : Kept s (s.setThread th thread) :=
  Calm.kept { Calm.refl s with }

theorem setTransaction {tx : BinderTransaction} : Kept s (s.setTransaction t tx) :=
  Calm.kept { Calm.refl s with }

theorem newTransaction : Kept s s.newTransaction := Calm.kept { Calm.refl s with }

theorem freeTransaction : Kept s (s.freeTransaction t) :=
  Calm.kept { Calm.refl s with }

/-- Only the areas differ. -/
theorem onlyAreas (h : s.OnlyAreas s') (hinv : s'.AreasInv) : Kept s s' := by
  rw [h]
  exact Calm.kept { Calm.refl s with areas := fun _ => h ▸ hinv }

theorem record {e : Event} (he : ∀ d, e.ofDeath d = none) : Kept s (s.record e) := by
  refine Calm.kept { Calm.refl s with events := ?_ }
  intro d
  rw [State.deathEvents, State.record, filterMap_append, filterMap_cons_none (he d)]
  exact append_nil _

theorem returnTo {x : Return} : Kept s (s.returnTo th x) := record fun _ => rfl

/-- An assignment to the header of a buffer. -/
theorem modifyBuffer {b : BufferPtr} {f : BinderBuffer → BinderBuffer} (hinv : s.AreasInv)
    (hf : ∀ x : BinderBuffer, x.SameShape (f x)) : s.Keeps (s.modifyBuffer b f) := by
  refine State.area_ensures.bind fun a ha => ?_
  split
  · exact onlyAreas rfl (hinv.setArea (Inv.modify (hinv _ a ha) b.addr hf))
  · exact Fault.Pointers.useAfterFree (E := Fault.NotDeath)

end Kept

end AndroidKernel.Binder
