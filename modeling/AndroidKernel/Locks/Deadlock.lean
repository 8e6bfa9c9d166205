import AndroidKernel.Lib.Keyed
import AndroidKernel.Lib.Runs
import AndroidKernel.Locks.Posix

/-!
# Deadlocks of POSIX locks

Which owners wait for which. As long as no owner waits with two requests at once, the waiting owners
form chains, and if `posix_locks_deadlock` finds its caller on the chain that it follows whenever it
is there, there is no cycle after it either.
-/

namespace AndroidKernel.Locks

open Relation List Option Bool

/-- An edge is added to a relation. -/
theorem transGen_insert {α : Type} {r r' : α → α → Prop} {a b x y : α}
    (hr : ∀ x y, r' x y → r x y ∨ x = a ∧ y = b) (h : TransGen r' x y) :
    TransGen r x y ∨ ReflTransGen r x a ∧ ReflTransGen r b y := by
  induction h with
  | single hxy =>
    rcases hr _ _ hxy with h | ⟨rfl, rfl⟩
    · exact .inl (.single h)
    · exact .inr ⟨.refl, .refl⟩
  | tail _ hyz ih =>
    rcases hr _ _ hyz with h | ⟨rfl, rfl⟩
    · exact ih.imp (fun hxy => hxy.tail h) fun ⟨hxa, hby⟩ => ⟨hxa, hby.tail h⟩
    · exact .inr ⟨ih.elim TransGen.to_reflTransGen And.left, .refl⟩

variable {ω : Type}

namespace State

/-- An owner waits for another one. -/
def WaitsFor (m : State ω) (o p : ω) : Prop := ∃ w ∈ m.blocked, w.owner = o ∧ w.blockerOwner = p

/-- No owner waits for itself, be it through others. -/
def Acyclic (m : State ω) : Prop := ∀ o, ¬TransGen m.WaitsFor o o

structure Chains (m : State ω) : Prop where
  single : Keyed.Unique Waiter.owner m.blocked
  acyclic : m.Acyclic

variable [DecidableEq ω] {m m' : State ω} {inode : Nat} {req : Request ω} {alloc alloc2 : Bool}
    {fl : FileLock ω} {o p : ω} {n : Nat}

instance : Decidable (m.WaitsFor o p) := inferInstanceAs (Decidable (∃ w ∈ m.blocked, _))

/-- A request that has to wait is the only one of its owner. -/
def Single (m : State ω) : Op ω → Prop
  | .request inode req _ _ =>
    req.sleep = true → ∀ _fl ∈ m.conflict inode req, ∀ w ∈ m.blocked, w.owner ≠ req.owner
  | .deleteBlock _ => True

/-- If the owner of a request that has to wait is on the chain of waiting owners, `n` links away, it
is found there. -/
def Short (m : State ω) : Op ω → Prop
  | .request inode req _ _ =>
    req.sleep = true → ∀ fl ∈ m.conflict inode req, ∀ n,
      m.deadlockLoop req.owner n fl.owner = true → m.posixLocksDeadlock req.owner fl.owner = true
  | .deleteBlock _ => True

instance : DecidablePred m.Single
  | .request .. => inferInstanceAs (Decidable (_ → _))
  | .deleteBlock _ => instDecidableTrue

/-- What a call can do. -/
inductive Outcome (m : State ω) (inode : Nat) (req : Request ω) : Result × State ω → Prop
  | eagain : req.sleep = false → Outcome m inode req (.eagain, m)
  | edeadlk : Outcome m inode req (.edeadlk, m)
  | deferred (fl : FileLock ω) :
      req.sleep = true → m.conflict inode req = some fl →
        m.posixLocksDeadlock req.owner fl.owner = false →
        Outcome m inode req (.deferred, m.locksInsertBlock fl req)
  | access : req.access = true → Outcome m inode req (.zero, m)
  | walked (ok ok2 : Bool) (res : Result × List (FileLock ω) × List Nat) :
      req.access = false → (m.walk inode req).finish req.exists_ ok ok2 m.next = res →
        Outcome m inode req (res.1,
          { flock := Function.update m.flock inode res.2.1
            blocked := m.blocked.filter fun w => w.blocker ∉ res.2.2
            next := m.next + 2 })

theorem posixLockFile_outcome : Outcome m inode req (m.posixLockFile inode req alloc alloc2) := by
  unfold posixLockFile
  split
  next fl hfl =>
    split_ifs with hsleep hdead
    · exact .eagain (by simpa using hsleep)
    · exact .edeadlk
    · exact .deferred fl (by simpa using hsleep) hfl (eq_false_iff.mpr hdead)
  · split_ifs with haccess
    · exact .access haccess
    · exact .walked _ _ _ (eq_false_iff.mpr haccess) rfl

/-! ## The check -/

theorem whatOwnerIsWaitingFor_eq (hm : Keyed.Unique Waiter.owner m.blocked) (h : m.WaitsFor o p) :
    m.whatOwnerIsWaitingFor o = some p := by
  obtain ⟨w, hw, ho, rfl⟩ := h
  rw [whatOwnerIsWaitingFor, Keyed.find?_eq_some hm hw ho, map_some]

/-- A caller to which a chain leads is found if it is followed far enough. -/
theorem exists_deadlockLoop {caller block : ω} (hm : Keyed.Unique Waiter.owner m.blocked)
    (h : ReflTransGen m.WaitsFor block caller) (hne : block ≠ caller) :
    ∃ n, m.deadlockLoop caller n block = true := by
  induction h using ReflTransGen.head_induction_on with
  | refl => exact absurd rfl hne
  | @head block c hc _ ih =>
    have hstep (n : Nat) : m.deadlockLoop caller (n + 1) block =
        if caller = c then true else m.deadlockLoop caller n c := by
      rw [deadlockLoop, whatOwnerIsWaitingFor_eq hm hc]
    by_cases heq : caller = c
    · exact ⟨1, by rw [hstep, if_pos heq]⟩
    · obtain ⟨n, hn⟩ := ih (Ne.symm heq)
      exact ⟨n + 1, by rw [hstep, if_neg heq, hn]⟩

/-- A request that the check lets wait closes no cycle. -/
theorem Chains.locksInsertBlock (hm : m.Chains) (hsingle : ∀ w ∈ m.blocked, w.owner ≠ req.owner)
    (hshort : ∀ n, m.deadlockLoop req.owner n fl.owner = true →
      m.posixLocksDeadlock req.owner fl.owner = true) (hne : fl.owner ≠ req.owner)
    (hdead : m.posixLocksDeadlock req.owner fl.owner = false) :
      (m.locksInsertBlock fl req).Chains where
  single := Keyed.unique_cons.mpr ⟨hsingle, hm.single⟩
  acyclic := by
    intro o ho
    have hpath : ¬ReflTransGen m.WaitsFor fl.owner req.owner := fun h => by
      obtain ⟨n, hn⟩ := exists_deadlockLoop hm.single h hne
      exact false_ne_true (hdead.symm.trans (hshort n hn))
    have hr : ∀ x y, (m.locksInsertBlock fl req).WaitsFor x y → m.WaitsFor x y ∨ x = req.owner ∧
      y = fl.owner := by
      rintro x y ⟨w, hw, hx, hy⟩
      rcases mem_cons.mp hw with rfl | hw
      · exact .inr ⟨hx.symm, hy.symm⟩
      · exact .inl ⟨w, hw, hx, hy⟩
    rcases transGen_insert hr ho with h | ⟨hxa, hby⟩
    · exact hm.acyclic o h
    · exact hpath (hby.trans hxa)

omit [DecidableEq ω] in
/-- Waiters that are woken up close no cycle. -/
theorem Chains.sublist (hm : m.Chains) (h : m'.blocked.Sublist m.blocked) : m'.Chains where
  single := Nodup.sublist (h.map _) hm.single
  acyclic o ho :=
    hm.acyclic o (TransGen.mono (fun _ _ ⟨w, hw, heq⟩ => ⟨w, h.subset hw, heq⟩) o o ho)

theorem conflict_owner (h : m.conflict inode req = some fl) : fl.owner ≠ req.owner := by
  have hconflict : req.conflicts fl = true := find?_some (ite_none_left_eq_some.mp h).2
  exact (of_decide_eq_true hconflict).1.symm

theorem reached_chains (h : Reached step (fun m op => m.Single op ∧ m.Short op) init m) :
    m.Chains := by
  refine h.invariant ⟨.nil, fun o ho => ?_⟩ fun m m' op hm hok hs => ?_
  · obtain ⟨p, ⟨w, hw, -⟩, -⟩ := TransGen.head'_iff.mp ho
    cases hw
  cases op with
  | request inode req alloc alloc2 =>
    cases hs
    generalize hr : m.posixLockFile inode req alloc alloc2 = r
    cases (hr ▸ posixLockFile_outcome : Outcome m inode req r) with
    | eagain _ | edeadlk => exact hm
    | deferred fl hsleep hfl hdead =>
      exact hm.locksInsertBlock (hok.1 hsleep fl hfl) (hok.2 hsleep fl hfl) (conflict_owner hfl)
        hdead
    | access _ => exact hm
    | walked ok ok2 res _ _ => exact hm.sublist filter_sublist
  | deleteBlock waiter =>
    cases hs
    exact hm.sublist (eraseIdx_sublist ..)

/-- In a history in which no owner waits with two requests at once, and is found on a chain that
leads to it, there is never a cycle, and a request that would close one is refused. -/
theorem waitsFor_acyclic (h : Reached step (fun m op => m.Single op ∧ m.Short op) init m) :
    m.Acyclic ∧ ∀ inode req alloc alloc2,
      m.Single (.request inode req alloc alloc2) → m.Short (.request inode req alloc alloc2) →
        req.sleep = true → ∀ fl ∈ m.conflict inode req, ¬(m.locksInsertBlock fl req).Acyclic →
          (m.posixLockFile inode req alloc alloc2).1 = .edeadlk := by
  have hm := reached_chains h
  refine ⟨hm.acyclic, fun inode req alloc alloc2 hsingle hshort hsleep fl hfl hcycle => ?_⟩
  have hdead : m.posixLocksDeadlock req.owner fl.owner = true := by
    by_contra hdead
    exact hcycle
      (hm.locksInsertBlock (hsingle hsleep fl hfl) (hshort hsleep fl hfl) (conflict_owner hfl)
      (eq_false_iff.mpr hdead)).acyclic
  unfold posixLockFile
  rw [hfl]
  simp [hsleep, hdead]

/-- The chain of waiting owners from `block` has at most `n` links. -/
def chainEnds (m : State ω) : Nat → ω → Bool
  | 0, block => (m.whatOwnerIsWaitingFor block).isNone
  | n + 1, block => (m.whatOwnerIsWaitingFor block).all (m.chainEnds n)

/-- The chain is followed to its end. -/
def Ends (m : State ω) : Op ω → Prop
  | .request inode req _ _ =>
    req.sleep = true → ∀ fl ∈ m.conflict inode req, m.chainEnds (maxDeadlkIterations + 1) fl.owner
  | .deleteBlock _ => True

instance : DecidablePred m.Ends
  | .request .. => inferInstanceAs (Decidable (_ → _))
  | .deleteBlock _ => instDecidableTrue

theorem deadlockLoop_of_chainEnds {caller block : ω} {k : Nat} (hends : m.chainEnds k block = true)
    (h : m.deadlockLoop caller n block = true) : m.deadlockLoop caller k block = true := by
  induction k generalizing n block with
  | zero =>
    cases n with
    | zero => exact h
    | succ n =>
      rw [deadlockLoop, isNone_iff_eq_none.mp hends] at h
      cases h
  | succ k ih =>
    cases n with
    | zero => cases h
    | succ n =>
      rw [deadlockLoop] at h ⊢
      rw [chainEnds] at hends
      cases hwhat : m.whatOwnerIsWaitingFor block with
      | none =>
        rw [hwhat] at h
        cases h
      | some c =>
        rw [hwhat] at h hends
        dsimp only at h ⊢
        split_ifs at h ⊢ with heq
        · rfl
        · exact ih hends h

theorem Ends.short {op : Op ω} (h : m.Ends op) : m.Short op := by
  cases op with
  | request inode req alloc alloc2 =>
    exact fun hsleep fl hfl n hn => deadlockLoop_of_chainEnds (h hsleep fl hfl) hn
  | deleteBlock waiter => trivial

/-- A write lock on one byte, waited for if need be. -/
def lockByte (owner byte : Fin 13) : Request (Fin 13) where
  type := .wrlck
  start := byte
  end_ := byte
  owner := owner
  sleep := true
  start_nonneg := Int.natCast_nonneg _
  start_le := le_rfl
  end_le := by
    unfold offsetMax
    omega

def lockBytes (l : List (Fin 13 × Fin 13)) : List (Op (Fin 13)) :=
  l.map fun e => .request 0 (lockByte e.1 e.2) true true

/-- Two owners have a lock each, and one waits for the other: that one may not wait for it. -/
theorem waitsFor_acyclic_two : ∃ m : State (Fin 13),
    Reached step (fun m op => m.Single op ∧ m.Short op) init m ∧ m.WaitsFor 0 1 ∧
      (m.posixLockFile 0 (lockByte 1 0) true true).1 = .edeadlk := by
  obtain ⟨m, hm, ⟨w, hw, ho, hp⟩, hsingle, hends, hmap⟩ : ∃ m : State (Fin 13),
    Reached step (fun m op => m.Single op ∧ m.Ends op) init m ∧
      m.WaitsFor 0 1 ∧ m.Single (.request 0 (lockByte 1 0) true true) ∧
        m.Ends (.request 0 (lockByte 1 0) true true) ∧
        (m.conflict 0 (lockByte 1 0)).map FileLock.owner = some 0 :=
    Reached.exists_of_checked (lockBytes [(0, 0), (1, 1), (0, 1)]) (by decide +kernel)
  obtain ⟨fl, hfl, howner⟩ := map_eq_some_iff.mp hmap
  have hm : Reached step (fun m op => m.Single op ∧ m.Short op) init m :=
    hm.mono fun _ _ => And.imp_right Ends.short
  refine ⟨m, hm, ⟨w, hw, ho, hp⟩,
    (waitsFor_acyclic hm).2 0 (lockByte 1 0) true true hsingle hends.short rfl fl hfl ?_⟩
  exact fun h =>
    h 0 (.tail (.single ⟨w, mem_cons_of_mem _ hw, ho, hp⟩) ⟨_, mem_cons_self, rfl, howner⟩)

/-- Each condition is needed: there is a cycle if an owner waits with two requests, and if 13 owners
wait for one another in turn. -/
theorem exists_cycle : (∃ m : State (Fin 13), Reached step Short init m ∧ ¬m.Acyclic) ∧
      ∃ m : State (Fin 13), Reached step Single init m ∧ ¬m.Acyclic := by
  constructor
  · obtain ⟨m, hm, h₀, h₁⟩ : ∃ m : State (Fin 13), Reached step Ends init m ∧
        m.WaitsFor 0 1 ∧ m.WaitsFor 1 0 :=
      Reached.exists_of_checked (lockBytes [(0, 0), (1, 1), (2, 2), (0, 1), (0, 2), (1, 0)])
        (by decide +kernel)
    exact ⟨m, hm.mono fun _ _ => Ends.short, fun h => h 0 (.tail (.single h₀) h₁)⟩
  · obtain ⟨m, hm, hp⟩ : ∃ m : State (Fin 13), Reached step Single init m ∧
        ∀ o, m.WaitsFor o (o + 1) :=
      Reached.exists_of_checked
        (lockBytes (((finRange 13).map fun o => (o, o)) ++ (finRange 13).map fun o => (o, o + 1)))
        (by decide +kernel)
    have hpath : ∀ n, TransGen m.WaitsFor 0 (Fin.ofNat 13 (n + 1)) := by
      intro n
      induction n with
      | zero => exact .single (hp 0)
      | succ n ih =>
        have hsucc : Fin.ofNat 13 (n + 1 + 1) = Fin.ofNat 13 (n + 1) + 1 :=
          Fin.ext (by simp [Fin.val_add])
        exact hsucc ▸ ih.tail (hp _)
    exact ⟨m, hm, fun h => h 0 (hpath 12)⟩

end State

end AndroidKernel.Locks
