import AndroidKernel.Lib.Outcome
import AndroidKernel.Binder.BufferConfluence
import AndroidKernel.Binder.Transaction

/-!
# Pointers

How a pointer is followed, and what the rest of the driver does to the buffer
areas: they stay well formed, and nothing else changes.
-/

namespace AndroidKernel.Binder

open BufferArea

/-- The `BUG()`s about death notifications do not fire. -/
def Fault.NotDeath (e : Fault) : Prop := e ≠ .bug .bcClearDeath ∧ e ≠ .bug .deferredReleaseDeath
  deriving Decidable

/-- The faults of a pointer that leads nowhere are among `E`. -/
class Fault.Pointers (E : Fault → Prop) : Prop where
  useAfterFree : E .useAfterFree

instance : Fault.Pointers Fault.NotDeath := ⟨by decide⟩

instance : Fault.Pointers fun _ => True := ⟨trivial⟩

theorem Fault.notDeath_corruptList : Fault.NotDeath .corruptList := by decide

/-! ## One area -/

section Area

variable {a : BufferArea} {env : PageEnv} {b : Nat}

/-- `binder_free_buf` of a buffer that is not in use, or still belongs to a
transaction, runs into a `BUG_ON`. -/
theorem binderFreeBuf_ensures (h : a.Inv) :
    Ensures (a.binderFreeBuf env b) Fault.NotDeath BufferArea.Inv := by
  have hbug : Fault.NotDeath (.bug .freeBuf) := by decide
  cases hfind : a.find b with
  | none =>
    rw [binderFreeBuf, hfind]
    exact Fault.Pointers.useAfterFree (E := Fault.NotDeath)
  | some x =>
    have hx : x ∈ a.buffers := List.mem_of_find?_eq_some hfind
    have hb : x.addr = b := by simpa using List.find?_some hfind
    subst hb
    cases hfree : x.free with
    | true =>
      rw [binderFreeBuf, hfind]
      simp only [freeBufRelease, hfree]
      exact hbug
    | false =>
      cases htx : x.transaction with
      | some t =>
        rw [binderFreeBuf, hfind]
        simp only [freeBufRelease, hfree, htx]
        by_cases hsize : requestSize x.dataSize x.offsetsSize > a.binderBufferSize x.addr <;>
          simp only [hsize] <;>
          exact hbug
      | none =>
        obtain ⟨l₁, l₂, hbuf⟩ := List.append_of_mem hx
        obtain ⟨a', hok, hinv, -⟩ := binderFreeBuf_spec h env hbuf hfree htx
        rw [hok]
        exact hinv

theorem lookupIn_ensures {t : Rbtree Nat} :
    Ensures (a.lookupIn b t) Fault.NotDeath fun _ => True := by
  induction t with
  | nil => trivial
  | node col l y r ihl ihr =>
    rw [lookupIn]
    split
    · exact (by decide : Fault.NotDeath (.bug .bufferLookup))
    · split
      · exact ihl
      · split
        · exact ihr
        · trivial

end Area

/-! ## All areas -/

namespace State

section Deref

variable {E : Fault → Prop} [Fault.Pointers E]

theorem deref_ensures {α : Type} {h : Heap α} {i : Nat} :
    Ensures (deref h i) E fun x => h.get i = some x := by
  rw [deref]
  cases hx : h.get i with
  | none => exact Fault.Pointers.useAfterFree
  | some x => exact rfl

variable {s : State} {p : ProcId} {th : ThreadId} {n : NodeId} {r : RefId} {t : TransactionId}
  {d : DeathId}

theorem proc_ensures : Ensures (s.proc p) E fun x => s.procs.get p = some x := deref_ensures

theorem thread_ensures : Ensures (s.thread th) E fun x => s.threads.get th = some x := deref_ensures

theorem node_ensures : Ensures (s.node n) E fun x => s.nodes.get n = some x := deref_ensures

theorem ref_ensures : Ensures (s.ref r) E fun x => s.refs.get r = some x := deref_ensures

theorem transaction_ensures :
    Ensures (s.transaction t) E fun x => s.transactions.get t = some x := deref_ensures

theorem death_ensures : Ensures (s.death d) E fun x => s.deaths.get d = some x := deref_ensures

theorem area_ensures : Ensures (s.area p) E fun a => s.areas p = some a := by
  rw [area]
  cases ha : s.areas p with
  | none => exact Fault.Pointers.useAfterFree
  | some a => exact rfl

omit [Fault.Pointers E] in
theorem bugOn_ensures {site : BugSite} {cond : Bool} (h : E (.bug site)) :
    Ensures (bugOn site cond) E fun _ => cond = false := by
  cases cond with
  | true => exact h
  | false => exact rfl

end Deref

/-- Every area is well formed. -/
def AreasInv (s : State) : Prop := ∀ p a, s.areas p = some a → a.Inv

/-- Nothing but the areas differs. -/
def OnlyAreas (s s' : State) : Prop := s' = { s with areas := s'.areas }

variable {s : State} {p : ProcId} {a : BufferArea} {b : BufferPtr} {env : PageEnv}

theorem AreasInv.setArea (h : s.AreasInv) (ha : a.Inv) : (s.setArea p a).AreasInv := by
  intro q a' hq
  simp only [State.setArea] at hq
  split at hq
  · cases hq
    exact ha
  · exact h q a' hq

/-- `binder_alloc_buf` in the area of a process. -/
theorem allocBuf_ensures (h : s.AreasInv) {d o : UInt32} {isAsync : Bool} :
    Ensures (s.allocBuf p env d o isAsync) Fault.NotDeath fun r => r.1.AreasInv ∧
      s.OnlyAreas r.1 := by
  rw [allocBuf]
  cases ha : s.areas p with
  | none => exact ⟨h, rfl⟩
  | some a =>
    have hinv := h p a ha
    rcases binderAllocBuf_spec hinv env d o isAsync with hfail | ⟨a', addr, hok, hinv', -⟩
    · simp only [hfail]
      exact ⟨h.setArea hinv, rfl⟩
    · simp only [hok]
      exact ⟨h.setArea hinv', rfl⟩

theorem buffer_ensures : Ensures (s.buffer b) Fault.NotDeath fun _ => True := by
  refine area_ensures.bind fun a _ => ?_
  split
  · trivial
  · exact Fault.Pointers.useAfterFree (E := Fault.NotDeath)

end State

end AndroidKernel.Binder
