import Mathlib.Algebra.Order.Ring.Int

/-!
# Binder: identifiers and faults

Kernel objects are named by numbers, one number space for each kind of object.
A `BUG_ON` that fires, a `NULL` that is followed and an access to an object
after its `kfree` all end a run: the operations of the model return a `Fault`
in these cases, so that "this `BUG_ON` never fires" and "this object is never
used after it was freed" are statements about the model.
-/

namespace AndroidKernel.Binder

abbrev ProcId := Nat
abbrev ThreadId := Nat
abbrev NodeId := Nat
abbrev RefId := Nat
abbrev TransactionId := Nat
abbrev DeathId := Nat

/-- The `BUG()` and `BUG_ON()` sites of `binder.c`, by the function they are in. -/
inductive BugSite where
  | insertFreeBuffer
  | insertAllocatedBuffer
  | updatePageRange
  | allocBuf
  | bufferLookup
  | deleteFreeBuffer
  | freeBuf
  | getRefForNode
  | popTransaction
  | sendFailedReply
  | transaction
  | bcFreeBuffer
  | bcClearDeath
  | threadRead
  | freeThread
  | deferredRelease
  /-- the `BUG()` of `binder_deferred_release` at a notification that is on a list -/
  | deferredReleaseDeath
  deriving DecidableEq

/-- The loops of `binder.c` that follow pointers until they meet `NULL`. -/
inductive LoopSite where
  | sendFailedReply
  | transaction
  | threadRead
  | freeThread
  deriving DecidableEq

/-- How an operation of the driver can go wrong for good. -/
inductive Fault where
  /-- a `BUG()` or `BUG_ON()` fires -/
  | bug (site : BugSite)
  /-- a freed object is accessed -/
  | useAfterFree
  /-- a `NULL` pointer is followed -/
  | nullDeref
  /-- an array is accessed outside its bounds -/
  | outOfBounds
  /-- an item is put on a list while it is on one -/
  | corruptList
  /-- a loop over pointers does not end -/
  | endless (loop : LoopSite)
  deriving DecidableEq

/-- `BUG_ON(cond)`. -/
def bugOn (site : BugSite) (cond : Bool) : Except Fault Unit :=
  if cond then .error (.bug site) else .ok ()

@[simp] theorem bugOn_false (site : BugSite) : bugOn site false = .ok () := rfl

end AndroidKernel.Binder
