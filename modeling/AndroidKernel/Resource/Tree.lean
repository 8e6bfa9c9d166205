import AndroidKernel.Lib.Seg
import AndroidKernel.Lib.Words

/-!
# Resources (`kernel/resource.c`)

Ranges of addresses in a tree: the children of a resource are linked by `sibling`. All calls hold
`resource_lock`. `resource_size_t` has 32 bits, and ranges include their ends.

A resource is known by a number. Each field of `struct resource` is a function of it; the name
and the flags are left out, since they decide nothing here. A loop along pointers gets as much
fuel as there are resources, so that it runs out only where the pointers go round in a circle.
-/

namespace AndroidKernel.Resource

open Function

structure Resources where
  start : Nat → Nat
  end_ : Nat → Nat
  parent : Nat → Option Nat
  sibling : Nat → Option Nat
  child : Nat → Option Nat
  /-- How many there are. -/
  num : Nat

namespace Resources

variable (m : Resources) (root new : Nat)

/-- `*p`, where `p` is `&root->child`, or `&prev->sibling`. -/
def link : Option Nat → Option Nat
  | none => m.child root
  | some prev => m.sibling prev

/-- `*p = q`. -/
def setLink (p q : Option Nat) : Resources :=
  match p with
  | none => { m with child := update m.child root q }
  | some prev => { m with sibling := update m.sibling prev q }

/-! ## Requests -/

/-- The end of `__request_resource`: `new` comes before `*p`. -/
def insertAt (p : Option Nat) : Resources :=
  let tmp := m.link root p
  let m := { m with sibling := update m.sibling new tmp }
  let m := m.setLink root p (some new)
  { m with parent := update m.parent new (some root) }

/-- The loop of `__request_resource`, which returns the resource in conflict. -/
def requestLoop (m : Resources) (root new : Nat) :
    Nat → Option Nat → Option (Option Nat × Resources)
  | 0, _ => none
  | fuel + 1, p =>
    match m.link root p with
    | none => some (none, m.insertAt root new p)
    | some tmp =>
      if m.end_ new < m.start tmp then some (none, m.insertAt root new p)
      else if m.end_ tmp < m.start new then requestLoop m root new fuel (some tmp)
      else some (some tmp, m)

/-- `__request_resource`. -/
def requestResource : Option (Option Nat × Resources) :=
  if m.end_ new < m.start new then some (some root, m)
  else if m.start new < m.start root then some (some root, m)
  else if m.end_ root < m.end_ new then some (some root, m)
  else m.requestLoop root new (m.num + 1) none

/-- The loop of `__release_resource`, which returns whether `old` was found. -/
def releaseLoop (m : Resources) (parent old : Nat) : Nat → Option Nat → Option (Bool × Resources)
  | 0, _ => none
  | fuel + 1, p =>
    match m.link parent p with
    | none => some (false, m)
    | some tmp =>
      if tmp = old then
        let m := m.setLink parent p (m.sibling tmp)
        some (true, { m with parent := update m.parent old none })
      else releaseLoop m parent old fuel (some tmp)

/-- `__release_resource`, for a resource that has a parent. -/
def releaseResource (old : Nat) : Option (Bool × Resources) :=
  match m.parent old with
  | none => none
  | some parent => m.releaseLoop parent old (m.num + 1) none

/-! ## Allocation -/

/-- `ALIGN`: the mask is added, and its bits are cleared. -/
def align (x a : Nat) : Nat :=
  let mask := a - 1
  let y := ulong (x + mask)
  y - (y &&& mask)

/-- What `allocate_resource` is asked for. -/
structure Request where
  size : Nat
  min : Nat
  max : Nat
  align : Nat

/-- What `find_resource` makes of the gap from `start` to `end_`: `new->start` and `new->end`
when they are compared. -/
def clip (req : Request) (start end_ : Nat) : Nat × Nat :=
  (Resources.align (if start < req.min then req.min else start) req.align,
    if req.max < end_ then req.max else end_)

/-- The condition under which `find_resource` takes a gap. -/
def Takes (req : Request) (start end_ : Nat) : Prop :=
  start < end_ ∧ ulong ((req.size : Int) - 1) ≤ end_ - start
  deriving Decidable

/-- The loop of `find_resource`, without a callback for the alignment. It returns whether a gap was
found, and `new->start` and `new->end`. -/
def findLoop (m : Resources) (root : Nat) (req : Request) :
    Nat → Option Nat → Nat → Option (Bool × Nat × Nat)
  | 0, _, _ => none
  | fuel + 1, this, start =>
    let end_ :=
      match this with
      | some t => ulong ((m.start t : Int) - 1)
      | none => m.end_ root
    let (start, end_) := clip req start end_
    if Takes req start end_ then some (true, start, ulong ((start : Int) + req.size - 1))
    else
      match this with
      | none => some (false, start, end_)
      | some t => findLoop m root req fuel (m.sibling t) (ulong ((m.end_ t : Int) + 1))

/-- `find_resource`. A child that starts at zero is skipped. -/
def findResource (req : Request) : Option (Bool × Nat × Nat) :=
  match m.child root with
  | some t =>
    if m.start t = 0 then
      m.findLoop root req (m.num + 1) (m.sibling t) (ulong ((m.end_ t : Int) + 1))
    else m.findLoop root req (m.num + 1) (some t) (m.start root)
  | none => m.findLoop root req (m.num + 1) none (m.start root)

/-- `new->start` and `new->end` are set. -/
def setRange (start end_ : Nat) : Resources :=
  { m with
    start := update m.start new start
    end_ := update m.end_ new end_ }

/-- `allocate_resource`, which returns whether it succeeded. -/
def allocateResource (req : Request) : Option (Bool × Resources) := do
  let (found, start, end_) ← m.findResource root req
  let m := m.setRange new start end_
  if found then
    let (conflict, m) ← m.requestResource root new
    return (conflict = none, m)
  else return (false, m)

/-! ## Insertion -/

/-- Where the first loop of `__insert_resource` ends. -/
inductive Descent
  /-- It returns: the resource in conflict, if there is one. -/
  | returns (conflict : Option Nat) (m : Resources)
  /-- `first` is in conflict with `new` and does not contain it. -/
  | breaks (parent first : Nat)

/-- The first loop of `__insert_resource`. -/
def descend (m : Resources) (new : Nat) : Nat → Nat → Option Descent
  | 0, _ => none
  | fuel + 1, parent => do
    let (conflict, m') ← m.requestResource parent new
    match conflict with
    | none => return .returns none m'
    | some first =>
      if first = parent then return .returns (some first) m'
      else if m.start new < m.start first ∨ m.end_ first < m.end_ new then
        return .breaks parent first
      else if m.start first = m.start new ∧ m.end_ first = m.end_ new then
        return .breaks parent first
      else descend m new fuel first

/-- The second loop of `__insert_resource`: a resource that overlaps `new` only in part is returned
on the left, and the last one that lies in `new` on the right. -/
def adoptLoop (m : Resources) (new : Nat) : Nat → Nat → Option (Nat ⊕ Nat)
  | 0, _ => none
  | fuel + 1, next =>
    if m.start next < m.start new ∨ m.end_ new < m.end_ next then some (.inl next)
    else
      match m.sibling next with
      | none => some (.inr next)
      | some s => if m.end_ new < m.start s then some (.inr next) else adoptLoop m new fuel s

/-- The loop that sets the parents of the adopted resources. -/
def reparentLoop (new : Nat) : Nat → Option Nat → Resources → Option Resources
  | _, none, m => some m
  | 0, some _, _ => none
  | fuel + 1, some next, m =>
    reparentLoop new fuel (m.sibling next)
      { m with parent := update m.parent next (some new) }

/-- The loop that looks for the resource before `first`. -/
def beforeLoop (m : Resources) (first : Nat) : Nat → Nat → Option Nat
  | 0, _ => none
  | fuel + 1, next =>
    if m.sibling next = some first then some next
    else
      match m.sibling next with
      | none => none
      | some s => beforeLoop m first fuel s

/-- The end of `__insert_resource`: `new` takes the place of its children `first` to `last`. -/
def adopt (parent new first last : Nat) : Option Resources := do
  let m :=
    { m with
      parent := update m.parent new (some parent)
      sibling := update m.sibling new (m.sibling last)
      child := update m.child new (some first) }
  let m := { m with sibling := update m.sibling last none }
  let m ← reparentLoop new (m.num + 1) (some first) m
  if m.child parent = some first then
    return { m with child := update m.child parent (some new) }
  else
    let head ← m.child parent
    let next ← m.beforeLoop first (m.num + 1) head
    return { m with sibling := update m.sibling next (some new) }

/-- `__insert_resource`. -/
def insertResource (parent new : Nat) : Option (Option Nat × Resources) := do
  match ← m.descend new (m.num + 1) parent with
  | .returns conflict m => return (conflict, m)
  | .breaks parent first =>
    match ← m.adoptLoop new (m.num + 1) first with
    | .inl next => return (some next, m)
    | .inr last => return (none, ← m.adopt parent new first last)

/-- The loop of `insert_resource_expand_to_fit`. -/
def expandLoop (root new : Nat) : Nat → Resources → Option Resources
  | 0, _ => none
  | fuel + 1, m => do
    let (conflict, m) ← m.insertResource root new
    match conflict with
    | none => return m
    | some conflict =>
      if conflict = root then return m
      else
        expandLoop root new fuel
          (m.setRange new (if m.start conflict < m.start new then m.start conflict else m.start new)
            (if m.end_ new < m.end_ conflict then m.end_ conflict else m.end_ new))

/-- `insert_resource_expand_to_fit`. Each time round the range grows, so it goes round at most
`2 ^ 32` times. -/
def insertResourceExpandToFit : Option Resources :=
  match m.parent new with
  | some _ => some m
  | none => expandLoop root new (2 ^ 32 + 1) m

/-! ## Adjustment -/

/-- The loop over the children in `adjust_resource`. -/
def holdsLoop (m : Resources) (start end_ : Nat) : Nat → Option Nat → Option Bool
  | _, none => some true
  | 0, some _ => none
  | fuel + 1, some tmp =>
    if m.start tmp < start ∨ end_ < m.end_ tmp then some false
    else holdsLoop m start end_ fuel (m.sibling tmp)

/-- Whether `adjust_resource` finds the end of the resource before `res` below `start`. -/
def clearsBefore (parent res start : Nat) : Option Bool :=
  if m.child parent = some res then some true
  else do
    let head ← m.child parent
    let tmp ← m.beforeLoop res (m.num + 1) head
    return m.end_ tmp < start

/-- `adjust_resource`, for a resource that has a parent. It returns whether it succeeded. -/
def adjustResource (res start size : Nat) : Option (Bool × Resources) := do
  let parent ← m.parent res
  let end_ := ulong ((start : Int) + size - 1)
  if start < m.start parent ∨ m.end_ parent < end_ then return (false, m)
  if !(← m.holdsLoop start end_ (m.num + 1) (m.child res)) then return (false, m)
  if ∃ s ∈ m.sibling res, m.start s ≤ end_ then return (false, m)
  if !(← m.clearsBefore parent res start) then return (false, m)
  return (true, m.setRange res start end_)

end Resources

end AndroidKernel.Resource
