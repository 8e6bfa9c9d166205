import AndroidKernel.KernelLib.Strtoul
import AndroidKernel.Lib.Rbtree
import AndroidKernel.Power.Wakelock
import Mathlib.Data.List.Lex

/-!
# User wake locks (`kernel/power/userwakelock.c`)

User space takes and releases wake locks by name, with writes to `wake_lock` and
`wake_unlock`. The locks are in a red-black tree; `lookup_wake_lock_name` finds a lock
with `strncmp` and a tie-break for names that go on after the one that is looked for.
Taken together this is the lexicographic order of byte strings, so that the tree is a
map from names to locks.

A write works under `tree_lock` and is one step. A buffer is what was written, with
zeros behind it. Of a wake lock only the last call for it is kept; debug output is left
out.
-/

namespace AndroidKernel.UserWakelock

open List Strtoul

/-- `strncmp`. -/
def strncmp : List Byte → List Byte → Nat → Int
  | _, _, 0 => 0
  | cs, ct, count + 1 =>
    let c1 := cs.headD 0
    let c2 := ct.headD 0
    if c1 ≠ c2 then if c1 < c2 then -1 else 1
    else if c1 = 0 then 0
    else strncmp cs.tail ct.tail count

/-! ## The table -/

inductive Errno
  | EINVAL
  | ENOMEM
  deriving DecidableEq

/-- `struct user_wake_lock`. The name is followed by a zero. -/
structure UserWakeLock where
  addr : Nat
  name : List Byte
  deriving DecidableEq

/-- What was last called for a wake lock. -/
inductive Call
  | wakeLockInit
  | wakeLock
  | wakeLockTimeout (timeout : Int)
  | wakeUnlock
  deriving DecidableEq

structure State where
  userWakeLocks : Rbtree UserWakeLock
  called : Nat → Call
  /-- The address of the next lock that is allocated. -/
  next : Nat

/-- `NSEC_PER_SEC / HZ`. -/
def nsecPerJiffy : Nat := 1000000000 / 256

def inName (c : Byte) : Bool := c ≠ 0 && !isspace c

/-- The name of a lock, up to a space or the end of the string. -/
def lockName (buf : List Byte) : List Byte := buf.takeWhile inName

/-- What follows the name and the blanks after it. -/
def argument (buf : List Byte) : List Byte := (buf.dropWhile inName).dropWhile isspace

/-- The rest of the arguments of `lookup_wake_lock_name`: the timeout, if there are no bad ones.
A timeout is asked for if `timeoutptr` is not `NULL`. -/
def parseTimeout (buf : List Byte) (timeoutptr : Bool) : Option Int :=
  if (lockName buf).length = 0 then none
  else
    let arg := argument buf
    if timeoutptr ∧ arg.headD 0 ≠ 0 then
      let (timeout, arg) := simpleStrtoull arg 0
      if (arg.dropWhile isspace).headD 0 ≠ 0 then none
      else
        let timeout := (timeout + (nsecPerJiffy - 1)) % 2 ^ 64 / nsecPerJiffy
        some (Int.bmod (if timeout = 0 then 1 else timeout : Nat) (2 ^ 32))
    else if arg.headD 0 ≠ 0 then none
    else some 0

/-- How the first `nameLen` bytes of `buf` compare with the name of a lock. -/
def nameDiff (buf : List Byte) (nameLen : Nat) (l : UserWakeLock) : Int :=
  let diff := strncmp buf l.name nameLen
  if diff = 0 ∧ l.name.getD nameLen 0 ≠ 0 then -1 else diff

/-- The loop of `lookup_wake_lock_name`. -/
def search (diff : UserWakeLock → Int) : Rbtree UserWakeLock → Option UserWakeLock
  | .nil => none
  | .node _ left l right =>
    if diff l < 0 then search diff left
    else if diff l > 0 then search diff right
    else some l

namespace State

variable (s : State) (buf : List Byte) (memory : Bool)

/-- `lookup_wake_lock_name`; `memory` says whether there is memory for a new lock. -/
def lookupWakeLockName (allocate timeoutptr memory : Bool) :
    Except Errno (UserWakeLock × Int) × State :=
  match parseTimeout buf timeoutptr with
  | none => (.error .EINVAL, s)
  | some timeout =>
    let nameLen := (lockName buf).length
    match search (nameDiff buf nameLen) s.userWakeLocks with
    | some l => (.ok (l, timeout), s)
    | none =>
      if !allocate then (.error .EINVAL, s)
      else if !memory then (.error .ENOMEM, s)
      else
        let l : UserWakeLock := ⟨s.next, buf.take nameLen⟩
        (.ok (l, timeout),
          { userWakeLocks := s.userWakeLocks.insertAt (fun x => nameDiff buf nameLen x < 0) l
            called := Function.update s.called l.addr .wakeLockInit
            next := s.next + 1 })

/-- `wake_lock_store`, with the lock that it takes. -/
def wakeLockStore : Except Errno UserWakeLock × State :=
  match s.lookupWakeLockName buf true true memory with
  | (.error e, s) => (.error e, s)
  | (.ok (l, timeout), s) =>
    let call := if timeout ≠ 0 then .wakeLockTimeout timeout else .wakeLock
    (.ok l, { s with called := Function.update s.called l.addr call })

/-- `wake_unlock_store`, with the lock that it releases. -/
def wakeUnlockStore : Except Errno UserWakeLock × State :=
  match s.lookupWakeLockName buf false false false with
  | (.error e, s) => (.error e, s)
  | (.ok (l, _), s) => (.ok l, { s with called := Function.update s.called l.addr .wakeUnlock })

def init : State := ⟨.nil, fun _ => .wakeLockInit, 0⟩

end State

/-- A write, with the lock it was about or the error that it returned. -/
inductive Event
  | wakeLock (buf : List Byte) (result : Except Errno UserWakeLock) (created : Bool)
  | wakeUnlock (buf : List Byte) (result : Except Errno UserWakeLock)

inductive Step : State → Event → State → Prop
  | wakeLock (s : State) (buf : List Byte) (memory : Bool) {r : Except Errno UserWakeLock}
      {s' : State} (h : s.wakeLockStore buf memory = (r, s')) :
      Step s (.wakeLock buf r (s.next < s'.next)) s'
  | wakeUnlock (s : State) (buf : List Byte) {r : Except Errno UserWakeLock} {s' : State}
      (h : s.wakeUnlockStore buf = (r, s')) : Step s (.wakeUnlock buf r) s'

/-! ## The order of names -/

variable {s s' : State} {buf name : List Byte} {l : UserWakeLock} {t : Rbtree UserWakeLock}
  {memory : Bool} {diff : UserWakeLock → Int} {events : List Event}
  {r : Except Errno UserWakeLock}

/-- A string of C, without the zero that ends it. -/
def IsString (name : List Byte) : Prop := ∀ c ∈ name, c ≠ 0

/-- The comparison of `lookup_wake_lock_name` is the lexicographic order. -/
theorem nameDiff_append (rest : List Byte) (hname : IsString name) (hl : IsString l.name) :
    (nameDiff (name ++ rest) name.length l < 0 ↔ name < l.name) ∧
      (nameDiff (name ++ rest) name.length l > 0 ↔ l.name < name) := by
  obtain ⟨addr, lname⟩ := l
  induction name generalizing lname with
  | nil =>
    cases lname with
    | nil => simp [nameDiff, strncmp]
    | cons d lname => simp [nameDiff, strncmp, hl d (by simp)]
  | cons c name ih =>
    have hc : c ≠ 0 := hname c (by simp)
    cases lname with
    | nil =>
      have : ¬ c < 0 := Nat.not_lt_zero _
      simp [nameDiff, strncmp, hc]
    | cons d lname =>
      have hrest := ih (fun x hx => hname x (by simp [hx])) lname fun x hx => hl x (by simp [hx])
      rw [cons_lt_cons_iff, cons_lt_cons_iff]
      by_cases hcd : c = d
      · subst hcd
        simpa [nameDiff, strncmp, hc] using hrest
      · rcases lt_or_gt_of_ne hcd with hlt | hlt
        · simp [nameDiff, strncmp, hcd, hlt, not_lt_of_gt hlt, Ne.symm hcd]
        · simp [nameDiff, strncmp, hcd, hlt, not_lt_of_gt hlt]

theorem isString_lockName (buf : List Byte) : IsString (lockName buf) := by
  intro c hc
  have h : inName c = true := mem_takeWhile_imp hc
  simp only [inName, Bool.and_eq_true, decide_eq_true_eq] at h
  exact h.1

/-- The comparison of a lookup, for the name at the start of its buffer. -/
theorem nameDiff_spec (buf : List Byte) (hl : IsString l.name) :
    (nameDiff buf (lockName buf).length l < 0 ↔ lockName buf < l.name) ∧
      (nameDiff buf (lockName buf).length l > 0 ↔ l.name < lockName buf) ∧
      (nameDiff buf (lockName buf).length l = 0 ↔ l.name = lockName buf) := by
  have h := nameDiff_append (buf.dropWhile inName) (isString_lockName buf) hl
  have happend : lockName buf ++ buf.dropWhile inName = buf := takeWhile_append_dropWhile
  rw [happend] at h
  obtain ⟨hlt, hgt⟩ := h
  refine ⟨hlt, hgt, ?_⟩
  rcases lt_trichotomy (lockName buf) l.name with h | h | h
  · have := hlt.mpr h
    exact iff_of_false (by omega) h.ne'
  · have h1 := mt hlt.mp (h ▸ lt_irrefl _)
    have h2 := mt hgt.mp (h ▸ lt_irrefl _)
    exact iff_of_true (by omega) h.symm
  · have := hgt.mpr h
    exact iff_of_false (by omega) h.ne

/-! ## The table is a map -/

/-- The names are strings, in ascending order. -/
structure State.Ok (s : State) : Prop where
  ordered : s.userWakeLocks.toList.Pairwise fun x y => x.name < y.name
  isString : ∀ l ∈ s.userWakeLocks.toList, IsString l.name

/-- A search finds what compares equal, if nothing but larger elements follow what is not smaller.
-/
theorem search_eq_some_iff (h : t.toList.Pairwise fun x y => diff x ≤ 0 → diff y < 0) :
    search diff t = some l ↔ l ∈ t.toList ∧ diff l = 0 := by
  induction t with
  | nil => simp [search, Rbtree.toList]
  | node c left x right ihl ihr =>
    rw [Rbtree.toList, pairwise_append, pairwise_cons] at h
    obtain ⟨hl, ⟨hxr, hr⟩, hlx⟩ := h
    have hleft : ∀ y ∈ left.toList, diff y = 0 → diff x < 0 := fun y hy h0 =>
      hlx y hy x (by simp) h0.le
    simp only [search, Rbtree.toList, mem_append, mem_cons]
    by_cases hlt : diff x < 0
    · rw [if_pos hlt, ihl hl]
      constructor
      · rintro ⟨hm, h0⟩
        exact ⟨.inl hm, h0⟩
      · rintro ⟨hm | rfl | hm, h0⟩
        · exact ⟨hm, h0⟩
        · omega
        · have := hxr l hm hlt.le
          omega
    rw [if_neg hlt]
    by_cases hgt : diff x > 0
    · rw [if_pos hgt, ihr hr]
      constructor
      · rintro ⟨hm, h0⟩
        exact ⟨.inr (.inr hm), h0⟩
      · rintro ⟨hm | rfl | hm, h0⟩
        · exact absurd (hleft l hm h0) hlt
        · omega
        · exact ⟨hm, h0⟩
    · rw [if_neg hgt, Option.some.injEq]
      constructor
      · rintro rfl
        exact ⟨.inr (.inl rfl), by omega⟩
      · rintro ⟨hm | rfl | hm, h0⟩
        · exact absurd (hleft l hm h0) hlt
        · rfl
        · have := hxr l hm (by omega)
          omega

namespace State

theorem Ok.pairwise (h : s.Ok) {P : UserWakeLock → UserWakeLock → Prop}
    (hP : ∀ x y, IsString x.name → IsString y.name → x.name < y.name → P x y) :
    s.userWakeLocks.toList.Pairwise P :=
  h.ordered.imp_of_mem fun hx hy => hP _ _ (h.isString _ hx) (h.isString _ hy)

theorem Ok.search_iff (h : s.Ok) :
    search (nameDiff buf (lockName buf).length) s.userWakeLocks = some l ↔
      l ∈ s.userWakeLocks.toList ∧ l.name = lockName buf := by
  rw [search_eq_some_iff (h.pairwise ?_)]
  · exact and_congr_right fun hm => (nameDiff_spec buf (h.isString l hm)).2.2
  · intro x y hx hy hlt hle
    have hnot : ¬ x.name < lockName buf := fun hgt => by
      have := (nameDiff_spec buf hx).2.1.mpr hgt
      omega
    exact (nameDiff_spec buf hy).1.mpr (lt_of_le_of_lt (not_lt.mp hnot) hlt)

/-- A name that is not found is put where it belongs. -/
theorem Ok.insertAt (h : s.Ok) (hl : l.name = lockName buf)
    (hnone : search (nameDiff buf (lockName buf).length) s.userWakeLocks = none)
    (htree : s'.userWakeLocks =
      s.userWakeLocks.insertAt (fun x => nameDiff buf (lockName buf).length x < 0) l) : s'.Ok := by
  have hs : Rbtree.Searchable (fun x => nameDiff buf (lockName buf).length x < 0)
      s.userWakeLocks.toList := h.pairwise fun x y hx hy hlt hneg =>
    decide_eq_true ((nameDiff_spec buf hy).1.mpr
      (((nameDiff_spec buf hx).1.mp (of_decide_eq_true hneg)).trans hlt))
  constructor
  · rw [htree]
    refine Rbtree.pairwise_insertAt hs h.ordered (fun x hx hge => ?_) fun x hx hlt => ?_
    · have hle := mt (nameDiff_spec buf (h.isString x hx)).1.mpr (of_decide_eq_false hge)
      refine lt_of_le_of_ne (hl ▸ not_lt.mp hle) fun heq => ?_
      exact absurd (h.search_iff.mpr ⟨hx, heq.trans hl⟩) (by simp [hnone])
    · exact hl ▸ (nameDiff_spec buf (h.isString x hx)).1.mp (of_decide_eq_true hlt)
  · intro x hx
    rw [htree, (Rbtree.perm_insertAt _ _ _).mem_iff, mem_cons] at hx
    rcases hx with rfl | hx
    · exact hl ▸ isString_lockName buf
    · exact h.isString x hx

/-- A write to `wake_lock` with good arguments finds the lock of its name or makes it, if there is
memory; it leaves the table as it is otherwise. -/
theorem Ok.wakeLockStore_cases (hok : s.Ok) (h : s.wakeLockStore buf memory = (r, s')) :
    if (parseTimeout buf true).isNone then r = .error .EINVAL ∧ s' = s
    else
      (∃ l ∈ s.userWakeLocks.toList, l.name = lockName buf ∧ r = .ok l ∧
        s'.userWakeLocks = s.userWakeLocks ∧ s'.next = s.next) ∨
      (∀ l ∈ s.userWakeLocks.toList, l.name ≠ lockName buf) ∧
        if memory then
          r = .ok ⟨s.next, lockName buf⟩ ∧ s'.next = s.next + 1 ∧ s'.Ok ∧
            s'.userWakeLocks.toList.Perm (⟨s.next, lockName buf⟩ :: s.userWakeLocks.toList)
        else r = .error .ENOMEM ∧ s' = s := by
  have htake : buf.take (lockName buf).length = lockName buf :=
    prefix_iff_eq_take.mp ( takeWhile_prefix inName) |>.symm
  rw [wakeLockStore, lookupWakeLockName] at h
  cases hparse : parseTimeout buf true with
  | none =>
    rw [hparse] at h
    cases h
    exact ⟨rfl, rfl⟩
  | some timeout =>
    rw [hparse] at h
    cases hsearch : search (nameDiff buf (lockName buf).length) s.userWakeLocks with
    | some l =>
      simp only [hsearch] at h
      cases h
      obtain ⟨hmem, hname⟩ := hok.search_iff.mp hsearch
      exact .inl ⟨l, hmem, hname, rfl, rfl, rfl⟩
    | none =>
      have hnew : ∀ l ∈ s.userWakeLocks.toList, l.name ≠ lockName buf := fun l hl hname => by
        simp [hok.search_iff.mpr ⟨hl, hname⟩] at hsearch
      refine .inr ⟨hnew, ?_⟩
      cases memory with
      | false =>
        simp only [hsearch] at h
        cases h
        exact ⟨rfl, rfl⟩
      | true =>
        simp only [hsearch, htake] at h
        cases h
        exact ⟨rfl, rfl, hok.insertAt rfl hsearch rfl, Rbtree.perm_insertAt _ _ _⟩

/-- A write to `wake_unlock` leaves the table as it is. -/
theorem wakeUnlockStore_userWakeLocks (h : s.wakeUnlockStore buf = (r, s')) :
    s'.userWakeLocks = s.userWakeLocks := by
  rw [wakeUnlockStore, lookupWakeLockName] at h
  cases hparse : parseTimeout buf false with
  | none =>
    rw [hparse] at h
    cases h
    rfl
  | some timeout =>
    rw [hparse] at h
    cases hsearch : search (nameDiff buf (lockName buf).length) s.userWakeLocks with
    | some l | none =>
      simp only [hsearch] at h
      cases h
      rfl

theorem Ok.wakeUnlockStore_iff (h : s.Ok) : (s.wakeUnlockStore buf).1 = .ok l ↔
      (parseTimeout buf false).isSome ∧ l ∈ s.userWakeLocks.toList ∧ l.name = lockName buf := by
  rw [← h.search_iff, wakeUnlockStore, lookupWakeLockName]
  cases parseTimeout buf false with
  | none => simp
  | some timeout =>
    cases hsearch : search (nameDiff buf (lockName buf).length) s.userWakeLocks with
    | some l | none => simp [hsearch]

end State

/-- The locks in the table are those that writes to `wake_lock` have made. -/
structure Made (events : List Event) (s : State) : Prop where
  ok : s.Ok
  mem_iff : ∀ l, l ∈ s.userWakeLocks.toList ↔
    ∃ buf, .wakeLock buf (.ok l) true ∈ events ∧ lockName buf = l.name

theorem Made.unchanged (h : Made events s) {e : Event} (htree : s'.userWakeLocks = s.userWakeLocks)
    (he : ∀ buf l, e ≠ .wakeLock buf (.ok l) true) : Made (events ++ [e]) s' where
  ok := ⟨htree ▸ h.ok.ordered, htree ▸ h.ok.isString⟩
  mem_iff l := by
    rw [htree, h.mem_iff]
    simp [fun buf => (he buf l).symm]

theorem made_of_trace (h : Trace Step .init events s) : Made events s := by
  induction h with
  | nil =>
    refine ⟨⟨.nil, fun _ h => absurd h not_mem_nil⟩, fun l => ?_⟩
    simp [State.init, Rbtree.toList]
  | snoc _ hstep ih =>
    cases hstep with
    | wakeUnlock buf h => exact ih.unchanged (State.wakeUnlockStore_userWakeLocks h) (by simp)
    | wakeLock buf memory h =>
      have hcases := ih.ok.wakeLockStore_cases h
      split at hcases
      · obtain ⟨rfl, rfl⟩ := hcases
        exact ih.unchanged rfl (by simp)
      obtain ⟨l, -, -, -, htree, hnext⟩ | ⟨-, hcases⟩ := hcases
      · exact ih.unchanged htree (by simp [hnext])
      split at hcases
      · obtain ⟨rfl, hnext, hok, hperm⟩ := hcases
        refine ⟨hok, fun l => ?_⟩
        rw [hperm.mem_iff, mem_cons, ih.mem_iff, hnext]
        constructor
        · rintro (rfl | ⟨b, hb, hname⟩)
          · exact ⟨buf, by simp, rfl⟩
          · exact ⟨b, mem_append_left _ hb, hname⟩
        · rintro ⟨b, hb, hname⟩
          rcases mem_append.mp hb with hb | hb
          · exact .inr ⟨b, hb, hname⟩
          · rw [mem_singleton, Event.wakeLock.injEq, Except.ok.injEq] at hb
            exact .inl hb.2.1
      · obtain ⟨rfl, rfl⟩ := hcases
        exact ih.unchanged rfl (by simp)

/-- **The user wake locks are a map with names as keys.** After all sequences of writes, the tree is
in the order that lookups compare with and no name is in it twice. A write to `wake_unlock` with
arguments that are not bad finds a lock if and only if a write to `wake_lock` with the same name has
made it. One to `wake_lock` takes the lock of its name if there is one; if not it makes that lock,
unless there is no memory. -/
theorem userWakeLocks_map (h : Trace Step .init events s) :
    s.userWakeLocks.toList.Pairwise (fun x y => nameDiff x.name x.name.length y < 0) ∧
      (s.userWakeLocks.toList.map UserWakeLock.name).Nodup ∧
      (∀ buf l, (s.wakeUnlockStore buf).1 = .ok l ↔ (parseTimeout buf false).isSome ∧
          ∃ b, .wakeLock b (.ok l) true ∈ events ∧ lockName b = lockName buf ∧
            l.name = lockName buf) ∧
      ∀ buf memory r s', s.wakeLockStore buf memory = (r, s') →
        if (parseTimeout buf true).isNone then r = .error .EINVAL ∧ s' = s
        else
          (∃ l ∈ s.userWakeLocks.toList, l.name = lockName buf ∧ r = .ok l ∧
            s'.userWakeLocks = s.userWakeLocks) ∨
          (∀ l ∈ s.userWakeLocks.toList, l.name ≠ lockName buf) ∧
            if memory then
              r = .ok ⟨s.next, lockName buf⟩ ∧
                s'.userWakeLocks.toList.Perm (⟨s.next, lockName buf⟩ :: s.userWakeLocks.toList)
            else r = .error .ENOMEM ∧ s' = s := by
  have hmade := made_of_trace h
  refine ⟨hmade.ok.pairwise fun x y hx hy hlt => ?_, ?_, fun buf l => ?_,
    fun buf memory r s' hstore => ?_⟩
  · have hiff := (nameDiff_append [] hx hy).1
    rw [append_nil] at hiff
    exact hiff.mpr hlt
  · exact pairwise_map.mpr (hmade.ok.ordered.imp fun hlt => hlt.ne)
  · rw [hmade.ok.wakeUnlockStore_iff, hmade.mem_iff]
    refine and_congr_right fun _ => ?_
    constructor
    · rintro ⟨⟨b, hb, hname⟩, hl⟩
      exact ⟨b, hb, hname.trans hl, hl⟩
    · rintro ⟨b, hb, hname, hl⟩
      exact ⟨⟨b, hb, hname.trans hl.symm⟩, hl⟩
  · have hcases := hmade.ok.wakeLockStore_cases hstore
    grind

/-- The writes "ab", "a" and "ab 1" to `wake_lock`: a name and its first byte are two locks, and the
last write takes the first lock again. "b" is not found. -/
theorem userWakeLocks_map_twoNames : ∃ s : State, Trace Step .init
      [.wakeLock [97, 98, 10] (.ok ⟨0, [97, 98]⟩) true, .wakeLock [97, 10] (.ok ⟨1, [97]⟩) true,
        .wakeLock [97, 98, 32, 49] (.ok ⟨0, [97, 98]⟩) false] s ∧
    s.userWakeLocks.toList = [⟨1, [97]⟩, ⟨0, [97, 98]⟩] ∧
    s.userWakeLocks.toList.Pairwise (fun x y => nameDiff x.name x.name.length y < 0) ∧
    (s.wakeUnlockStore [97, 10]).1 = .ok ⟨1, [97]⟩ ∧
    (s.wakeUnlockStore [97, 98]).1 = .ok ⟨0, [97, 98]⟩ ∧
    (∀ l, (s.wakeUnlockStore [98]).1 ≠ .ok l) ∧
    (s.wakeLockStore [98] false).1 = .error .ENOMEM := by
  let s₁ := (State.init.wakeLockStore [97, 98, 10] true).2
  let s₂ := (s₁.wakeLockStore [97, 10] true).2
  have htrace : Trace Step .init
      [.wakeLock [97, 98, 10] (.ok ⟨0, [97, 98]⟩) true, .wakeLock [97, 10] (.ok ⟨1, [97]⟩) true,
        .wakeLock [97, 98, 32, 49] (.ok ⟨0, [97, 98]⟩) false]
      (s₂.wakeLockStore [97, 98, 32, 49] true).2 :=
    .snoc (.snoc (.snoc .nil (.wakeLock .init _ true rfl)) (.wakeLock s₁ _ true rfl))
      (.wakeLock s₂ _ true rfl)
  obtain ⟨hordered, -, hunlock, hlock⟩ := userWakeLocks_map htrace
  refine ⟨_, htrace, by decide, hordered, ?_, ?_, fun l hl => ?_, ?_⟩
  · exact (hunlock _ _).mpr ⟨by decide, [97, 10], by simp, by decide, by decide⟩
  · exact (hunlock _ _).mpr ⟨by decide, [97, 98, 10], by simp, by decide, by decide⟩
  · obtain ⟨-, b, hb, -, hname⟩ := (hunlock _ l).mp hl
    have hname : l.name = [98] := hname
    simp at hb
    grind
  · obtain ⟨l, hl, hname, -⟩ | ⟨-, herror, -⟩ := hlock [98] false _ _ rfl
    · revert l
      decide
    · exact herror

/-! ## Timeouts -/

/-- A write names a lock, and a numeral of `ns` nanoseconds follows, which fits into 64 bits. -/
structure Asks (buf : List Byte) (ns : Nat) : Prop where
  name : (lockName buf).length ≠ 0
  arg : (argument buf).headD 0 ≠ 0
  number :
    let r := numeralStart (argument buf) 0
    number r.1 (r.2.takeWhile (isDigit r.1)) = ns
  rest :
    let r := numeralStart (argument buf) 0
    ((r.2.dropWhile (isDigit r.1)).dropWhile isspace).headD 0 = 0
  lt : ns < 2 ^ 64

/-- A time in jiffies, rounded up, but at least one. -/
def jiffiesFor (ns : Nat) : Nat := max 1 ((ns + (nsecPerJiffy - 1)) / nsecPerJiffy)

/-- The timeout that is to be set. -/
def timeoutFor (ns : Nat) : Nat := min (jiffiesFor ns) longMax.toNat

/-- The timeout is so many jiffies, of which 32 bits are left. The sum can wrap in 64 bits. -/
theorem Asks.parseTimeout_eq {ns : Nat} (h : Asks buf ns) : parseTimeout buf true =
    some (Int.bmod (if ns + (nsecPerJiffy - 1) < 2 ^ 64 then jiffiesFor ns else 1) (2 ^ 32)) := by
  have hread : simpleStrtoull (argument buf) 0 = (ns, (numeralStart (argument buf) 0).2.dropWhile
      (isDigit (numeralStart (argument buf) 0).1)) := by
    rw [simpleStrtoull, start_zero, strtoLoop_eq, h.number, Nat.mod_eq_of_lt h.lt]
  have hround : (if (ns + (nsecPerJiffy - 1)) % 2 ^ 64 / nsecPerJiffy = 0 then 1
      else (ns + (nsecPerJiffy - 1)) % 2 ^ 64 / nsecPerJiffy) =
      if ns + (nsecPerJiffy - 1) < 2 ^ 64 then jiffiesFor ns else 1 := by
    have hlt := h.lt
    by_cases hsum : ns + (nsecPerJiffy - 1) < 2 ^ 64
    · rw [if_pos hsum, Nat.mod_eq_of_lt hsum, jiffiesFor]
      generalize (ns + (nsecPerJiffy - 1)) / nsecPerJiffy = n
      split_ifs <;> omega
    · have hsmall : (ns + (nsecPerJiffy - 1)) % 2 ^ 64 / nsecPerJiffy = 0 := by
        refine Nat.div_eq_of_lt ?_
        unfold nsecPerJiffy at *
        omega
      rw [if_neg hsum, if_pos hsmall]
  rw [parseTimeout, if_neg h.name]
  dsimp only
  rw [if_pos ⟨rfl, h.arg⟩]
  rw [hread]
  dsimp only
  rw [hround, if_neg (not_not.mpr h.rest), Nat.cast_ite, Nat.cast_one]

/-- What a write to `wake_lock` calls for the lock is decided by the timeout. -/
theorem wakeLockStore_called {timeout : Int} (htimeout : parseTimeout buf true = some timeout)
    (h : s.wakeLockStore buf memory = (.ok l, s')) :
    s'.called l.addr = if timeout ≠ 0 then .wakeLockTimeout timeout else .wakeLock := by
  rw [State.wakeLockStore] at h
  cases hlookup : s.lookupWakeLockName buf true true memory with
  | mk result s₁ =>
    rw [hlookup] at h
    cases result with
    | error e => cases h
    | ok result =>
      have hparse : timeout = result.2 := by
        unfold State.lookupWakeLockName at hlookup
        grind
      cases h
      rw [hparse]
      exact Function.update_self ..

/-- **The lock is taken with the timeout that was asked for**, rounded up and at most `LONG_MAX`, if
and only if this fits into a `long`, or the bits that are cut off leave just `LONG_MAX`. Such a
timeout has not expired. -/
theorem wakeLockStore_timeout_iff {ns : Nat} (h : Asks buf ns)
    (hstore : s.wakeLockStore buf memory = (.ok l, s')) :
    (s'.called l.addr = .wakeLockTimeout (timeoutFor ns) ↔
      ns + (nsecPerJiffy - 1) < 2 ^ 64 ∧
        (jiffiesFor ns < 2 ^ 31 ∨ jiffiesFor ns % 2 ^ 32 = 2 ^ 31 - 1)) ∧
    1 ≤ jiffiesFor ns ∧ ns ≤ jiffiesFor ns * nsecPerJiffy ∧
    ∀ (w : Wakelock.State) id lock, w.locks.get id = some lock → ∃ lock',
      (w.activate id lock (some (timeoutFor ns))).locks.get id = some lock' ∧
        w.timeLeft lock'.expires = timeoutFor ns := by
  have hpos : 1 ≤ jiffiesFor ns := Nat.le_max_left ..
  have hmax : timeoutFor ns = min (jiffiesFor ns) (2 ^ 31 - 1) := rfl
  have hcalled := wakeLockStore_called h.parseTimeout_eq hstore
  refine ⟨?_, hpos, ?_, fun w id lock hlock => ⟨_, Heap.get_set_self hlock, ?_⟩⟩
  · -- a timeout of 0 is none
    have hiff (t : Int) : (if t ≠ 0 then Call.wakeLockTimeout t else .wakeLock) =
        .wakeLockTimeout (timeoutFor ns) ↔ t = timeoutFor ns := by
      split_ifs with hne
      · rw [Call.wakeLockTimeout.injEq]
      · exact iff_of_false (by simp) (by omega)
    rw [hcalled, hiff, Int.bmod_def, hmax]
    by_cases hsum : ns + (nsecPerJiffy - 1) < 2 ^ 64
    · simp only [hsum, true_and, if_true]
      split_ifs <;> omega
    · have hlarge : 2 ^ 31 ≤ jiffiesFor ns := by
        unfold jiffiesFor nsecPerJiffy at *
        omega
      rw [if_neg hsum]
      simp only [hsum, false_and, iff_false]
      split_ifs <;> omega
  · unfold jiffiesFor nsecPerJiffy
    omega
  · change long ((ulong (w.jiffies + (timeoutFor ns : Int)) : Int) - w.jiffies) = _
    rw [long_ulong_add_sub, long_of_mem (by omega) (by omega)]

/-- A write of "a 1". -/
theorem wakeLockStore_timeout_iff_one :
    (State.init.wakeLockStore [97, 32, 49] true).2.called 0 = .wakeLockTimeout 1 :=
  have hasks : Asks [97, 32, 49] 1 := by constructor <;> decide +kernel
  have hstore : State.init.wakeLockStore [97, 32, 49] true =
      (.ok ⟨0, [97]⟩, (State.init.wakeLockStore [97, 32, 49] true).2) := rfl
  (wakeLockStore_timeout_iff hasks hstore).1.mpr (by decide +kernel)

/-- The writes "a 16777216000000000" and "a 8388608000000000". -/
theorem timeout_lost :
    ∃ buf buf', Asks buf 16777216000000000 ∧ Asks buf' 8388608000000000 ∧
      (State.init.wakeLockStore buf true).2.called 0 = .wakeLock ∧
      (State.init.wakeLockStore buf' true).2.called 0 = .wakeLockTimeout (-2 ^ 31) := by
  refine ⟨[97, 32, 49, 54, 55, 55, 55, 50, 49, 54, 48, 48, 48, 48, 48, 48, 48, 48, 48],
    [97, 32, 56, 51, 56, 56, 54, 48, 56, 48, 48, 48, 48, 48, 48, 48, 48, 48], ?_, ?_, ?_, ?_⟩
  · constructor <;> decide +kernel
  · constructor <;> decide +kernel
  · decide +kernel
  · decide +kernel

end AndroidKernel.UserWakelock
