import AndroidKernel.Timer.Expiry

/-!
# The search for the next timer

`__next_timer_interrupt` looks for the earliest timer that is not deferrable, vector by vector. In
each vector it stops at the first bucket with such a timer; it goes on to the next vector only if
a bucket of that one may come round before this bucket.

Times are compared as differences. This is right as long as no two of them are `2 ^ 31` or
more apart, so the search needs to know that no time has passed too long ago.

- `Found`: what is known of the result when some of the vectors have been searched.
- `searchVector_outcome`, `searchVectors_found`, `searchRoot_spec`: one for each loop.
- `nextTimerInterrupt_found`: the result is not after any timer.
- `nextTimerInterrupt_withoutDeferrable`: deferrable timers do not matter.
-/

namespace AndroidKernel.Timer

open List

def nextTimerMaxDelta : Nat := 2 ^ 30 - 1

namespace TvecBase

section Search

variable (timers : Nat → TimerList) (base : TvecBase)

/-- The loop over the first vector, for the remaining `n` buckets: the bucket and the `expires` of
the first timer that it finds. -/
def searchRoot : (n slot : Nat) → Option (Nat × Nat)
  | 0, _ => none
  | n + 1, slot =>
    match (base.vec .tv1 slot).find? fun nte => !(timers nte).deferrable with
    | some nte => some (slot, (timers nte).expires)
    | none => searchRoot n ((slot + 1) % tvrSize)

/-- The loop over the timers of a bucket. -/
def searchBucket : List Nat → (found : Bool) → (expires : Nat) → Bool × Nat
  | [], found, expires => (found, expires)
  | nte :: rest, found, expires =>
    if (timers nte).deferrable then searchBucket rest found expires
    else
      searchBucket rest true
        (if timeBefore (timers nte).expires expires then (timers nte).expires else expires)

/-- What comes of the search in a vector. -/
inductive Search
  | returns (expires : Nat)
  | goesOn (found : Bool) (expires : Nat)

/-- The loop over a vector, for the remaining `n` buckets. -/
def searchVector (tv : Level) (index : Nat) :
    (n slot : Nat) → (found : Bool) → (expires : Nat) → Search
  | 0, _, found, expires => .goesOn found expires
  | n + 1, slot, found, expires =>
    match searchBucket timers (base.vec tv slot) found expires with
    | (true, expires) =>
      if index = 0 ∨ slot < index then .goesOn true expires else .returns expires
    | (false, expires) => searchVector tv index n ((slot + 1) % tvnSize) false expires

/-- The loop over the other vectors. The time has been shifted, so it does not overflow. -/
def searchVectors : List Level → (timerJiffies : Nat) → (found : Bool) → (expires : Nat) → Nat
  | [], _, _, expires => expires
  | tv :: rest, timerJiffies, found, expires =>
    let index := timerJiffies % tvnSize
    match searchVector timers base tv index tvnSize index found expires with
    | .returns expires => expires
    | .goesOn found expires =>
      let timerJiffies := if index = 0 then timerJiffies else timerJiffies + (tvnSize - index)
      searchVectors rest (timerJiffies / 2 ^ tvnBits) found expires

/-- `__next_timer_interrupt`. -/
def nextTimerInterrupt : Nat :=
  let index := base.timerJiffies % tvrSize
  let timerJiffies :=
    if index = 0 then base.timerJiffies
    else ulong ((base.timerJiffies + (tvrSize - index) : Nat) : Int)
  let search := searchVectors timers base [.tv2, .tv3, .tv4, .tv5] (timerJiffies / 2 ^ tvrBits)
  match searchRoot timers base tvrSize index with
  | none => search false (ulong ((base.timerJiffies + nextTimerMaxDelta : Nat) : Int))
  | some (slot, expires) => if index = 0 ∨ slot < index then search true expires else expires

/-- The wheel without its deferrable timers. -/
def withoutDeferrable : TvecBase :=
  { base with vec := fun tv i => (base.vec tv i).filter fun nte => !(timers nte).deferrable }

end Search

/-! ## Deferrable timers -/

section Deferrable

variable (timers : Nat → TimerList) (base : TvecBase)

theorem searchRoot_withoutDeferrable (n slot : Nat) :
    searchRoot timers (base.withoutDeferrable timers) n slot = searchRoot timers base n slot := by
  induction n generalizing slot with
  | zero => rfl
  | succ n ih =>
    have hfind : ((base.withoutDeferrable timers).vec .tv1 slot).find?
        (fun nte => !(timers nte).deferrable) =
        (base.vec .tv1 slot).find? fun nte => !(timers nte).deferrable := by
      show find? _ (filter _ _) = _
      simp
    rw [searchRoot, searchRoot, hfind]
    split
    · rfl
    · exact ih _

theorem searchBucket_filter (l : List Nat) (found : Bool) (expires : Nat) :
    searchBucket timers (l.filter fun nte => !(timers nte).deferrable) found expires =
      searchBucket timers l found expires := by
  induction l generalizing found expires with
  | nil => rfl
  | cons nte rest ih =>
    rw [searchBucket]
    by_cases hdef : (timers nte).deferrable = true
    · rw [if_pos hdef, filter_cons_of_neg (by rw [hdef]; decide), ih]
    · have hkeep : (!(timers nte).deferrable) = true := by
        rw [Bool.eq_false_iff.mpr hdef]
        rfl
      rw [if_neg hdef, filter_cons_of_pos (p := fun nte => !(timers nte).deferrable) hkeep,
        searchBucket, if_neg hdef, ih]

theorem searchVector_withoutDeferrable (tv : Level) (index n slot : Nat) (found : Bool)
    (expires : Nat) :
    searchVector timers (base.withoutDeferrable timers) tv index n slot found expires =
      searchVector timers base tv index n slot found expires := by
  induction n generalizing slot found expires with
  | zero => rfl
  | succ n ih =>
    have hbucket : searchBucket timers ((base.withoutDeferrable timers).vec tv slot) found expires =
        searchBucket timers (base.vec tv slot) found expires := searchBucket_filter ..
    rw [searchVector, searchVector, hbucket]
    split
    · rfl
    · exact ih ..

theorem searchVectors_withoutDeferrable (levels : List Level) (timerJiffies : Nat) (found : Bool)
    (expires : Nat) :
    searchVectors timers (base.withoutDeferrable timers) levels timerJiffies found expires =
      searchVectors timers base levels timerJiffies found expires := by
  induction levels generalizing timerJiffies found expires with
  | nil => rfl
  | cons tv rest ih =>
    rw [searchVectors, searchVectors, searchVector_withoutDeferrable]
    simp only [ih]

/-- Deferrable timers have no influence on the result. -/
theorem nextTimerInterrupt_withoutDeferrable :
    (base.withoutDeferrable timers).nextTimerInterrupt timers = base.nextTimerInterrupt timers := by
  have hjiffies : (base.withoutDeferrable timers).timerJiffies = base.timerJiffies := rfl
  unfold nextTimerInterrupt
  simp only [hjiffies, searchRoot_withoutDeferrable, searchVectors_withoutDeferrable]

end Deferrable

end TvecBase

/-! ## Times -/

/-- The time that `expires` stands for: the one nearest to `now`. -/
def nearest (now expires : Nat) : Int := now + long ((expires : Int) - now)

/-- So long ago, at most, the times of timers have passed when these are added. -/
def recentDelta : Nat := 2 ^ 31 - 2 ^ 26

section Times

variable {now due expires other : Nat}

theorem nearest_lt (now expires : Nat) : nearest now expires < now + 2 ^ 31 := by
  have := long_lt ((expires : Int) - now)
  unfold nearest
  omega

theorem nearest_eq (h : due < now + 2 ^ 31) (hle : now ≤ due) :
    nearest now (due % 2 ^ 32) = due := by
  unfold nearest long
  omega

/-- The time of a timer is the one that it is due at, or it has passed. -/
theorem nearest_le (h : Tells now due expires) (hle : now ≤ due) : nearest now expires ≤ due := by
  obtain ⟨-, hnear, rfl | ⟨rfl, hpast⟩⟩ := h
  · exact le_of_eq (nearest_eq hnear hle)
  · unfold nearest
    omega

/-- On a window of less than `2 ^ 31` the comparison of times is right. -/
theorem timeBefore_iff {lo : Int} (h : lo ≤ nearest now expires ∧ nearest now expires < lo + 2 ^ 31)
    (h' : lo ≤ nearest now other ∧ nearest now other < lo + 2 ^ 31) :
    timeBefore expires other ↔ nearest now expires < nearest now other := by
  unfold nearest at *
  unfold timeBefore
  unfold long at *
  omega

theorem nearest_max (now : Nat) :
    nearest now (ulong ((now % 2 ^ 32 + nextTimerMaxDelta : Nat) : Int)) = now +
      nextTimerMaxDelta := by
  unfold nearest long ulong nextTimerMaxDelta
  omega

end Times

/-! ## What a search finds -/

/-- A timer in a bucket that is not deferrable. -/
def TvecBase.Live (timers : Nat → TimerList) (base : TvecBase) (tv : Level) (i u : Nat) : Prop :=
  u ∈ base.vec tv i ∧ (timers u).deferrable = false

/-- What the search needs to know of the wheel. -/
structure Searchable (timers : Nat → TimerList) (base : TvecBase) (now : Nat) (due : Nat → Nat) :
    Prop where
  placed : ∀ tv i u, base.Live timers tv i u → tv.Placed now i (due u)
  tells : ∀ tv i u, base.Live timers tv i u → tv.Tells now (due u) (timers u).expires
  recent : ∀ tv i u, base.Live timers tv i u →
    (now : Int) - recentDelta ≤ nearest now (timers u).expires

namespace TvecBase

variable {timers : Nat → TimerList} {base : TvecBase} {now : Nat} {due : Nat → Nat}

/-- What has been found in the vectors that are done. -/
structure Found (timers : Nat → TimerList) (base : TvecBase) (now : Nat) (due : Nat → Nat)
    (done : Level → Prop) (expires : Nat) : Prop where
  max : nearest now expires ≤ now + nextTimerMaxDelta
  recent : (now : Int) - recentDelta ≤ nearest now expires
  least : ∀ tv i u, done tv → base.Live timers tv i u → nearest now expires ≤ due u
  source : expires = ulong ((now % 2 ^ 32 + nextTimerMaxDelta : Nat) : Int) ∨
    ∃ tv i u, base.Live timers tv i u ∧ expires = (timers u).expires

/-- What the loop over a bucket comes to: the earliest of its timers and what was found before. -/
structure BucketFound (timers : Nat → TimerList) (l : List Nat) (now : Nat) (found : Bool)
    (expires : Nat) (r : Bool × Nat) : Prop where
  found : r.1 = true ↔ found = true ∨ ∃ u ∈ l, (timers u).deferrable = false
  le : nearest now r.2 ≤ nearest now expires
  least : ∀ u ∈ l, (timers u).deferrable = false → nearest now r.2 ≤ nearest now (timers u).expires
  source : r.2 = expires ∨ ∃ u ∈ l, (timers u).deferrable = false ∧ r.2 = (timers u).expires

theorem searchBucket_found {l : List Nat} {found : Bool} {expires : Nat} {lo : Int}
    (hwindow : ∀ u ∈ l, (timers u).deferrable = false →
      lo ≤ nearest now (timers u).expires ∧ nearest now (timers u).expires < lo + 2 ^ 31)
    (hexpires : lo ≤ nearest now expires ∧ nearest now expires < lo + 2 ^ 31) :
    BucketFound timers l now found expires (searchBucket timers l found expires) := by
  induction l generalizing found expires with
  | nil => exact ⟨by simp [searchBucket], le_rfl, nofun, .inl rfl⟩
  | cons nte rest ih =>
    have hrest := fun u hu => hwindow u (mem_cons_of_mem nte hu)
    rw [searchBucket]
    split
    next hdef =>
      have hnot : ¬(timers nte).deferrable = false := by
        rw [hdef]
        exact nofun
      obtain ⟨hfound, hle, hleast, hsource⟩ := @ih found expires hrest hexpires
      refine ⟨?_, hle, ?_, ?_⟩
      · rw [hfound]
        simp [hdef]
      · exact forall_mem_cons.mpr ⟨fun h => absurd h hnot, hleast⟩
      · refine hsource.imp_right fun ⟨u, hu, h⟩ => ⟨u, mem_cons_of_mem nte hu, h⟩
    next hdef =>
      have hdef := Bool.eq_false_iff.mpr hdef
      have hnte := hwindow nte mem_cons_self hdef
      have hbefore := timeBefore_iff hnte hexpires
      -- The earlier of the two is what is compared with the rest.
      generalize hmin : (if timeBefore (timers nte).expires expires then (timers nte).expires
        else expires) = e
      have he : (e = expires ∨ e = (timers nte).expires) ∧ nearest now e ≤ nearest now expires ∧
          nearest now e ≤ nearest now (timers nte).expires := by
        rw [← hmin]
        split
        next h => exact ⟨.inr rfl, (hbefore.mp h).le, le_rfl⟩
        next h => exact ⟨.inl rfl, le_rfl, not_lt.mp fun hlt => h (hbefore.mpr hlt)⟩
      obtain ⟨hor, hle₁, hle₂⟩ := he
      have hwin : lo ≤ nearest now e ∧ nearest now e < lo + 2 ^ 31 := by
        rcases hor with rfl | rfl
        · exact hexpires
        · exact hnte
      obtain ⟨hfound, hle, hleast, hsource⟩ := @ih true e hrest hwin
      refine ⟨?_, hle.trans hle₁, ?_, ?_⟩
      · rw [hfound]
        simp [hdef]
      · exact forall_mem_cons.mpr ⟨fun _ => hle.trans hle₂, hleast⟩
      · rcases hsource with hr | ⟨u, hu, h⟩
        · rcases hor with rfl | rfl
          · exact .inl hr
          · exact .inr ⟨nte, mem_cons_self, hdef, hr⟩
        · exact .inr ⟨u, mem_cons_of_mem nte hu, h⟩

/-! ## A vector -/

variable {tv : Level} {next : Nat} {done : Level → Prop}

/-- What comes of the search in a vector. If it returns, no bucket of later vectors comes round
before the time that was found. If it goes on after a timer was found, this is due before the
second bucket of the next vector comes round. -/
def Outcome (timers : Nat → TimerList) (base : TvecBase) (now : Nat) (due : Nat → Nat)
    (done : Level → Prop) (tv : Level) (next : Nat) : Search → Prop
  | .returns expires => Found timers base now due (fun l => done l ∨ l = tv) expires ∧
      nearest now expires < Wheel.up tv.shift tvnBits next
  | .goesOn found expires => Found timers base now due (fun l => done l ∨ l = tv) expires ∧
      (found = true →
        nearest now expires < (Wheel.up tv.shift tvnBits next + 2 ^ (tv.shift + tvnBits) : Nat)) ∧
      (nearest now expires < now → found = true ∧ Wheel.up tv.shift tvnBits next = now)

theorem bits_of_ne (htv : tv ≠ .tv1) : tv.bits = tvnBits := by
  cases tv with
  | tv1 => exact absurd rfl htv
  | _ => rfl

variable {u j slot expires : Nat}

/-- The search has come to the bucket `j`: those before it have no timers that count. -/
def Passed (timers : Nat → TimerList) (base : TvecBase) (due : Nat → Nat) (tv : Level)
    (next j : Nat) : Prop :=
  ∀ i u, base.Live timers tv i u → ∃ j', j ≤ j' ∧ j' < tvnSize ∧
    i = (Wheel.slot tv.shift tvnBits next + j') % tvnSize ∧
    next + j' * 2 ^ tv.shift ≤ due u ∧ due u < next + (j' + 1) * 2 ^ tv.shift

/-- The buckets of a vector are all different. -/
theorem round_unique {index j' : Nat} (hj : j < tvnSize) (hj' : j' < tvnSize)
    (h : (index + j) % tvnSize = (index + j') % tvnSize) : j' = j :=
  (Nat.ModEq.eq_of_lt_of_lt (Nat.ModEq.add_left_cancel' index h) hj hj').symm

theorem Passed.lt_of_mem (h : Passed timers base due tv next j) (hj : j < tvnSize)
    (hslot : slot = (Wheel.slot tv.shift tvnBits next + j) % tvnSize)
    (hu : base.Live timers tv slot u) : due u < next + (j + 1) * 2 ^ tv.shift := by
  obtain ⟨j', -, hj', hi, -, hlt⟩ := h slot u hu
  rwa [round_unique hj hj' (hslot.symm.trans hi)] at hlt

/-- What was found before, with the timers of one more bucket. -/
theorem Found.bucket (hs : Searchable timers base now due) {found : Bool} {r : Bool × Nat}
    (h : Found timers base now due done expires)
    (hr : BucketFound timers (base.vec tv slot) now found expires r) : Found timers base now due
    done r.2 where
  max := hr.le.trans h.max
  recent := by
    rcases hr.source with heq | ⟨u, hu, hdef, heq⟩
    · rw [heq]
      exact h.recent
    · rw [heq]
      exact hs.recent tv slot u ⟨hu, hdef⟩
  least tv' i u hdone hu := hr.le.trans (h.least tv' i u hdone hu)
  source := by
    rcases hr.source with heq | ⟨u, hu, hdef, heq⟩
    · rw [heq]
      exact h.source
    · exact .inr ⟨tv, slot, u, ⟨hu, hdef⟩, heq⟩

theorem Found.union (h : Found timers base now due done expires) {m : Level → Prop}
    (hleast : ∀ l i u, m l → base.Live timers l i u → nearest now expires ≤ due u) :
    Found timers base now due (fun l => done l ∨ m l) expires :=
  { h with
    least := fun l i u hdone hu => hdone.elim (h.least l i u · hu) (hleast l i u · hu) }

variable {found : Bool} (hs : Searchable timers base now due)
  (hfound : Found timers base now due done expires)
  (hnear : found = true → nearest now expires < (next + 2 ^ tv.shift : Nat))
  (hearly : nearest now expires < now → found = true ∧ next = now)

section

variable (htv : tv ≠ .tv1)

include hs htv

/-- The timers of a later vector have not passed. -/
theorem nearest_of_live {i : Nat} (hu : base.Live timers tv i u) :
    nearest now (timers u).expires = due u ∧ now ≤ due u ∧ due u < now + 2 ^ 31 := by
  have hle := (hs.placed tv i u hu).le
  obtain ⟨htells, hlevel⟩ := hs.tells tv i u hu
  rw [hlevel.resolve_left htv]
  exact ⟨nearest_eq htells.2.1 hle, hle, htells.2.1⟩

include hfound hearly in
/-- The timers of a bucket and what was found before can be compared. -/
theorem exists_window (hj : j < tvnSize) (hfirst : found = true → j = 0)
    (hslot : slot = (Wheel.slot tv.shift tvnBits next + j) % tvnSize)
    (hpassed : Passed timers base due tv next j) :
    ∃ lo : Int, (∀ u ∈ base.vec tv slot, (timers u).deferrable = false →
      lo ≤ nearest now (timers u).expires ∧ nearest now (timers u).expires < lo + 2 ^ 31) ∧
      lo ≤ nearest now expires ∧ nearest now expires < lo + 2 ^ 31 := by
  have hrecent := hfound.recent
  by_cases hpast : nearest now expires < now
  · -- Then only the bucket that comes round now is looked at.
    obtain ⟨hf, rfl⟩ := hearly hpast
    cases hfirst hf
    have hwidth : 2 ^ tv.shift ≤ 2 ^ 26 := Nat.pow_le_pow_right (by decide) (by cases tv <;> decide)
    refine ⟨(next : Int) - recentDelta, fun u hu hdef => ?_, hrecent, ?_⟩
    · obtain ⟨heq, hle, -⟩ := nearest_of_live hs htv ⟨hu, hdef⟩
      have hlt := hpassed.lt_of_mem hj hslot ⟨hu, hdef⟩
      simp only [recentDelta] at *
      omega
    · unfold recentDelta
      omega
  · refine ⟨now, fun u hu hdef => ?_, not_lt.mp hpast, nearest_lt now expires⟩
    obtain ⟨heq, hle, hlt⟩ := nearest_of_live hs htv ⟨hu, hdef⟩
    omega

variable (hnext : Wheel.Next tv.shift now next)

include hnext

/-- The buckets of a later vector come round in the order of the search, and their timers are due
before the one after them does. -/
theorem passed_zero : Passed timers base due tv next 0 := by
  intro i u hu
  have hplaced := hs.placed tv i u hu
  rw [Level.Placed, bits_of_ne htv] at hplaced
  obtain ⟨j, hj, hturn, hi⟩ := hnext.exists_round hplaced
  refine ⟨j, Nat.zero_le j, hj, hi, ?_, ?_⟩
  · rw [← hturn]
    exact Wheel.turn_le ..
  · rw [Nat.succ_mul, ← add_assoc, ← hturn]
    exact Wheel.lt_turn_add ..

include hfound hnear hearly

/-- The search in a vector, from the bucket `j` on. -/
theorem searchVector_outcome {n : Nat} (hn : n + j = tvnSize)
    (hslot : slot = (Wheel.slot tv.shift tvnBits next + j) % tvnSize)
    (hpassed : Passed timers base due tv next j) (hfirst : found = true → j = 0) :
    Outcome timers base now due done tv next
      (searchVector timers base tv (Wheel.slot tv.shift tvnBits next) n slot found expires) := by
  induction n generalizing j slot found expires with
  | zero =>
    -- The vector has no timers that count.
    have hempty : found ≠ true := fun hf => by
      have := hfirst hf
      have : 0 < tvnSize := by decide
      omega
    refine ⟨hfound.union fun l i u hl hu => ?_, fun hf => absurd hf hempty,
      fun hpast => absurd (hearly hpast).1 hempty⟩
    subst hl
    obtain ⟨j', hle, hlt, -⟩ := hpassed i u hu
    omega
  | succ n ih =>
    have hj : j < tvnSize := by omega
    have hindex : Wheel.slot tv.shift tvnBits next < tvnSize := Nat.mod_lt _ (by decide)
    obtain ⟨lo, hwindow, hexpires⟩ :=
      exists_window hs hfound hearly htv hj hfirst hslot hpassed
    have hbucket :=
      @searchBucket_found timers now (base.vec tv slot) found expires lo hwindow hexpires
    rw [searchVector]
    generalize searchBucket timers (base.vec tv slot) found expires = r at hbucket
    have hfound' := hfound.bucket hs hbucket
    -- A timer is in this bucket or in a later one.
    have hsplit : ∀ i u, base.Live timers tv i u →
        u ∈ base.vec tv slot ∨ next + (j + 1) * 2 ^ tv.shift ≤ due u := fun i u hu => by
      obtain ⟨j', hle, -, hi, hdue, -⟩ := hpassed i u hu
      rcases hle.eq_or_lt with rfl | hlt
      · rw [hslot, ← hi]
        exact .inl hu.1
      · exact .inr ((Nat.add_le_add_left (Nat.mul_le_mul_right _ hlt) next).trans hdue)
    obtain ⟨f, e⟩ := r
    cases f with
    | true =>
      -- What has been found is due before the next bucket comes round.
      have hbound : nearest now e < (next + (j + 1) * 2 ^ tv.shift : Nat) := by
        rcases hbucket.found.mp rfl with hf | ⟨u, hu, hdef⟩
        · have := hnear hf
          have := hbucket.le
          cases hfirst hf
          simp only [zero_add] at *
          omega
        · have hle := hbucket.least u hu hdef
          rw [(nearest_of_live hs htv ⟨hu, hdef⟩).1] at hle
          exact hle.trans_lt (Int.ofNat_lt.mpr (hpassed.lt_of_mem hj hslot ⟨hu, hdef⟩))
      have hfound' := hfound'.union (m := (· = tv)) fun l i u hl hu => by
        subst hl
        rcases hsplit i u hu with hmem | hlater
        · have hle := hbucket.least u hmem hu.2
          rwa [(nearest_of_live hs htv hu).1] at hle
        · have : nearest now e < due u := hbound.trans_le (Int.ofNat_le.mpr hlater)
          exact this.le
      simp only
      split
      next hcascade =>
        refine ⟨hfound', fun _ => ?_, fun hpast => ⟨rfl, ?_⟩⟩
        · refine hbound.trans_le (Int.ofNat_le.mpr ?_)
          rw [pow_add, mul_comm (2 ^ tv.shift)]
          exact Nat.add_le_add hnext.le_up (Nat.mul_le_mul_right _ hj)
        · -- It had passed before, so this is the bucket that comes round now.
          have hsame : e = expires := hbucket.source.resolve_right fun ⟨u, hu, hdef, heq⟩ => by
            obtain ⟨heq', hle, -⟩ := nearest_of_live hs htv ⟨hu, hdef⟩
            simp only at heq
            rw [heq] at hpast
            omega
          obtain ⟨hf, hnow⟩ := hearly (hsame ▸ hpast)
          cases hfirst hf
          rw [add_zero, Nat.mod_eq_of_lt hindex] at hslot
          rw [hnext.up_eq (hcascade.resolve_right (by omega)), hnow]
      next hstop =>
        obtain ⟨hzero, hwrap⟩ := not_or.mp hstop
        refine ⟨hfound', hbound.trans_le (Int.ofNat_le.mpr ?_)⟩
        rw [hnext.up_eq_add hzero]
        refine Nat.add_le_add_left (Nat.mul_le_mul_right _ ?_) next
        have hsize : tvnSize = 64 := rfl
        have hpow : 2 ^ tvnBits = 64 := rfl
        rw [hsize] at hslot
        omega
    | false =>
      -- Nothing has been found yet, and this bucket has no timers that count either.
      have hnone : ¬(found = true ∨ ∃ u ∈ base.vec tv slot, (timers u).deferrable = false) :=
        fun h => Bool.false_ne_true (hbucket.found.mpr h)
      obtain ⟨hnotfound, hempty⟩ := not_or.mp hnone
      have hsame : e = expires := hbucket.source.resolve_right fun ⟨u, hu, hdef, _⟩ =>
        hempty ⟨u, hu, hdef⟩
      refine @ih (j + 1) ((slot + 1) % tvnSize) e false hfound' nofun
        (fun hpast => absurd (hearly (hsame ▸ hpast)).1 hnotfound) (by omega) ?_ (fun i u hu => ?_)
        nofun
      · rw [hslot, Nat.mod_add_mod, add_assoc]
      · obtain ⟨j', hle, hlt, hi, hdue⟩ := hpassed i u hu
        refine ⟨j', Nat.lt_of_le_of_ne hle fun heq => hempty ⟨u, ?_, hu.2⟩, hlt, hi, hdue⟩
        rw [hslot, heq, ← hi]
        exact hu.1

/-- The search in a whole vector. -/
theorem searchVector_whole : Outcome timers base now due done tv next
      (searchVector timers base tv (Wheel.slot tv.shift tvnBits next) tvnSize
        (Wheel.slot tv.shift tvnBits next) found expires) := by
  have hslot : Wheel.slot tv.shift tvnBits next =
      (Wheel.slot tv.shift tvnBits next + 0) % tvnSize :=
    (Nat.mod_eq_of_lt (Nat.mod_lt _ (by decide))).symm
  exact searchVector_outcome hs hfound hnear hearly htv hnext (add_zero tvnSize) hslot
    (passed_zero hs htv hnext) fun _ => rfl

end

/-! ## All vectors -/

/-- The lower bits of the time that `__next_timer_interrupt` has for a vector. -/
def Knows (tv : Level) (next timerJiffies : Nat) : Prop :=
  timerJiffies % 2 ^ (32 - tv.shift) = next / 2 ^ tv.shift % 2 ^ (32 - tv.shift)

section

variable {timerJiffies : Nat} (h : Knows tv next timerJiffies) (hshift : tv.shift + tvnBits ≤ 32)

include h hshift

theorem Knows.index : timerJiffies % tvnSize = Wheel.slot tv.shift tvnBits next := by
  have hdvd : tvnSize ∣ 2 ^ (32 - tv.shift) := pow_dvd_pow 2 (by omega)
  rw [← Nat.mod_mod_of_dvd _ hdvd, h]
  exact Nat.mod_mod_of_dvd _ hdvd

/-- Rounded up and shifted, they are those for the next vector. -/
theorem Knows.up {tv' : Level} (htv' : tv'.shift = tv.shift + tvnBits) :
    Knows tv' (Wheel.up tv.shift tvnBits next) (Wheel.ceil tvnBits timerJiffies / 2 ^ tvnBits) := by
  have hwidth : 32 - tv.shift = tvnBits + (32 - (tv.shift + tvnBits)) := by omega
  have hup : Wheel.up tv.shift tvnBits next / 2 ^ (tv.shift + tvnBits) =
      Wheel.ceil tvnBits (next / 2 ^ tv.shift) / 2 ^ tvnBits := by
    rw [Wheel.up, pow_add, mul_comm (Wheel.ceil ..),
      Nat.mul_div_mul_left _ _ (Nat.two_pow_pos _)]
  rw [Knows, hwidth] at h
  rw [Knows, htv', hup]
  exact Wheel.ceil_div_mod h

end

theorem Found.mono {expires : Nat} (h : Found timers base now due done expires)
    {done' : Level → Prop} (hmono : ∀ l, done' l → done l) :
    Found timers base now due done' expires :=
  { h with least := fun l i u hdone hu => h.least l i u (hmono l hdone) hu }

/-- The time that the search has for the second vector. -/
theorem knows_tv2 (now : Nat) : Knows .tv2 (Wheel.up 0 tvrBits now)
      ((if now % 2 ^ 32 % tvrSize = 0 then now % 2 ^ 32
        else ulong ((now % 2 ^ 32 + (tvrSize - now % 2 ^ 32 % tvrSize) : Nat) : Int)) /
          2 ^ tvrBits) := by
  have hup : Wheel.up 0 tvrBits now = Wheel.ceil tvrBits now := by
    rw [Wheel.up, pow_zero, mul_one, Nat.div_one]
  have hceil : (if now % 2 ^ 32 % tvrSize = 0 then now % 2 ^ 32
      else ulong ((now % 2 ^ 32 + (tvrSize - now % 2 ^ 32 % tvrSize) : Nat) : Int)) =
      Wheel.ceil tvrBits (now % 2 ^ 32) % 2 ^ (tvrBits + 24) := by
    unfold Wheel.ceil
    split
    next h =>
      have h : now % 2 ^ 32 % 2 ^ tvrBits = 0 := h
      rw [if_pos h]
      exact (Nat.mod_mod ..).symm
    next h =>
      have h : ¬now % 2 ^ 32 % 2 ^ tvrBits = 0 := h
      rw [if_neg h]
      rfl
  have hmod : now % 2 ^ 32 % 2 ^ (tvrBits + 24) = now % 2 ^ (tvrBits + 24) := Nat.mod_mod ..
  rw [hceil, hup]
  show _ % 2 ^ 24 = Wheel.ceil tvrBits now / 2 ^ tvrBits % 2 ^ 24
  rw [← Wheel.ceil_div_mod hmod, pow_add, Nat.mod_mul_right_div_self, Nat.mod_mod]

section

include hs

/-- No timer of the later vectors is due before they turn. -/
theorem Found.append {shift bits : Nat} (hnext : Wheel.Next shift now next) {levels : List Level}
    (hfar : ∀ l ∈ levels, shift + bits ≤ l.shift) {expires : Nat}
    (h : Found timers base now due done expires)
    (hlt : nearest now expires < Wheel.up shift bits next) : Found timers base now due
    (fun l => done l ∨ l ∈ levels) expires :=
  h.union fun l i u hmem hu => by
    have hdvd : 2 ^ (shift + bits) ∣ Wheel.turn l.shift (due u) :=
      (pow_dvd_pow 2 (hfar l hmem)).trans (Wheel.dvd_turn ..)
    have hup := hnext.up.le_of_dvd hdvd (hs.placed l i u hu).ahead
    have hdue := hup.trans (Wheel.turn_le ..)
    exact (hlt.trans_le (Int.ofNat_le.mpr hdue)).le

include hfound hnear hearly in
/-- The search from a vector on. -/
theorem searchVectors_found {rest : List Level}
    (hlevels : ∀ l ∈ tv :: rest, l ≠ .tv1 ∧ l.shift + tvnBits ≤ 32)
    (hchain : (tv :: rest).IsChain fun l l' => l'.shift = l.shift + tvnBits)
    (hfar : (tv :: rest).Pairwise fun l l' => l.shift + tvnBits ≤ l'.shift)
    (hnext : Wheel.Next tv.shift now next) {timerJiffies : Nat} (hj : Knows tv next timerJiffies) :
    Found timers base now due (fun l => done l ∨ l ∈ tv :: rest)
      (searchVectors timers base (tv :: rest) timerJiffies found expires) := by
  induction rest generalizing tv next timerJiffies done found expires with
  | nil =>
    obtain ⟨htv, hshift⟩ := hlevels tv mem_cons_self
    have hout := searchVector_whole hs hfound hnear hearly htv hnext
    rw [searchVectors, hj.index hshift]
    generalize searchVector timers base tv _ _ _ found expires = r at hout
    have hmono : ∀ l, done l ∨ l ∈ [tv] → done l ∨ l = tv := fun l hl =>
      hl.imp_right mem_singleton.mp
    cases r with
    | returns e | goesOn f e => exact hout.1.mono hmono
  | cons tv' rest ih =>
    obtain ⟨htv, hshift⟩ := hlevels tv mem_cons_self
    obtain ⟨hstep, hchain⟩ := isChain_cons_cons.mp hchain
    obtain ⟨hbehind, hfar⟩ := pairwise_cons.mp hfar
    have hout := searchVector_whole hs hfound hnear hearly htv hnext
    rw [searchVectors, hj.index hshift]
    generalize searchVector timers base tv _ _ _ found expires = r at hout
    have hmono : ∀ l, done l ∨ l ∈ tv :: tv' :: rest → (done l ∨ l = tv) ∨ l ∈ tv' :: rest :=
      fun l hl => by rwa [mem_cons, ← or_assoc] at hl
    cases r with
    | returns e => exact (hout.1.append hs hnext hbehind hout.2).mono hmono
    | goesOn f e =>
      obtain ⟨hfound, hnear, hearly⟩ := hout
      have hknows := hj.up hshift hstep
      have hnext' : Wheel.Next tv'.shift now (Wheel.up tv.shift tvnBits next) := by
        rw [hstep]
        exact hnext.up
      rw [← hstep] at hnear
      have hrest := ih hfound hnear hearly (fun l hl => hlevels l (mem_cons_of_mem tv hl)) hchain
        hfar hnext' hknows
      simp only [← hj.index hshift]
      exact hrest.mono hmono

/-! ## The first vector -/

/-- A timer of the first vector is due when its bucket comes round. -/
theorem round_of_live_tv1 {i u : Nat} (hu : base.Live timers .tv1 i u) :
    ∃ j < tvrSize, i = (now + j) % tvrSize ∧ due u = now + j := by
  obtain ⟨j, hj, hturn, hi⟩ := (Wheel.next_zero now).exists_round (hs.placed .tv1 i u hu)
  refine ⟨j, hj, ?_, ?_⟩
  · rw [hi, Wheel.slot, pow_zero, Nat.div_one]
    exact Nat.mod_add_mod ..
  · rw [← Wheel.turn_zero (due u)]
    exact hturn.trans (by rw [pow_zero, mul_one])

/-- The search in the first vector, from the bucket `j` on. The first timer that is found is one of
the earliest. -/
theorem searchRoot_spec {n j slot : Nat} (hn : n + j = tvrSize) (hslot : slot = (now + j) % tvrSize)
    (hpassed : ∀ i u, base.Live timers .tv1 i u → now + j ≤ due u) :
    (searchRoot timers base n slot = none → ∀ i u, ¬base.Live timers .tv1 i u) ∧
    (∀ slot' expires, searchRoot timers base n slot = some (slot', expires) →
      ∃ j' u, j ≤ j' ∧ j' < tvrSize ∧ slot' = (now + j') % tvrSize ∧ base.Live timers .tv1 slot' u ∧
        expires = (timers u).expires ∧ due u = now + j' ∧
        ∀ i v, base.Live timers .tv1 i v → now + j' ≤ due v) := by
  induction n generalizing j slot with
  | zero =>
    refine ⟨fun _ i u hu => ?_, nofun⟩
    obtain ⟨j', hj', -, hdue⟩ := round_of_live_tv1 hs hu
    have := hpassed i u hu
    omega
  | succ n ih =>
    rw [searchRoot]
    split
    next u hfind =>
      have hdef : (timers u).deferrable = false := by
        have := find?_some hfind
        exact Bool.not_eq_true' _ ▸ this
      have hu : base.Live timers .tv1 slot u := ⟨mem_of_find?_eq_some hfind, hdef⟩
      refine ⟨nofun, fun slot' expires hsome => ?_⟩
      cases hsome
      obtain ⟨j', hj', hi, hdue⟩ := round_of_live_tv1 hs hu
      have hsame : j' = j := (Nat.ModEq.eq_of_lt_of_lt
        (Nat.ModEq.add_left_cancel' now (hslot.symm.trans hi)) (by omega) hj').symm
      subst hsame
      exact ⟨j', u, le_rfl, hj', hslot, hu, rfl, hdue, hpassed⟩
    next hfind =>
      have hnone : ∀ u ∈ base.vec .tv1 slot, ¬(timers u).deferrable = false := fun u hu hdef => by
        have := find?_eq_none.mp hfind u hu
        rw [hdef] at this
        exact this rfl
      have hpassed' : ∀ i u, base.Live timers .tv1 i u → now + (j + 1) ≤ due u := fun i u hu => by
        obtain ⟨j', hj', hi, hdue⟩ := round_of_live_tv1 hs hu
        have hle := hpassed i u hu
        have hne : j' ≠ j := fun heq => hnone u (by rw [hslot, ← heq, ← hi]; exact hu.1) hu.2
        omega
      have hslot' : (slot + 1) % tvrSize = (now + (j + 1)) % tvrSize := by
        rw [hslot, Nat.mod_add_mod, add_assoc]
      obtain ⟨hno, hyes⟩ := ih (by omega) hslot' hpassed'
      refine ⟨hno, fun slot' expires hsome => ?_⟩
      obtain ⟨j', u, hle, h⟩ := hyes slot' expires hsome
      exact ⟨j', u, by omega, h⟩

/-- What is found in the first vector. -/
theorem found_root {j slot u : Nat} (hj : j < tvrSize) (hu : base.Live timers .tv1 slot u)
    (hdue : due u = now + j) (hleast : ∀ i v, base.Live timers .tv1 i v → now + j ≤ due v) :
    Found timers base now due (fun l => l = .tv1) (timers u).expires ∧
      nearest now (timers u).expires ≤ (now + j : Nat) ∧
      (nearest now (timers u).expires < now → j = 0) := by
  have hle := (hs.placed .tv1 slot u hu).le
  obtain ⟨⟨hexpires, hnear, htells⟩, -⟩ := hs.tells .tv1 slot u hu
  have hnearest : nearest now (timers u).expires ≤ due u := nearest_le ⟨hexpires, hnear, htells⟩ hle
  rw [hdue] at hnearest
  have hsize : tvrSize = 256 := rfl
  refine ⟨⟨?_, hs.recent .tv1 slot u hu, ?_, .inr ⟨.tv1, slot, u, hu, rfl⟩⟩, hnearest,
    fun hpast => ?_⟩
  · have : nextTimerMaxDelta = 2 ^ 30 - 1 := rfl
    omega
  · rintro tv i v rfl hv
    exact hnearest.trans (Int.ofNat_le.mpr (hleast i v hv))
  · rcases htells with heq | ⟨hnow, -⟩
    · rw [heq, nearest_eq hnear hle] at hpast
      omega
    · omega

/-- `__next_timer_interrupt` finds the earliest timer. -/
theorem nextTimerInterrupt_found (hjiffies : base.timerJiffies = now % 2 ^ 32) :
    Found timers base now due (fun _ => True) (base.nextTimerInterrupt timers) := by
  have hlevels : ∀ l : Level, True → l = .tv1 ∨ l ∈ [Level.tv2, .tv3, .tv4, .tv5] := fun l _ => by
    cases l <;> simp
  have hroot := Wheel.next_zero now
  have hnext : Wheel.Next Level.tv2.shift now (Wheel.up 0 tvrBits now) := by
    have := @Wheel.Next.up 0 tvrBits now now hroot
    rwa [zero_add] at this
  have hindex : base.timerJiffies % tvrSize = Wheel.slot 0 tvrBits now := by
    rw [hjiffies, Wheel.slot, pow_zero, Nat.div_one]
    exact Nat.mod_mod_of_dvd _ (by decide)
  have hknows := knows_tv2 now
  rw [← hjiffies] at hknows
  have hsearch := fun found expires hfound hnear hearly => @searchVectors_found timers base now due
    .tv2 (Wheel.up 0 tvrBits now) (fun l => l = .tv1) expires found hs hfound hnear hearly
    [.tv3, .tv4, .tv5] (by decide) (by decide) (by decide) hnext _ hknows
  have hslot : base.timerJiffies % tvrSize = (now + 0) % tvrSize := by
    rw [hjiffies]
    exact Nat.mod_mod_of_dvd _ (by decide)
  obtain ⟨hnone, hsome⟩ := searchRoot_spec hs (add_zero tvrSize) hslot
    fun i u hu => (hs.placed .tv1 i u hu).le
  unfold nextTimerInterrupt
  simp only
  split
  next hempty =>
    -- The first vector has no timers that count.
    have hmax := nearest_max now
    rw [← hjiffies] at hmax
    have hfound : Found timers base now due (fun l => l = .tv1)
        (ulong ((base.timerJiffies + nextTimerMaxDelta : Nat) : Int)) := by
      refine ⟨le_of_eq hmax, ?_, ?_, .inl (by rw [hjiffies])⟩
      · rw [hmax]
        omega
      · rintro tv i u rfl hu
        exact absurd hu (hnone hempty i u)
    refine (hsearch false _ hfound (by simp) fun hpast => ?_).mono hlevels
    omega
  next slot expires hfind =>
    obtain ⟨j, u, -, hj, hslot', hu, rfl, hdue, hleast⟩ := hsome slot expires hfind
    obtain ⟨hfound, hle, hearly⟩ := found_root hs hj hu hdue hleast
    have hsize : tvrSize = 256 := rfl
    split
    next hcascade =>
      refine (hsearch true _ hfound (fun _ => ?_) fun hpast => ⟨rfl, ?_⟩).mono hlevels
      · have hup := @Wheel.Next.le_up 0 tvrBits now now hroot
        have hpow : 2 ^ Level.tv2.shift = 256 := rfl
        omega
      · cases hearly hpast
        rw [← hslot] at hslot'
        rw [hslot'] at hcascade
        exact hroot.up_eq (hindex ▸ hcascade.resolve_right (lt_irrefl _))
    next hstop =>
      -- The bucket comes round before the second vector turns.
      obtain ⟨hzero, hwrap⟩ := not_or.mp hstop
      have hslot₀ : Wheel.slot 0 tvrBits now = now % 256 := by
        rw [Wheel.slot, pow_zero, Nat.div_one]
        rfl
      have hlt : nearest now (timers u).expires < Wheel.up 0 tvrBits now := by
        have hpow : 2 ^ tvrBits = 256 := rfl
        rw [hindex] at hzero
        rw [hsize] at hslot'
        rw [hroot.up_eq_add hzero]
        omega
      have hfar : ∀ l ∈ [Level.tv2, .tv3, .tv4, .tv5], 0 + tvrBits ≤ l.shift := by decide
      exact (hfound.append hs hroot hfar hlt).mono hlevels

end

end TvecBase

end AndroidKernel.Timer
