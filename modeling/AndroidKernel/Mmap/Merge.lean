import AndroidKernel.Mmap.Munmap

/-!
# Merging

Two areas map alike if they have the same file, the same flags and the same `bias`: the page that
they would map at the address zero. A request has such a `kind` too, and `vma_merge` extends only
areas of that kind. It does not compare `VM_CAN_NONLINEAR`, which the `mmap` call of a file may set
later.
-/

namespace AndroidKernel.Mmap

open List Option

/-- A file, a bias and flags. -/
abbrev Kind := Option Nat × Nat × BitVec 32

def Area.kind (v : Area) : Kind :=
  (v.file, ulong ((v.pgoff : Int) - v.start / 4096), v.flags &&& ~~~vmCanNonlinear)

def Request.kind (req : Request) : Kind :=
  (req.file, ulong ((req.pgoff : Int) - req.addr / 4096), req.flags &&& ~~~vmCanNonlinear)

/-- What is compared of a mapping: its file, its page and its flags. -/
def Mapping.seen (k : Mapping) : Kind := (k.file, k.pgoff, k.flags &&& ~~~vmCanNonlinear)

/-- What is seen of an address in an area of a kind. -/
def Kind.seen (k : Kind) (x : Nat) : Kind := (k.1, ulong (k.2.1 + x / 4096), k.2.2)

def seenAt (l : Space) (x : Nat) : Option Kind := (lookup l x).map Mapping.seen

@[mk_iff]
structure Request.Valid (req : Request) : Prop where
  addr_lt : req.addr < req.end_
  addr_page : req.addr % 4096 = 0
  end_page : req.end_ % 4096 = 0
  end_le : req.end_ ≤ taskSize

instance (req : Request) : Decidable req.Valid := decidable_of_iff' _ req.valid_iff

/-- The last area that ends at an address or below it. -/
def pred (l : Space) (addr : Nat) : Option Nat :=
  (l.filter fun p => p.2.end_ ≤ addr).getLast?.map Prod.fst

/-- What the callers of `vma_merge` pass: a range that is not mapped, with the area before it; or a
part of an area with what that part maps, where the area itself is `prev` unless the part is at its
start. -/
def Placed (l : Space) (prev : Option Nat) (req : Request) : Prop :=
  ((∀ p ∈ l, p.2.end_ ≤ req.addr ∨ req.end_ ≤ p.2.start) ∧ prev = pred l req.addr) ∨
    ∃ p ∈ l, p.2.start ≤ req.addr ∧ req.end_ ≤ p.2.end_ ∧ req.file = p.2.file ∧
      req.pgoff = (p.2.mapping req.addr).pgoff ∧
      prev = if req.addr = p.2.start then pred l req.addr else some p.1
  deriving Decidable

variable {m : Mm} {l a b c s : Space} {prev : Option Nat} {req : Request}
    {v n p r x end_ pgoff : Nat} {V N P R : Area} {w : Vma}

/-! ## Kinds -/

theorem seenAt_cons (hv : V.start % 4096 = 0) :
    seenAt ((v, V) :: l) x = if V.Contains x then some (Kind.seen V.kind x) else seenAt l x := by
  rw [seenAt, lookup_cons]
  split
  next h =>
    have : V.start ≤ x := h.1
    simp only [map_some, Mapping.seen, Kind.seen, Area.kind, Area.mapping, ulong, some.injEq,
      Prod.mk.injEq, true_and, and_true]
    omega
  · rfl

theorem seenAt_append : seenAt (a ++ b) x = (seenAt a x).or (seenAt b x) := by
  rw [seenAt, lookup_append]
  cases h : lookup a x <;> simp [seenAt, h]

theorem flags_eq {f g c : BitVec 32} (h : (f ^^^ g) &&& c = 0) : f &&& c = g &&& c := by
  refine BitVec.xor_eq_zero_iff.mp (Eq.trans ?_ h)
  ext i
  simp only [BitVec.getElem_xor, BitVec.getElem_and, Bool.and_xor_distrib_right]

theorem mergesAfter_iff (hw : w.toArea = P) (hP : P.Valid)
    (h : mergesAfter w req = true) : P.end_ = req.addr ∧ P.kind = req.kind := by
  obtain rfl := hw
  simp only [mergesAfter, isMergeableVma, Bool.decide_and, Bool.and_eq_true,
    decide_eq_true_eq] at h
  obtain ⟨hend, ⟨hflags, hfile, -⟩, -, hpgoff⟩ := h
  have := hP.start_page
  have := hP.start_lt
  refine ⟨hend, ?_⟩
  simp only [Area.kind, Request.kind, Prod.mk.injEq]
  refine ⟨hfile, ?_, flags_eq hflags⟩
  rw [← hpgoff]
  unfold ulong
  omega

theorem mergesBefore_iff (hreq : req.Valid) (hw : w.toArea = N)
    (h : mergesBefore w req = true) : N.start = req.end_ ∧ N.kind = req.kind := by
  obtain rfl := hw
  simp only [mergesBefore, isMergeableVma, Bool.decide_and, Bool.and_eq_true,
    decide_eq_true_eq] at h
  obtain ⟨hend, ⟨hflags, hfile, -⟩, -, hpgoff⟩ := h
  have := hreq.addr_page
  have := hreq.addr_lt
  refine ⟨hend.symm, ?_⟩
  simp only [Area.kind, Request.kind, Prod.mk.injEq]
  refine ⟨hfile, ?_, flags_eq hflags⟩
  rw [hpgoff]
  simp only [Request.pglen]
  unfold ulong
  omega

/-! ## The cases of `vma_merge` -/

/-- The areas around the one that is returned, and that one: it contains the request and maps its
file at its pages, and with the flags of the request the other addresses are seen as before. -/
structure Merged (req : Request) (l a : Space) (R : Area) (b : Space) : Prop where
  start_le : R.start ≤ req.addr
  le_end : req.end_ ≤ R.end_
  file : R.file = req.file
  bias : R.kind.2.1 = req.kind.2.1
  keeps : ∀ x, ¬(req.addr ≤ x ∧ x < req.end_) → ∀ (r : Nat) (R' : Area), R'.start = R.start →
    R'.end_ = R.end_ → R'.kind = req.kind → seenAt (a ++ (r, R') :: b) x = seenAt l x

/-- Areas that fill the request are not seen elsewhere. -/
theorem seenAt_filled (hs : ∀ q ∈ s, q.2.start = req.addr ∧ q.2.end_ = req.end_)
    (hx : ¬(req.addr ≤ x ∧ x < req.end_)) : seenAt (s ++ b) x = seenAt b x := by
  rw [seenAt_append, seenAt, lookup_eq_none]
  · rfl
  · intro q hq hcon
    obtain ⟨h₁, h₂⟩ := hs q hq
    exact hx ⟨h₁ ▸ hcon.1, h₂ ▸ hcon.2⟩

section

variable (hreq : req.Valid) (hs : ∀ q ∈ s, q.2.start = req.addr ∧ q.2.end_ = req.end_)
  (hP : P.Valid) (hPend : P.end_ = req.addr) (hPkind : P.kind = req.kind)
  (hN : N.Valid) (hNstart : N.start = req.end_) (hNkind : N.kind = req.kind) (hV : V.Valid)

include hreq

include hP hPend hPkind in
/-- The area before the request is extended up to `end_`; behind the request, what it gains is of
its kind. -/
theorem merged_extend (hle : req.end_ ≤ end_)
    (hc : ∀ x, ¬(req.addr ≤ x ∧ x < req.end_) → ¬P.Contains x → seenAt c x =
      if req.end_ ≤ x ∧ x < end_ then some (Kind.seen req.kind x) else seenAt b x) :
    Merged req (a ++ (p, P) :: c) a (P.ranged P.start end_ P.pgoff) b := by
  have hlt := hP.start_lt
  have hlt' := hreq.addr_lt
  refine ⟨by show P.start ≤ _; omega, hle, congrArg Prod.fst hPkind, congrArg (·.2.1) hPkind,
    fun x hx r R' hstart hend hkind => ?_⟩
  have hpage : R'.start % 4096 = 0 := hstart ▸ hP.start_page
  change R'.start = P.start at hstart
  change R'.end_ = end_ at hend
  rw [seenAt_append, seenAt_append, seenAt_cons hpage, seenAt_cons hP.start_page, hkind, hPkind]
  by_cases hcon : P.Contains x
  · rw [if_pos hcon, if_pos (by simp only [Area.Contains] at *; omega)]
  · rw [hc x hx hcon]
    split_ifs <;> first | rfl | (simp only [Area.Contains] at *; omega)

include hs hP hPend hPkind in
/-- Cases 2 and 7. -/
theorem merged_after : Merged req (a ++ (p, P) :: (s ++ b)) a
    (P.ranged P.start req.end_ P.pgoff) b := by
  refine merged_extend hreq hP hPend hPkind le_rfl fun x hx _ => ?_
  rw [seenAt_filled hs hx, if_neg (by omega)]

include hs hP hPend hPkind hN hNstart hNkind in
/-- Cases 1 and 6. -/
theorem merged_both : Merged req (a ++ (p, P) :: (s ++ (n, N) :: b)) a
    (P.ranged P.start N.end_ P.pgoff) b := by
  have hltN := hN.start_lt
  refine merged_extend hreq hP hPend hPkind (by omega) fun x hx _ => ?_
  rw [seenAt_filled hs hx, seenAt_cons hN.start_page, hNkind, ← hNstart]
  rfl

include hP hPend hPkind hV in
/-- Case 5. -/
theorem merged_shift (hVstart : V.start = req.addr) :
    Merged req (a ++ (p, P) :: (v, V) :: b) a (P.ranged P.start req.end_ P.pgoff)
      ((v, V.upper req.end_) :: b) := by
  have hlt := hreq.addr_lt
  have hpageV := hV.start_page
  have hpageE := hreq.end_page
  have hupper : (V.upper req.end_).kind = V.kind := by
    simp only [Area.kind, Area.upper, ulong, Prod.mk.injEq, true_and, and_true]
    omega
  refine merged_extend hreq hP hPend hPkind le_rfl fun x hx _ => ?_
  rw [seenAt_cons hpageV, seenAt_cons hpageE, hupper]
  split_ifs <;> first | rfl | (simp only [Area.Contains, Area.upper] at *; omega)

include hs hN hNstart hNkind in
/-- Cases 3 and 8: the area that is extended is `next`, or the one that fills the request. -/
theorem merged_before (hfile : V.file = req.file) : Merged req (a ++ (s ++ (n, N) :: b)) a
      (V.ranged req.addr N.end_ (ulong ((N.pgoff : Int) - req.pglen))) b := by
  have hlt := hreq.addr_lt
  have hltN := hN.start_lt
  have hpageA := hreq.addr_page
  refine ⟨le_rfl, by show _ ≤ N.end_; omega, hfile, ?_,
    fun x hx r R' hstart hend hkind => ?_⟩
  · rw [← hNkind]
    simp only [Area.kind, Area.ranged, Request.pglen, ulong]
    omega
  · have hpage : R'.start % 4096 = 0 := hstart ▸ hpageA
    change R'.start = req.addr at hstart
    change R'.end_ = N.end_ at hend
    rw [seenAt_append, seenAt_append, seenAt_cons hpage, seenAt_filled hs hx,
      seenAt_cons hN.start_page, hkind, hNkind]
    split_ifs <;> first | rfl | (simp only [Area.Contains] at *; omega)

include hV hN hNstart hNkind in
/-- Case 4. -/
theorem merged_lower (hVstart : V.start < req.addr) (hVend : V.end_ = req.end_) :
    Merged req (a ++ (v, V) :: (n, N) :: b) (a ++ [(v, V.lower req.addr)])
      (N.ranged (N.start - (V.end_ - req.addr) / 4096 * 4096) N.end_
        (ulong ((N.pgoff : Int) - ((V.end_ - req.addr) / 4096 : Nat)))) b := by
  have hlt := hreq.addr_lt
  have hltN := hN.start_lt
  have hpageA := hreq.addr_page
  have hpageE := hreq.end_page
  have hpageV := hV.start_page
  have hstart' : N.start - (V.end_ - req.addr) / 4096 * 4096 = req.addr := by omega
  rw [hstart']
  refine ⟨le_rfl, by show _ ≤ N.end_; omega, congrArg Prod.fst hNkind, ?_,
    fun x hx r R' hstart hend hkind => ?_⟩
  · rw [← hNkind]
    simp only [Area.kind, Area.ranged, ulong]
    omega
  · have hpage : R'.start % 4096 = 0 := hstart ▸ hpageA
    change R'.start = req.addr at hstart
    change R'.end_ = N.end_ at hend
    rw [← append_cons, seenAt_append, seenAt_append, @seenAt_cons _ v _ (V.lower req.addr) hpageV,
      seenAt_cons hpage, seenAt_cons hpageV, seenAt_cons hN.start_page, hkind, hNkind]
    split_ifs <;> first | rfl | (simp only [Area.Contains, Area.lower] at *; omega)

end

/-! ## `vma_merge` -/

theorem pred_eq {addr : Nat} (ha : ∀ p ∈ a, p.2.end_ ≤ addr) (hb : ∀ p ∈ b, addr < p.2.end_) :
    pred (a ++ b) addr = a.getLast?.map Prod.fst := by
  rw [pred, filter_append, filter_eq_self.mpr, filter_eq_nil_iff.mpr, append_nil]
  · intro q hq
    simpa using hb q hq
  · intro q hq
    simpa using ha q hq

/-- Where a request can be: between areas or in the place of one, at the start of a longer area, or
further inside one. -/
inductive Position (req : Request) : Space → Option Nat → Prop
  | between {a s b : Space} : (∀ p ∈ a, p.2.end_ ≤ req.addr) →
      (∀ q ∈ s, q.2.start = req.addr ∧ q.2.end_ = req.end_ ∧ q.2.file = req.file) → s.length ≤ 1 →
      (∀ q ∈ b, req.end_ ≤ q.2.start) → Position req (a ++ (s ++ b)) (a.getLast?.map Prod.fst)
  | atStart {a b : Space} {v : Nat} {V : Area} : (∀ p ∈ a, p.2.end_ ≤ req.addr) →
      V.start = req.addr → req.end_ < V.end_ →
      Position req (a ++ (v, V) :: b) (a.getLast?.map Prod.fst)
  | inside {a b : Space} {v : Nat} {V : Area} : V.start < req.addr → req.end_ ≤ V.end_ →
      Position req (a ++ (v, V) :: b) (some v)

theorem Placed.position (ht : Tidy l) (hreq : req.Valid) (h : Placed l prev req) :
    Position req l prev := by
  have hlt := hreq.addr_lt
  obtain ⟨a, b, rfl, ha, hb⟩ := ht.split req.addr
  have hpred := pred_eq ha hb
  rcases h with ⟨hout, rfl⟩ | ⟨q, hq, hstart, hend, hfile, -, hprev⟩
  · rw [hpred]
    refine .between (s := []) ha nofun (Nat.zero_le 1) fun q hq => ?_
    have := hb q hq
    have := hout q (mem_append_right a hq)
    omega
  · rw [hpred] at hprev
    -- no other area that ends above `addr` comes before `q`
    have hqb : q ∈ b := (mem_append.mp hq).resolve_left fun hqa => by
      have := ha q hqa
      omega
    obtain ⟨c, d, rfl⟩ := append_of_mem hqb
    obtain ⟨-, htd, hcd⟩ := tidy_append.mp (tidy_append.mp ht).2.1
    obtain ⟨-, hqd, -⟩ := tidy_cons.mp htd
    obtain rfl : c = [] := eq_nil_iff_forall_not_mem.mpr fun r hr => by
      have := hcd r hr q mem_cons_self
      have := hb r (mem_append_left _ hr)
      omega
    subst hprev
    by_cases haddr : req.addr = q.2.start
    · rw [if_pos haddr]
      by_cases hqend : q.2.end_ = req.end_
      · exact .between (s := [q]) ha (forall_mem_singleton.mpr ⟨haddr.symm, hqend, hfile.symm⟩)
          (Nat.le_refl 1) fun r hr => hqend ▸ hqd r hr
      · exact .atStart ha haddr.symm (by omega)
    · rw [if_neg haddr]
      exact .inside (by omega) hend

/-- An area of the address space by its number. -/
theorem exists_of_getLast? (h : a.getLast?.map Prod.fst = some p) : ∃ a' P, a = a' ++ [(p, P)] := by
  rcases eq_nil_or_concat' a with rfl | ⟨a', q, rfl⟩
  · cases h
  · rw [getLast?_concat] at h
    cases h
    exact ⟨a', q.2, rfl⟩

theorem exists_of_head? (h : b.head?.map Prod.fst = some n) : ∃ b' N, b = (n, N) :: b' := by
  cases b with
  | nil => cases h
  | cons q b =>
    cases h
    exact ⟨b, q.2, rfl⟩

/-- What is to be shown of a call that merges. -/
def Merges (l : Space) (req : Request) (result : Option (Option Nat × Mm)) : Prop :=
  ∃ r m' a R b, result = some (some r, m') ∧ Merged req l a R b ∧ Holds m' (a ++ (r, R) :: b) ∧
    Tidy (a ++ (r, R) :: b)

section

variable (hs : ∀ q ∈ s, q.2.start = req.addr ∧ q.2.end_ = req.end_ ∧ q.2.file = req.file)
  (hlen : s.length ≤ 1)

include hs hlen

/-- The successor of areas that fill the request. -/
theorem Holds.mergeNext_eq (h : Holds m (a ++ (s ++ b))) (ht : Tidy (a ++ (s ++ b)))
    (hb : ∀ q ∈ b, req.end_ ≤ q.2.start) :
    m.mergeNext (a.getLast?.map Prod.fst) req = b.head?.map Prod.fst := by
  rw [Mm.mergeNext, h.following]
  match s, hlen with
  | [], _ =>
    cases b with
    | nil => rfl
    | cons q b =>
      have := hb q mem_cons_self
      have := (ht.valid q (by simp)).start_lt
      simp only [nil_append, head?_cons, map_some, bind_some]
      rw [h.area q (by simp), if_neg (by omega)]
  | [(v, V)], _ =>
    obtain ⟨-, hV, -⟩ := hs (v, V) mem_cons_self
    show (if (m.vma v).end_ = req.end_ then m.vmNext v else some v) = _
    rw [h.area_eq, if_pos hV]
    exact h.vmNext

/-- Cases 1, 2, 6 and 7: the area before a request that is between areas is extended. -/
theorem Holds.merge_prev (h : Holds m (a ++ (p, P) :: (s ++ b)))
    (ht : Tidy (a ++ (p, P) :: (s ++ b))) (hreq : req.Valid)
    (hb : ∀ q ∈ b, req.end_ ≤ q.2.start) (hPend : P.end_ = req.addr)
    (hPkind : P.kind = req.kind) : Merges (a ++ (p, P) :: (s ++ b)) req
      ((m.vmaAdjust p P.start req.end_ P.pgoff none).map fun m => (some p, m)) ∧
    ∀ n N b', b = (n, N) :: b' → N.start = req.end_ → N.kind = req.kind →
      Merges (a ++ (p, P) :: (s ++ b)) req
        ((m.vmaAdjust p P.start N.end_ P.pgoff none).map fun m => (some p, m)) := by
  have hlt := hreq.addr_lt
  obtain ⟨-, htp, hap⟩ := tidy_append.mp ht
  obtain ⟨hP, -, htb⟩ := tidy_cons.mp htp
  change P.Valid at hP
  have hPlt := hP.start_lt
  have hap' : ∀ q ∈ a, q.2.end_ ≤ P.start := fun q hq => hap q hq _ mem_cons_self
  have hs' : ∀ q ∈ s, q.2.start = req.addr ∧ q.2.end_ = req.end_ := fun q hq =>
    ⟨(hs q hq).1, (hs q hq).2.1⟩
  constructor
  · have hadj : adjusted p P P.start req.end_ P.pgoff (s ++ b) =
        some ((p, P.ranged P.start req.end_ P.pgoff) :: b) := by
      rcases s with _ | ⟨⟨v, V⟩, _ | ⟨q, s⟩⟩
      · cases b with
        | nil => rfl
        | cons q b =>
          have := hb q mem_cons_self
          have := (htb.valid q (by simp)).start_lt
          rw [nil_append, adjusted, if_neg (by omega), if_neg (by omega), if_neg (by omega)]
      · obtain ⟨-, hV, -⟩ := hs (v, V) mem_cons_self
        simp only at hV
        simp [adjusted, hV]
      · simp at hlen
    obtain ⟨m', hm', h', ht'⟩ := h.adjust ht (by omega) hP.start_page hreq.end_page hreq.end_le hap'
      hPlt hadj
    exact ⟨p, m', a, _, b, by rw [hm']; rfl, merged_after hreq hs' hP hPend hPkind, h', ht'⟩
  · rintro n N b rfl hNstart hNkind
    have hN : N.Valid := htb.valid (n, N) (by simp)
    have hNlt := hN.start_lt
    have hadj : adjusted p P P.start N.end_ P.pgoff (s ++ (n, N) :: b) =
        some ((p, P.ranged P.start N.end_ P.pgoff) :: b) := by
      rcases s with _ | ⟨⟨v, V⟩, _ | ⟨q, s⟩⟩
      · simp [adjusted]
      · obtain ⟨-, hV, -⟩ := hs (v, V) mem_cons_self
        simp only at hV
        rw [singleton_append, adjusted, if_pos (by omega), if_pos (by omega)]
        rfl
      · simp at hlen
    obtain ⟨m', hm', h', ht'⟩ := h.adjust ht (by omega) hP.start_page hN.end_page hN.end_le hap'
      hPlt hadj
    exact ⟨p, m', a, _, b, by rw [hm']; rfl, merged_both hreq hs' hP hPend hPkind hN hNstart hNkind,
      h', ht'⟩

/-- Cases 3 and 8: the area after the request, or the one that fills it, is extended. -/
theorem Holds.merge_next (h : Holds m (a ++ (s ++ (n, N) :: b)))
    (ht : Tidy (a ++ (s ++ (n, N) :: b))) (hreq : req.Valid) (ha : ∀ q ∈ a, q.2.end_ ≤ req.addr)
    (hNstart : N.start = req.end_) (hNkind : N.kind = req.kind) :
    Merges (a ++ (s ++ (n, N) :: b)) req ((m.following (a.getLast?.map Prod.fst)).bind fun area =>
      (m.vmaAdjust area req.addr N.end_ (ulong ((N.pgoff : Int) - req.pglen)) none).map
        fun m => (some area, m)) := by
  have hlt := hreq.addr_lt
  have hN : N.Valid := ht.valid (n, N) (by simp)
  have hNlt := hN.start_lt
  have hs' : ∀ q ∈ s, q.2.start = req.addr ∧ q.2.end_ = req.end_ := fun q hq =>
    ⟨(hs q hq).1, (hs q hq).2.1⟩
  rw [h.following]
  match s, hlen with
  | [], _ =>
    have hadj : adjusted n N req.addr N.end_ (ulong ((N.pgoff : Int) - req.pglen)) b =
        some ((n, N.ranged req.addr N.end_ (ulong ((N.pgoff : Int) - req.pglen))) :: b) := by
      cases b with
      | nil => rfl
      | cons q b =>
        obtain ⟨-, hNb, -⟩ := tidy_cons.mp (tidy_append.mp ht).2.1
        have := hNb q mem_cons_self
        have := (ht.valid q (by simp)).start_lt
        simp only at *
        rw [adjusted, if_neg (by omega), if_neg (by omega), if_neg (by omega)]
    obtain ⟨m', hm', h', ht'⟩ :=
      Holds.adjust h ht (by omega) hreq.addr_page hN.end_page hN.end_le ha
      (by omega) hadj
    exact ⟨n, m', a, _, b, by rw [nil_append]; simp [hm'],
      merged_before hreq hs' hN hNstart hNkind (congrArg Prod.fst hNkind), h', ht'⟩
  | [(v, V)], _ =>
    obtain ⟨hV, hV', hfile⟩ := hs (v, V) mem_cons_self
    have hadj : adjusted v V req.addr N.end_ (ulong ((N.pgoff : Int) - req.pglen)) ((n, N) :: b) =
        some ((v, V.ranged req.addr N.end_ (ulong ((N.pgoff : Int) - req.pglen))) :: b) := by
      simp [adjusted]
    simp only at hV'
    obtain ⟨m', hm', h', ht'⟩ :=
      Holds.adjust h ht (by omega) hreq.addr_page hN.end_page hN.end_le ha
      (by omega) hadj
    exact ⟨v, m', a, _, b, by rw [singleton_append]; simp [hm'],
      merged_before hreq hs' hN hNstart hNkind hfile, h', ht'⟩

end

/-- `vma_merge` changes nothing, or one of the areas around the request is extended over it. -/
theorem Holds.vmaMerge (h : Holds m l) (ht : Tidy l) (hreq : req.Valid) (hp : Placed l prev req) :
    m.vmaMerge prev req = some (none, m) ∨ Merges l req (m.vmaMerge prev req) := by
  have hlt := hreq.addr_lt
  unfold Mm.vmaMerge
  split
  · exact .inl rfl
  cases hp.position ht hreq with
  | @between a s b ha hs hlen hb =>
    rw [h.mergeNext_eq hs hlen ht hb]
    rcases hA : (a.getLast?.map Prod.fst).filter fun p => mergesAfter (m.vma p) req with _ | p
    · rcases hB : (b.head?.map Prod.fst).filter fun n => mergesBefore (m.vma n) req with _ | n
      · exact .inl rfl
      obtain ⟨hn, hmerges⟩ := filter_eq_some_iff.mp hB
      obtain ⟨b, N, rfl⟩ := exists_of_head? hn
      have hN : (m.vma n).toArea = N := h.area (n, N) (by simp)
      obtain ⟨hNstart, hNkind⟩ := mergesBefore_iff hreq hN hmerges
      have hskip : (a.getLast?.map Prod.fst).filter (fun p => req.addr < (m.vma p).end_) =
        none := by
        rcases hl : a.getLast?.map Prod.fst with _ | p
        · rfl
        · obtain ⟨a, P, rfl⟩ := exists_of_getLast? hl
          have := ha (p, P) (by simp)
          rw [filter_some, h.area (p, P) (by simp)]
          simpa using this
      right
      have := h.merge_next hs hlen ht hreq ha hNstart hNkind
      simp only [hskip, hN]
      exact this
    · obtain ⟨hl, hmerges⟩ := filter_eq_some_iff.mp hA
      obtain ⟨a, P, rfl⟩ := exists_of_getLast? hl
      rw [← append_cons] at h ht
      have hP := h.area_eq
      obtain ⟨hPend, hPkind⟩ := mergesAfter_iff hP (ht.valid (p, P) (by simp)) hmerges
      obtain ⟨hafter, hboth⟩ := h.merge_prev hs hlen ht hreq hb hPend hPkind
      right
      rw [← append_cons]
      simp only [hP]
      rcases hC :
        ((b.head?.map Prod.fst).filter fun n => mergesBefore (m.vma n) req).filter fun n =>
          isMergeableAnonVma (m.vma p).anonVma (m.vma n).anonVma with _ | n
      · exact hafter
      · obtain ⟨hB, -⟩ := filter_eq_some_iff.mp hC
        obtain ⟨hn, hmerges⟩ := filter_eq_some_iff.mp hB
        obtain ⟨b, N, rfl⟩ := exists_of_head? hn
        have hN : (m.vma n).toArea = N := h.area (n, N) (by simp)
        obtain ⟨hNstart, hNkind⟩ := mergesBefore_iff hreq hN hmerges
        simp only [hN]
        exact hboth n N b rfl hNstart hNkind
  | @atStart a b v V ha hV hV' =>
    have hnone : (m.mergeNext (a.getLast?.map Prod.fst) req).filter (fun n =>
        mergesBefore (m.vma n) req) = none := by
      rw [Mm.mergeNext, h.following]
      simp only [head?_cons, map_some, bind_some, h.area_eq]
      rw [if_neg hV'.ne', filter_some, if_neg]
      intro hmerges
      have := (mergesBefore_iff hreq h.area_eq hmerges).1
      omega
    rw [hnone]
    rcases hA : (a.getLast?.map Prod.fst).filter fun p => mergesAfter (m.vma p) req with _ | p
    · exact .inl rfl
    obtain ⟨hl, hmerges⟩ := filter_eq_some_iff.mp hA
    obtain ⟨a, P, rfl⟩ := exists_of_getLast? hl
    rw [← append_cons] at h ht ⊢
    have hP : P.Valid := ht.valid (p, P) (by simp)
    have hPlt := hP.start_lt
    obtain ⟨hPend, hPkind⟩ := mergesAfter_iff h.area_eq hP hmerges
    have hadj : adjusted p P P.start req.end_ P.pgoff ((v, V) :: b) =
        some ((p, P.ranged P.start req.end_ P.pgoff) :: (v, V.upper req.end_) :: b) := by
      rw [adjusted, if_neg (by omega), if_pos (by omega)]
    obtain ⟨m', hm', h', ht'⟩ := h.adjust ht (by omega) hP.start_page hreq.end_page hreq.end_le
      (fun q hq => (tidy_append.mp ht).2.2 q hq _ mem_cons_self) hPlt hadj
    refine .inr ⟨p, m', a, _, _, ?_, merged_shift hreq hP hPend hPkind
      (ht.valid (v, V) (by simp)) hV, h', ht'⟩
    simp only [h.area_eq, filter_none, hm']
    rfl
  | @inside a b v V hV hV' =>
    have hVv : V.Valid := ht.valid (v, V) (by simp)
    have hnone : (some v).filter (fun p => mergesAfter (m.vma p) req) = none := by
      rw [filter_some, if_neg]
      intro hmerges
      have := (mergesAfter_iff h.area_eq hVv hmerges).1
      omega
    have hnext : m.mergeNext (some v) req = b.head?.map Prod.fst := by
      have hfollow : m.following (some v) = b.head?.map Prod.fst := h.vmNext
      rw [Mm.mergeNext, hfollow]
      cases b with
      | nil => rfl
      | cons q b =>
        obtain ⟨-, hVb, -⟩ := tidy_cons.mp (tidy_append.mp ht).2.1
        have := hVb q mem_cons_self
        have := (ht.valid q (by simp)).start_lt
        show (if (m.vma q.1).end_ = req.end_ then m.vmNext q.1 else some q.1) = _
        rw [h.area q (by simp), if_neg (by simp only at *; omega)]
        rfl
    rw [hnone, hnext]
    rcases hB : (b.head?.map Prod.fst).filter fun n => mergesBefore (m.vma n) req with _ | n
    · exact .inl rfl
    obtain ⟨hn, hmerges⟩ := filter_eq_some_iff.mp hB
    obtain ⟨b, N, rfl⟩ := exists_of_head? hn
    have hN : N.Valid := ht.valid (n, N) (by simp)
    have hNlt := hN.start_lt
    have hNarea : (m.vma n).toArea = N := h.area (n, N) (by simp)
    obtain ⟨hNstart, hNkind⟩ := mergesBefore_iff hreq hNarea hmerges
    obtain ⟨-, hVb, -⟩ := tidy_cons.mp (tidy_append.mp ht).2.1
    have hVN : V.end_ ≤ N.start := hVb (n, N) mem_cons_self
    have hVend : V.end_ = req.end_ := by omega
    have hadj : adjusted v V V.start req.addr V.pgoff ((n, N) :: b) =
        some ((v, V.lower req.addr) :: (n, N.ranged (N.start - (V.end_ - req.addr) / 4096 * 4096)
          N.end_ (ulong ((N.pgoff : Int) - ((V.end_ - req.addr) / 4096 : Nat)))) :: b) := by
      rw [adjusted, if_neg (by omega), if_neg (by omega), if_pos (by omega)]
      rfl
    obtain ⟨m', hm', h', ht'⟩ := h.adjust ht hV hVv.start_page hreq.addr_page
      (hlt.le.trans hreq.end_le) (fun q hq => (tidy_append.mp ht).2.2 q hq _ mem_cons_self)
      hVv.start_lt hadj
    refine .inr ⟨n, m', _, _, b, ?_, merged_lower hreq hN hNstart hNkind hVv hV hVend, ?_, ?_⟩
    · have hfollow : m.following (some v) = some n := h.vmNext
      have hfilter : (some v).filter (fun p => req.addr < (m.vma p).end_) = some v := by
        rw [filter_some, h.area_eq, if_pos (decide_eq_true (by omega))]
      simp only [hfilter, hfollow, h.area_eq, hm']
      rfl
    · rw [← append_cons]
      exact h'
    · rw [← append_cons]
      exact ht'

/-- The caller sets the flags of an area, as `mprotect_fixup` does. -/
def Mm.setFlags (m : Mm) (r : Nat) (flags : BitVec 32) : Mm :=
  m.setVma r { m.vma r with flags }

theorem lookup_of_tidy (ht : Tidy (a ++ (r, R) :: b)) (hx : R.Contains x) :
    lookup (a ++ (r, R) :: b) x = some (R.mapping x) := by
  obtain ⟨-, -, hab⟩ := tidy_append.mp ht
  rw [lookup_append, lookup_eq_none, lookup_cons, if_pos hx, none_or]
  intro q hq hcon
  have := hab q hq _ mem_cons_self
  exact absurd hcon.2 (Nat.not_lt.mpr (this.trans hx.1))

/-- What `vma_merge` does: nothing, or it returns an area that contains the request. Once that area
has the flags of the request, the addresses of the request map what was asked for, and the others
what they did, up to `VM_CAN_NONLINEAR`. -/
theorem vmaMerge_effect (hm : Consistent m) (hreq : req.Valid) (hp : Placed m.space prev req) :
    m.vmaMerge prev req = some (none, m) ∨
    ∃ r m', m.vmaMerge prev req = some (some r, m') ∧ r ∈ m'.mmRb.toList ∧
      (m'.vma r).start ≤ req.addr ∧ req.end_ ≤ (m'.vma r).end_ ∧
      (∀ x, req.addr ≤ x → x < req.end_ → ∃ k, lookup (m'.setFlags r req.flags).space x = some k ∧
        k.file = req.file ∧ k.pgoff = ulong (req.pgoff + (x - req.addr) / 4096 : Nat) ∧
        k.flags = req.flags) ∧ ∀ x, ¬(req.addr ≤ x ∧ x < req.end_) →
        (lookup (m'.setFlags r req.flags).space x).map Mapping.seen =
          (lookup m.space x).map Mapping.seen := by
  refine (hm.holds.vmaMerge hm.tidy hreq hp).imp id ?_
  rintro ⟨r, m', a, R, b, heq, hmerged, h', ht'⟩
  have hR := h'.area_eq
  have hflags : Holds (m'.setFlags r req.flags) (a ++ (r, { R with flags := req.flags }) :: b) := by
    obtain rfl := hR
    exact h'.set _
  have hkind : ({ R with flags := req.flags } : Area).kind = req.kind :=
    Prod.ext hmerged.file (Prod.ext hmerged.bias rfl)
  refine ⟨r, m', heq, ?_, by rw [hR]; exact hmerged.start_le, by rw [hR]; exact hmerged.le_end,
    fun x hlo hhi => ?_, fun x hx => ?_⟩
  · rw [h'.rb]
    simp
  · have hRv : R.Valid := ht'.valid (r, R) (by simp)
    have hstart := hmerged.start_le
    have hend := hmerged.le_end
    have hbias := hmerged.bias
    have hpage := hRv.start_page
    have hpageA := hreq.addr_page
    refine ⟨({ R with flags := req.flags } : Area).mapping x, ?_, hmerged.file, ?_, rfl⟩
    · rw [hflags.space_eq]
      refine lookup_of_tidy ?_ ⟨hstart.trans hlo, hhi.trans_le hend⟩
      obtain ⟨hta, htb, hab⟩ := tidy_append.mp ht'
      obtain ⟨hV, hVb, htb⟩ := tidy_cons.mp htb
      refine tidy_append.mpr
        ⟨hta, tidy_cons.mpr ⟨⟨hV.start_lt, hV.start_page, hV.end_page, hV.end_le⟩,
        hVb, htb⟩, fun q hq => ?_⟩
      obtain ⟨hqV, hqb⟩ := forall_mem_cons.mp (hab q hq)
      exact forall_mem_cons.mpr ⟨hqV, hqb⟩
    · simp only [Area.kind, Request.kind, ulong] at hbias
      simp only [Area.mapping, ulong]
      omega
  · rw [hflags.space_eq]
    exact hmerged.keeps x hx r _ rfl rfl hkind

/-- The pages after the first of the mappings, which are mapped by a call that does not know whether
the file can be mapped nonlinearly. -/
def nextPages : Request where
  addr := 0x40004000
  end_ := 0x40005000
  flags := 0
  anonVma := none
  file := some 7
  pgoff := 4

theorem vmaMerge_effect_nextPages : Consistent fileMappings ∧ nextPages.Valid ∧
    Placed fileMappings.space (some 0) nextPages ∧
    ∃ r m', fileMappings.vmaMerge (some 0) nextPages = some (some r, m') ∧
      ∀ x, ¬(nextPages.addr ≤ x ∧ x < nextPages.end_) →
        (lookup (m'.setFlags r nextPages.flags).space x).map Mapping.seen =
          (lookup fileMappings.space x).map Mapping.seen := by
  have hreq : nextPages.Valid := by decide
  have hp : Placed fileMappings.space (some 0) nextPages := by decide
  refine ⟨consistent_fileMappings, hreq, hp, ?_⟩
  rcases vmaMerge_effect consistent_fileMappings hreq hp with hno | ⟨r, m', heq, -, -, -, -, hkeeps⟩
  · -- the area before the pages takes them in
    have hmerged : ((fileMappings.vmaMerge (some 0) nextPages).map Prod.fst) = some (some 0) := rfl
    rw [hno] at hmerged
    cases hmerged
  · exact ⟨r, m', heq, hkeeps⟩

/-- The flags of the first mapping do change. -/
theorem vmaMerge_changes_flags : Consistent fileMappings ∧ nextPages.Valid ∧
    Placed fileMappings.space (some 0) nextPages ∧
    ∃ r m', fileMappings.vmaMerge (some 0) nextPages = some (some r, m') ∧
      (lookup (m'.setFlags r nextPages.flags).space 0x40000000).map Mapping.flags = some 0 ∧
      (lookup fileMappings.space 0x40000000).map Mapping.flags = some vmCanNonlinear := by
  refine ⟨consistent_fileMappings, by decide, by decide, 0, _, rfl, ?_, ?_⟩
  · decide
  · decide

end AndroidKernel.Mmap
