import AndroidKernel.Sipc.Fragments

/-!
# The lengths in the modem's frames

The readers subtract the size of a header from the length that a frame declares, and use
the difference as it is. So a frame that declares less than its header runs into a fault,
and so do a fragment that is longer than a block and a remote file system packet whose
length is negative as an `int`. All other frames are read into buffers that are large
enough, and those that are longer than what is in the ring are rejected, if there is memory
and a device for them. A fragment that declares one byte less than its header is not noticed at
once: it takes a byte from the length of its block.

What a reader does is told from the bytes that are in the ring before it is called.
-/

namespace AndroidKernel.Sipc

open List

/-! ## Frames as the modem has written them -/

/-- The functions that read a frame; `dropped` is a packet for a network device that is not
there. -/
inductive FrameKind where
  | pn
  | pdp
  | dropped
  | rfs
  | frag
  | last
  deriving DecidableEq

/-- A frame in a ring: what reads it, the length that is left of the declared one, and the bytes
behind its header. -/
structure Incoming where
  kind : FrameKind
  len : Int
  bytes : List Byte
  deriving DecidableEq

namespace Incoming

variable (fr : Incoming)

/-- The data lengths that a frame may have. -/
def LenOk : Prop :=
  0 ≤ fr.len ∧ (fr.kind = .rfs → fr.len + 6 < 2 ^ 31) ∧
    (fr.kind = .frag → fr.len + 1 ≤ fragBlockMax)
  deriving Decidable

/-- The frame declares more than there is. -/
def Overlong : Prop := (fr.bytes.length : Int) < fr.len
  deriving Decidable

/-- The length runs into a fault, or is not noticed. -/
def Bad : Prop := fr.kind ≠ .dropped ∧ ¬fr.LenOk
  deriving Decidable

/-- The length is one that the readers can cope with. -/
def Good : Prop := ¬fr.Bad ∧ (fr.kind = .dropped → ¬fr.Overlong)
  deriving Decidable

/-- A fragment that declares one byte less than its header. -/
def Negative : Prop := fr.kind = .frag ∧ fr.len = -1
  deriving Decidable

/-- What is behind the frame, if it is read whole. The end mark of a remote file system packet may
be missing. -/
def next : Option (List Byte) :=
  if fr.kind = .dropped then some (fr.bytes.drop (ulong (fr.len + 1)))
  else if fr.LenOk ∧ fr.len + (if fr.kind = .rfs then 0 else 1) ≤ fr.bytes.length then
    some (fr.bytes.drop (fr.len + 1).toNat)
  else none

/-- The frame of a ring that has this header. -/
def ofHeader (pdpDevs : Nat → Bool) (hdr bytes : List Byte) : IpcIdx → Incoming
  | .fmt =>
    ⟨if (hdr.getD 2 0).toNat &&& fmtMbMask = 0 then .last else .frag,
      (Bytes.value (hdr.take 2) : Int) - 3, bytes⟩
  | .raw =>
    let res := 0x20 ||| (hdr.getD 4 0).toNat
    ⟨if pnPdpStart ≤ res ∧ res ≤ pnPdpEnd then
        if pdpDevs (res - pnPdpStart) then .pdp else .dropped
      else .pn,
      long ((Bytes.value (hdr.take 4) : Int) - 6), bytes⟩
  | .rfs => ⟨.rfs, long ((Bytes.value (hdr.take 4) : Int) - 6), bytes⟩

variable {fr : Incoming}

theorem next_of_lenOk (hkind : fr.kind ≠ .dropped) (hlen : fr.LenOk)
    (henough : fr.len + (if fr.kind = .rfs then 0 else 1) ≤ fr.bytes.length) :
    fr.next = some (fr.bytes.drop (fr.len + 1).toNat) := by
  unfold next
  rw [if_neg hkind, if_pos ⟨hlen, henough⟩]

theorem next_of_short (hkind : fr.kind ≠ .dropped)
    (hshort : ¬fr.len + (if fr.kind = .rfs then 0 else 1) ≤ fr.bytes.length) : fr.next = none := by
  unfold next
  rw [if_neg hkind, if_neg fun h => hshort h.2]

theorem next_of_overlong (hgood : fr.Good) (hlong : fr.Overlong) : fr.next = none := by
  refine next_of_short (fun hkind => hgood.2 hkind hlong) fun hle => ?_
  unfold Overlong at hlong
  split at hle <;> omega

theorem not_bad_of_next {rest : List Byte} (h : fr.next = some rest) :
    ¬fr.Bad ∧ rest.length ≤ fr.bytes.length := by
  unfold next at h
  split at h
  next hkind =>
    cases h
    exact ⟨fun hbad => hbad.1 hkind, length_drop.trans_le (Nat.sub_le ..)⟩
  next =>
    obtain ⟨hok, h⟩ := Option.ite_none_right_eq_some.mp h
    cases h
    exact ⟨fun hbad => hbad.2 hok.1, length_drop.trans_le (Nat.sub_le ..)⟩

theorem Negative.bad (h : fr.Negative) : fr.Bad := by
  refine ⟨fun hkind => ?_, fun hok => ?_⟩
  · cases h.1.symm.trans hkind
  · have hneg := hok.1
    rw [h.2] at hneg
    cases hneg

end Incoming

/-! ## What becomes of a frame -/

/-- What a reader leaves if it goes on: the lists of fragments are well-formed, and at most one
block has been added. -/
structure Si.After (si si' : Si) : Prop where
  frag : si'.frag.Ok
  devs : si'.pdpDevs = si.pdpDevs
  plenty : ∀ n, si.Plenty (n + 1) → si'.Plenty n

/-- What a function that reads a frame does. -/
inductive FrameOk (idx : IpcIdx) (si : Si) (fr : Incoming) (out : Read) : Prop
  | whole {rest : List Byte} (hnext : fr.next = some rest)
      (hret : out.ret = .ok ((fr.bytes.length : Int) - rest.length))
      (htail : out.rb.tail < idx.size) (hrest : out.rb.contents idx = rest) (h : si.After out.si)
  | rejected (hnext : fr.next = none) (hlen : fr.LenOk) (hret : out.ret = .ok ebadmsg)
      (h : out.si.frag.Ok)
  | fault {e : Fault} (hbad : fr.Bad) (hret : out.ret = .error e)
  | noMemory (hmem : ¬si.Plenty 1) (hret : out.ret = .ok enomem) (h : out.si.frag.Ok)
  | negative (h : fr.Negative)

variable {idx : IpcIdx} {rb : Ringbuf} {si si' : Si} {len room readLen : Int}

/-- A call that returns leaves well-formed lists. -/
theorem FrameOk.frag_ok {fr : Incoming} {out : Read} (h : FrameOk idx si fr out)
    (hfr : ¬fr.Negative) {r : Int} (hret : out.ret = .ok r) : out.si.frag.Ok := by
  cases h with
  | whole _ _ _ _ h => exact h.frag
  | rejected _ _ _ h | noMemory _ _ h => exact h
  | fault _ herr => cases hret.symm.trans herr
  | negative h => exact absurd h hfr

/-- The state in which a function is called may have been prepared. -/
theorem FrameOk.mono {fr : Incoming} {out : Read} (h : FrameOk idx si' fr out)
    (hdevs : si'.pdpDevs = si.pdpDevs) (hmem : ∀ n, si.Plenty n → si'.Plenty n) :
    FrameOk idx si fr out := by
  cases h with
  | whole hnext hret htail hrest h =>
    exact .whole hnext hret htail hrest
      ⟨h.frag, h.devs.trans hdevs, fun n hn => h.plenty n (hmem _ hn)⟩
  | rejected hnext hlen hret h => exact .rejected hnext hlen hret h
  | fault hbad hret => exact .fault hbad hret
  | noMemory hnot hret h => exact .noMemory (fun hplenty => hnot (hmem 1 hplenty)) hret h
  | negative h => exact .negative h

theorem Si.Plenty.later {n : Nat} (h : si.Plenty n) (hlater : si.Later si') : si'.Plenty n := by
  obtain ⟨allocs, rfl, hnil⟩ := hlater
  exact ⟨hnil h.allocs, h.blocks⟩

theorem Si.Later.devs (h : si.Later si') : si'.pdpDevs = si.pdpDevs := by
  obtain ⟨allocs, rfl, -⟩ := h
  rfl

/-- Lists of fragments that have not grown. -/
theorem Si.Later.after {si₁ : Si} (h : si.Later si₁) (hok : si'.frag.Ok)
    (hcount : si'.frag.blockCount ≤ si₁.frag.blockCount) (hallocs : si'.allocs = si₁.allocs)
    (hdevs : si'.pdpDevs = si₁.pdpDevs) : si.After si' where
  frag := hok
  devs := hdevs.trans h.devs
  plenty n hn := by
    have hlater := hn.later h
    have hblocks := hlater.blocks
    exact ⟨hallocs.trans hlater.allocs, by omega⟩

theorem Si.not_plenty_of_alloc (h : ¬si.alloc.1 = true) (n : Nat) : ¬si.Plenty n := by
  intro hplenty
  rw [Si.alloc_of_nil hplenty.allocs] at h
  exact h rfl

/-! ## Filling buffers -/

theorem fill_negative (h : len < 0) : (fill idx rb room len readLen).2 = .error .negative := by
  unfold fill
  rw [if_pos h]

section

variable (h : rb.tail < idx.size)

include h

theorem fill_ok (hlen : 0 ≤ len) (hroom : len ≤ room) {n : Nat} (hn : ulong readLen = n)
    (hread : (n : Int) ≤ room) :
    fill idx rb room len readLen = ((rb.read idx n).1, .ok ((rb.contents idx).take n)) := by
  have hbytes := (sees_contents h n).read
  have hlength : ((rb.contents idx).take n).length ≤ n := length_take_le n _
  unfold fill
  rw [if_neg (by omega), if_neg (by omega), hn]
  dsimp only
  rw [hbytes, if_neg (by omega)]

/-- A frame that is read together with its end mark: it is whole if there are as many bytes. -/
theorem frameOk_of_read {kind : FrameKind} {n : Nat} {bytes : List Byte} {siBad siOk : Si}
    (hlen : Incoming.LenOk ⟨kind, len, rb.contents idx⟩)
    (hkind : kind ≠ .dropped ∧ kind ≠ .rfs) (hn : (n : Int) = len + 1)
    (hread : readLen = len + 1 ∨ readLen < 0 ∧ 2 ^ 31 ≤ len + 1)
    (hbytes : bytes = (rb.contents idx).take n) (hbad : siBad.frag.Ok)
    (hok : (bytes.length : Int) = readLen → si.After siOk) :
    FrameOk idx si ⟨kind, len, rb.contents idx⟩
      (if (bytes.length : Int) ≠ readLen then ⟨(rb.read idx n).1, siBad, .ok ebadmsg⟩
        else ⟨(rb.read idx n).1, siOk, .ok bytes.length⟩) := by
  have hcount : (rb.contents idx).length < 2 ^ 31 := by
    rw [Ringbuf.length_contents, Ringbuf.count, circCnt, idx.land_mask]
    exact (Nat.mod_lt _ idx.size_bounds.1).trans idx.size_bounds.2
  have hlength : bytes.length = min n (rb.contents idx).length := hbytes ▸ length_take
  have hone : (if kind = .rfs then (0 : Int) else 1) = 1 := if_neg hkind.2
  split
  next hshort =>
    refine .rejected (Incoming.next_of_short hkind.1 ?_) hlen rfl hbad
    rw [hone]
    show ¬len + 1 ≤ ((rb.contents idx).length : Int)
    omega
  next hfull =>
    obtain ⟨-, htail, hrest⟩ := Ringbuf.read_tail h n
    have hto : (len + 1).toNat = n := by omega
    refine .whole (Incoming.next_of_lenOk hkind.1 hlen ?_) ?_ htail ?_ (hok (not_not.mp hfull))
    · rw [hone]
      show len + 1 ≤ ((rb.contents idx).length : Int)
      omega
    · dsimp only
      rw [hto, length_drop]
      congr 1
      omega
    · rw [hto]
      exact hrest

end

/-! ## Raw packets -/

/-- `read_len`, which may have overflowed. -/
theorem long_add_one (h : 0 ≤ len) (hlt : len < 2 ^ 31) :
    long (len + 1) = len + 1 ∨ long (len + 1) < 0 ∧ 2 ^ 31 ≤ len + 1 := by
  unfold long
  omega

/-- `read_len` as an unsigned number, also where it has overflowed. -/
theorem ulong_long_add_one (h : 0 ≤ len) (hlt : len < 2 ^ 31) :
    ulong (long (len + 1)) = (len + 1).toNat := by
  unfold ulong long
  omega

theorem lenOk_of_nonneg {kind : FrameKind} {bytes : List Byte} (h : 0 ≤ len)
    (hkind : kind ≠ .rfs ∧ kind ≠ .frag) : Incoming.LenOk ⟨kind, len, bytes⟩ :=
  ⟨h, fun heq => absurd heq hkind.1, fun heq => absurd heq hkind.2⟩

theorem not_lenOk_of_neg {kind : FrameKind} {bytes : List Byte} (h : len < 0) :
    ¬Incoming.LenOk ⟨kind, len, bytes⟩ :=
  fun hok => absurd hok.1 (Int.not_le.mpr h)

section

variable (h : rb.tail < IpcIdx.raw.size) (hlt : len < 2 ^ 31) (hsi : si.frag.Ok)

include h hlt hsi

/-- A raw packet is read into a buffer of `room` bytes, and handed up. -/
theorem frameOk_of_fill {kind : FrameKind} (hkind : kind = .pn ∨ kind = .pdp)
    (hroom : 0 ≤ len → len + 1 ≤ room) {handUp : List Byte → Si}
    (hsame : ∀ bytes, ∃ received, handUp bytes = { si.alloc.2 with received := received })
    {out : Read} (hout : out =
      if si.alloc.1 then
        match (fill .raw rb room len (long (len + 1))).2 with
        | .error e => ⟨(fill .raw rb room len (long (len + 1))).1, si.alloc.2, .error e⟩
        | .ok bytes =>
          if (bytes.length : Int) ≠ long (len + 1) then
            ⟨(fill .raw rb room len (long (len + 1))).1, si.alloc.2, .ok ebadmsg⟩
          else ⟨(fill .raw rb room len (long (len + 1))).1, handUp bytes, .ok bytes.length⟩
      else ⟨rb, si.alloc.2, .ok enomem⟩) :
    FrameOk .raw si ⟨kind, len, rb.contents .raw⟩ out := by
  have hlater := Si.alloc_later si
  have hfrag : si.alloc.2.frag.Ok := by rwa [hlater.frag]
  have hkinds : kind ≠ .dropped ∧ kind ≠ .rfs ∧ kind ≠ .frag := by
    rcases hkind with rfl | rfl <;> decide
  rw [hout]
  split
  next =>
    rcases Int.lt_or_le len 0 with hneg | hpos
    · rw [fill_negative hneg]
      exact .fault ⟨hkinds.1, not_lenOk_of_neg hneg⟩ rfl
    · have hfill := fill_ok h hpos (show len ≤ room by have := hroom hpos; omega)
        (ulong_long_add_one hpos hlt) (by have := hroom hpos; omega)
      rw [hfill]
      obtain ⟨received, hup⟩ := hsame ((rb.contents .raw).take (len + 1).toNat)
      dsimp only
      rw [hup]
      exact frameOk_of_read h (lenOk_of_nonneg hpos hkinds.2) ⟨hkinds.1, hkinds.2.1⟩ (by omega)
        (long_add_one hpos hlt) rfl hfrag fun _ => hlater.after hfrag le_rfl rfl rfl
  next hfails => exact .noMemory (Si.not_plenty_of_alloc hfails 1) rfl hfrag

theorem readPn_ok (res : Nat) :
    FrameOk .raw si ⟨.pn, len, rb.contents .raw⟩ (readPn si rb len res) := by
  refine frameOk_of_fill h hlt hsi (.inl rfl) (fun hpos => ?_) (fun _ => ⟨_, rfl⟩) rfl
  unfold ulong long
  omega

theorem readPdp_ok (res : Nat) : FrameOk .raw si
    ⟨if si.pdpDevs (res - pnPdpStart) then .pdp else .dropped, len, rb.contents .raw⟩
    (readPdp si rb len res) := by
  by_cases hdev : si.pdpDevs (res - pnPdpStart)
  · rw [if_pos hdev]
    unfold readPdp
    rw [if_pos hdev]
    refine frameOk_of_fill h hlt hsi (.inr rfl) (fun hpos => ?_) (fun _ => ⟨_, rfl⟩) rfl
    rw [ulong_long_add_one hpos hlt]
    omega
  · rw [if_neg hdev]
    unfold readPdp
    rw [if_neg hdev]
    have hsize : ulong (long (len + 1)) = ulong (len + 1) := by
      unfold ulong long
      omega
    obtain ⟨hread, htail, hrest⟩ := Ringbuf.read_tail h (ulong (len + 1))
    dsimp only
    rw [hsize]
    refine .whole rfl ?_ htail hrest ((Si.Later.refl si).after hsi le_rfl rfl rfl)
    dsimp only
    rw [hread, length_take, length_drop]
    congr 1
    omega

end

/-! ## Remote file system packets -/

/-- The buffers that `_alloc_rfs` allocates are enough. -/
theorem allocRfs_spec {fuel : Nat} (hfuel : len.toNat ≤ fuel) (hlt : len < 2 ^ 31) (si : Si) :
    si.Later (allocRfs fuel si len).2 ∧
    ((allocRfs fuel si len).1 = none → si.allocs ≠ []) ∧
    ∀ n, (allocRfs fuel si len).1 = some n → len ≤ n * rfsMtu ∧ (n = 0 ↔ len ≤ 0) := by
  induction fuel generalizing si len with
  | zero =>
    refine ⟨.refl si, nofun, ?_⟩
    rintro n ⟨⟩
    exact ⟨by omega, by omega⟩
  | succ fuel ih =>
    unfold allocRfs
    have hmtu : rfsMtu = 4032 := rfl
    split
    · have hrest : long (len - rfsMtu) = len - rfsMtu := long_of_mem (by omega) (by omega)
      dsimp only
      split
      next =>
        obtain ⟨hlater, hnone, hcount⟩ := @ih (len - rfsMtu) (by omega) (by omega) si.alloc.2
        rw [hrest]
        refine ⟨?_, fun hfails hnil => ?_, fun n hn => ?_⟩
        · obtain ⟨allocs, ha, hnil⟩ := Si.alloc_later si
          obtain ⟨allocs', ha', hnil'⟩ := hlater
          exact ⟨allocs', by rw [ha', ha], fun h => hnil' (by rw [ha]; exact hnil h)⟩
        · refine hnone (Option.map_eq_none_iff.mp hfails) ?_
          rw [Si.alloc_of_nil hnil, hnil]
        · obtain ⟨k, hk, rfl⟩ := Option.map_eq_some_iff.mp hn
          have henough := (hcount k hk).1
          rw [hmtu] at henough ⊢
          omega
      next hfails =>
        exact ⟨Si.alloc_later si, fun _ hnil => hfails (by rw [Si.alloc_of_nil hnil]), nofun⟩
    · refine ⟨.refl si, nofun, ?_⟩
      rintro n ⟨⟩
      exact ⟨by omega, by omega⟩

/-- The bytes for which `n` buffers have room, of which the first has `room`. -/
def rfsRoom : Nat → Int → Int
  | 0, _ => 0
  | n + 1, room => room + n * rfsMtu

/-- The buffers are filled with the first bytes of the ring, if there are as many. -/
theorem readRfsRb_spec {n : Nat} (h : rb.tail < IpcIdx.rfs.size) (hlen : 0 ≤ len)
    (hlt : len < 2 ^ 31) (hroom : 0 ≤ room) (hfits : len ≤ rfsRoom n room) :
    (readRfsRb n room rb len).2 = .ok none ∧ ((rb.contents .rfs).length : Int) < len ∨
    ∃ skbs, (readRfsRb n room rb len).2 = .ok (some skbs) ∧
      ((skbs.map length).sum : Int) = len ∧ len ≤ (rb.contents .rfs).length ∧
      (readRfsRb n room rb len).1.tail < IpcIdx.rfs.size ∧
      (readRfsRb n room rb len).1.contents .rfs = (rb.contents .rfs).drop len.toNat := by
  induction n generalizing rb len room with
  | zero =>
    right
    have hfits : len ≤ 0 := hfits
    obtain rfl : len = 0 := by omega
    exact ⟨[], rfl, rfl, Int.natCast_nonneg _, h, rfl⟩
  | succ n ih =>
    unfold readRfsRb
    generalize hrd : (if len < room then len else room) = rd
    have hrd₀ : 0 ≤ rd := by split at hrd <;> omega
    have hrd₁ : rd ≤ room := by split at hrd <;> omega
    have hsize : ulong rd = rd.toNat := by
      unfold ulong
      omega
    dsimp only
    rw [fill_ok h hrd₀ hrd₁ hsize (by omega)]
    obtain ⟨-, htail, hleft⟩ := Ringbuf.read_tail h rd.toNat
    have hlength : ((rb.contents .rfs).take rd.toNat).length =
        min rd.toNat (rb.contents .rfs).length := length_take
    dsimp only
    split
    next hshort =>
      refine .inl ⟨rfl, ?_⟩
      split at hrd <;> omega
    next hfull =>
      have hmtu : rfsMtu = 4032 := rfl
      have hrest : len - ((rb.contents .rfs).take rd.toNat).length ≤ rfsRoom n rfsMtu := by
        have hfits : len ≤ room + n * rfsMtu := hfits
        cases n with
        | zero =>
          show _ ≤ (0 : Int)
          split at hrd <;> omega
        | succ n =>
          show _ ≤ rfsMtu + n * rfsMtu
          rw [hmtu] at hfits ⊢
          split at hrd <;> omega
      rcases @ih (rb.read .rfs rd.toNat).1 (len - ((rb.contents .rfs).take rd.toNat).length) rfsMtu
        htail (by omega) (by omega) (by decide) hrest with
        ⟨hnone, hless⟩ | ⟨skbs, hsome, hsum, henough, htail', hend⟩
      · rw [hnone]
        rw [hleft, length_drop] at hless
        exact .inl ⟨rfl, by omega⟩
      · rw [hleft] at henough hend
        rw [length_drop] at henough
        rw [hsome]
        refine .inr ⟨_, rfl, ?_, by omega, htail', ?_⟩
        · rw [map_cons, sum_cons]
          omega
        · rw [hend, drop_drop]
          congr 1
          omega

/-- A negative length is used for the first buffer. -/
theorem readRfsRb_negative {n : Nat} (h : len < 0) (hroom : 0 ≤ room) :
    (readRfsRb (n + 1) room rb len).2 = .error .negative := by
  unfold readRfsRb
  have herr : (fill .rfs rb room len len).2 = .error .negative := fill_negative h
  rw [if_pos (by omega)]
  dsimp only
  rw [herr]

theorem readRfsData_ok (h : rb.tail < IpcIdx.rfs.size) (hsi : si.frag.Ok)
    (hlo : -(2 ^ 31) ≤ len) (hlt : len < 2 ^ 31) (hdr : List Byte) :
    FrameOk .rfs si ⟨.rfs, len, rb.contents .rfs⟩ (readRfsData si rb len hdr) := by
  obtain ⟨hlater, hnone, hcount⟩ := @allocRfs_spec (long (len + 6)) _ le_rfl (long_lt _) si
  have hfrag : (allocRfs (long (len + 6)).toNat si (long (len + 6))).2.frag.Ok := by
    rwa [hlater.frag]
  have hmtu : rfsMtu = 4032 := rfl
  have htotal : 0 ≤ len ∧ len + 6 < 2 ^ 31 → long (len + 6) = len + 6 :=
    fun hok => long_of_mem (by omega) hok.2
  have hpositive : ¬(0 ≤ len ∧ len + 6 < 2 ^ 31) → 0 < long (len + 6) → len < 0 := by
    unfold long
    omega
  have hlenOk : Incoming.LenOk ⟨.rfs, len, rb.contents .rfs⟩ ↔ 0 ≤ len ∧ len + 6 < 2 ^ 31 :=
    ⟨fun hok => ⟨hok.1, hok.2.1 rfl⟩, fun hok => ⟨hok.1, fun _ => hok.2, nofun⟩⟩
  unfold readRfsData
  dsimp only
  generalize allocRfs (long (len + 6)).toNat si (long (len + 6)) = a at hlater hnone hcount hfrag
  split
  next hfails =>
    exact .noMemory (fun hplenty => hnone hfails hplenty.allocs) rfl hfrag
  next hzero =>
    -- no buffer has been allocated
    have hle := (hcount 0 hzero).2.mp rfl
    refine .fault ⟨nofun, fun hok => ?_⟩ rfl
    have hlen := hlenOk.mp hok
    omega
  next n hn =>
    obtain ⟨henough, hne⟩ := hcount (n + 1) hn
    by_cases hok : 0 ≤ len ∧ len + 6 < 2 ^ 31
    · rw [hmtu] at henough
      have hfits : len ≤ rfsRoom (n + 1) (rfsMtu - 6) := by
        show len ≤ rfsMtu - 6 + n * rfsMtu
        rw [hmtu]
        omega
      have hfr := hlenOk.mpr hok
      have hzero : (if FrameKind.rfs = .rfs then (0 : Int) else 1) = 0 := rfl
      rcases readRfsRb_spec h hok.1 hlt (show 0 ≤ rfsMtu - 6 by decide) hfits with
        ⟨hbad, hless⟩ | ⟨skbs, hsome, hsum, hcount, htail, hrest⟩
      · rw [hbad]
        refine .rejected (Incoming.next_of_short nofun ?_) hfr rfl hfrag
        show ¬len + 0 ≤ ((rb.contents .rfs).length : Int)
        omega
      · rw [hsome]
        obtain ⟨hend, htail', hrest'⟩ := Ringbuf.read_tail htail 1
        refine .whole (Incoming.next_of_lenOk nofun hfr ?_) ?_ htail' ?_
          (hlater.after hfrag le_rfl rfl rfl)
        · show len + 0 ≤ ((rb.contents .rfs).length : Int)
          omega
        · dsimp only
          rw [hend, hrest, length_take, length_drop, length_drop]
          congr 1
          omega
        · dsimp only
          rw [hrest', hrest, drop_drop]
          congr 1
          omega
    · have hpos : 0 < long (len + 6) := by
        by_contra hle
        exact absurd (hne.mpr (by omega)) (Nat.succ_ne_zero n)
      rw [readRfsRb_negative (hpositive hok hpos) (by decide)]
      exact .fault ⟨nofun, fun hfr => hok (hlenOk.mp hfr)⟩ rfl

/-! ## Formatted packets -/

theorem fillSkb_ok {blocks : List FragBlock} (hok : ∀ fb ∈ blocks, fb.Ok)
    (h : ((blocks.map FragBlock.len).sum : Int) ≤ room) : fillSkb room blocks =
      .ok (blocks.flatMap FragBlock.data, room - (blocks.map FragBlock.len).sum) := by
  induction blocks generalizing room with
  | nil => simp [fillSkb]
  | cons fb blocks ih =>
    have hbound := (hok fb mem_cons_self).bound
    rw [map_cons, sum_cons] at h ⊢
    unfold fillSkb
    rw [if_neg (by omega), ih (fun x hx => hok x (mem_cons_of_mem fb hx)) (by omega)]
    simp only [Except.map, flatMap_cons, Except.ok.injEq, Prod.mk.injEq, true_and]
    omega

/-- What `_read_fmt_last` gets from `_find_frag_list`. -/
structure Found (fh : FragHead) (found : Option FragList) : Prop where
  mem : ∀ fl, found = some fl → fl ∈ fh.head

/-- The fragments leave room for the rest of the packet. -/
theorem fillSkb_found {found : Option FragList} (hsi : si.frag.Ok) (hpos : 0 ≤ len)
    (hhi : len < 2 ^ 16) (hfound : Found si.frag found) :
    fillSkb (ulong (long (len + (found.map (·.len)).getD 0) + 7 + 1) - 7)
      ((found.map (·.blocks)).getD []) = .ok (((found.map (·.data)).getD []), len + 1) := by
  -- the length of the list is that of its blocks
  have htotal : ((found.map (·.len)).getD 0 =
        (((found.map (·.blocks)).getD []).map FragBlock.len).sum) ∧
      (found.map (·.len)).getD 0 ≤ fragBlockMax * fragBlocks ∧
      ∀ fb ∈ (found.map (·.blocks)).getD [], fb.Ok := by
    cases found with
    | none => exact ⟨rfl, Nat.zero_le _, nofun⟩
    | some fl =>
      have hok := hsi.lists fl (hfound.mem fl rfl)
      exact ⟨hok.len, hsi.len_le (hfound.mem fl rfl), hok.block⟩
  have hdata : ((found.map (·.blocks)).getD []).flatMap FragBlock.data =
      (found.map (·.data)).getD [] := by
    cases found <;> rfl
  have hblocks : fragBlockMax * fragBlocks = 2139095040 := by decide
  generalize (found.map (·.len)).getD 0 = total at htotal
  have hroom : (ulong (long (len + total) + 7 + 1) : Int) - 7 = len + total + 1 := by
    unfold ulong long
    omega
  rw [fillSkb_ok htotal.2.2 (by omega), hdata]
  congr 2
  omega

/-- A block to which `data` is added. -/
theorem FragBlock.Ok.add {fb : FragBlock} (h : fb.Ok) {bytes : List Byte} {n : Nat}
    (hlen : bytes.length = n + 1) (hroom : fb.len + (n + 1) ≤ fragBlockMax) :
    (fb.add bytes n).Ok ∧ (fb.add bytes n).len = fb.len + n ∧
      (fb.add bytes n).data = fb.data ++ bytes.take n := by
  have hmax : fragBlockMax = 4080 := rfl
  have hadd : ulong ((fb.len : Int) + n) = fb.len + n := by
    unfold ulong
    omega
  have hdata : (fb.add bytes n).data = fb.data ++ bytes.take n := by
    unfold FragBlock.add
    dsimp only
    rw [← Nat.cast_add, Int.toNat_natCast, take_append, Nat.add_sub_cancel_left,
      take_of_length_le (Nat.le_add_right ..)]
  refine ⟨⟨?_, ?_⟩, hadd, hdata⟩
  · rw [hdata, length_append, length_take, h.data]
    show _ = ulong ((fb.len : Int) + n)
    omega
  · show ulong ((fb.len : Int) + n) ≤ _
    omega

section

variable (h : rb.tail < IpcIdx.fmt.size) (hsi : si.frag.Ok) (hhi : len < 2 ^ 16)

include h hsi hhi

/-- The list of a packet with one fragment more. -/
theorem readFragBlock_ok {fl fl' : FragList} (hfl : fl ∈ si.frag.head)
    (hsize : ulong (len + 1) ≤ fragBlockMax) (hlo : -3 ≤ len)
    (hready : Si.Ready si.frag fl fl' (ulong (len + 1))) :
    FrameOk .fmt si ⟨.frag, len, rb.contents .fmt⟩ (readFragBlock si rb fl' len) := by
  obtain ⟨before, fb, hblocks, hroom⟩ := hready.last
  have hmax : fragBlockMax = 4080 := rfl
  have hlen : ulong (len + 1) = (len + 1).toNat ∧ -1 ≤ len := by
    unfold ulong at hsize ⊢
    omega
  by_cases hneg : len = -1
  · exact .negative ⟨rfl, hneg⟩
  obtain ⟨n, rfl⟩ : ∃ n : Nat, len = n := ⟨len.toNat, by omega⟩
  have hone : ulong ((n : Int) + 1) = n + 1 := by omega
  rw [hone] at hroom hready
  have hread := (sees_contents h (n + 1)).read
  have hlast : fl'.blocks.getLastD ⟨0, []⟩ = fb := by simp [hblocks]
  have hbefore : fl'.blocks.dropLast = before := by simp [hblocks]
  have hshort : ((rb.contents .fmt).take (n + 1)).length ≤ n + 1 := length_take_le ..
  have hoffset : long (fb.len : Int) = fb.len := long_of_mem (by omega) (by omega)
  have hok : Incoming.LenOk ⟨.frag, (n : Int), rb.contents .fmt⟩ :=
    ⟨Int.natCast_nonneg n, nofun, fun _ => show (n : Int) + 1 ≤ fragBlockMax by omega⟩
  have hinside : ¬((rb.contents .fmt).take (n + 1) ≠ [] ∧ ¬(0 ≤ long (fb.len : Int) ∧
      long (fb.len : Int) + ((rb.contents .fmt).take (n + 1)).length ≤ fragBlockMax)) :=
    fun hout => hout.2 (by omega)
  unfold readFragBlock
  rw [hlast, hbefore, hone]
  dsimp only
  rw [hread, if_neg hinside]
  refine frameOk_of_read h hok ⟨nofun, nofun⟩ rfl (.inl rfl) rfl (hsi.destroy _) fun hfull => ?_
  -- the list with the fragment is well-formed
  have hblock := hready.ok.block
  rw [hblocks] at hblock
  obtain ⟨hbefore, hfb⟩ := forall_mem_append.mp hblock
  have hbytes : ((rb.contents .fmt).take (n + 1)).length = n + 1 := by omega
  obtain ⟨hadd, haddLen, -⟩ := (forall_mem_singleton.mp hfb).add hbytes hroom
  have hsum := hready.ok.len
  have hbound := hsi.len_le hfl
  have hcount := hready.count
  have hgrown := hready.grown
  have hlimit : fragBlockMax * fragBlocks < 2 ^ 31 := by decide
  rw [← hready.len] at hbound
  rw [hblocks, length_append, length_singleton] at hcount hgrown
  refine ⟨hsi.set hfl hready.id ⟨?_, ?_⟩ ?_, rfl, fun k hk => ⟨hk.allocs, ?_⟩⟩
  · have hsmall : ulong ((fl'.len : Int) + n) = fl'.len + n := by
      unfold ulong
      omega
    rw [hsmall, hsum, hblocks]
    simp [haddLen]
    omega
  · exact forall_mem_append.mpr ⟨hbefore, forall_mem_singleton.mpr hadd⟩
  · rw [length_append, length_singleton]
    exact hcount
  · have hset := @FragHead.Ok.blockCount_set si.frag fl
      { fl' with
        len := ulong (fl'.len + n)
        blocks := before ++ [fb.add ((rb.contents .fmt).take (n + 1)) n] } hsi hfl hready.id
    have hmem := hk.blocks
    rw [length_append, length_singleton] at hset
    dsimp only
    omega

theorem readFragOf_ok {fl : FragList} (hfl : fl ∈ si.frag.head) (hlo : -3 ≤ len) :
    FrameOk .fmt si ⟨.frag, len, rb.contents .fmt⟩ (readFragOf si rb fl len) := by
  have hprepared := Si.prepareFragBlock_prepared hsi hfl (len + 1)
  unfold readFragOf
  generalize si.prepareFragBlock fl (len + 1) = out at hprepared
  cases hprepared with
  | bug hsize =>
    refine .fault ⟨nofun, fun hok => ?_⟩ rfl
    have hlen : 0 ≤ len ∧ len + 1 ≤ fragBlockMax := ⟨hok.1, hok.2.2 rfl⟩
    unfold ulong at hsize
    omega
  | noMemory hsize hlater hmem =>
    have hfrag := hlater.frag ▸ hsi
    refine .noMemory hmem rfl ?_
    dsimp only
    split
    · exact hfrag.destroy _
    · exact hfrag
  | ready hsize hlater hready =>
    have hsame := hlater.frag
    exact (readFragBlock_ok h (hsame ▸ hsi) hhi (hsame ▸ hfl) hsize hlo (hsame ▸ hready)).mono
      hlater.devs fun _ hn => hn.later hlater

theorem readFmtFrag_ok (hlo : -3 ≤ len) (control : Byte) :
    FrameOk .fmt si ⟨.frag, len, rb.contents .fmt⟩ (readFmtFrag si rb control len) := by
  unfold readFmtFrag
  rcases Si.fragListOf_cases hsi (msgIdOf control) with
    ⟨fl, hfl, hid, hof⟩ | ⟨hnew, si', hlater, ⟨hfails, hof⟩ | hof⟩
  · rw [hof]
    exact readFragOf_ok h hsi hhi hfl hlo
  · rw [hof]
    exact .noMemory (fun hplenty => hfails hplenty.allocs) rfl (hlater.frag ▸ hsi)
  · rw [hof]
    refine (readFragOf_ok h (hsi.create hnew) hhi mem_cons_self hlo).mono hlater.devs fun n hn => ?_
    have hblocks := hn.blocks
    refine ⟨(hn.later hlater).allocs, ?_⟩
    unfold FragHead.blockCount at hblocks ⊢
    simpa using hblocks

theorem readLastOf_ok {found : Option FragList} (hfound : Found si.frag found) :
    FrameOk .fmt si ⟨.last, len, rb.contents .fmt⟩ (readLastOf si rb found len) := by
  have hlater := Si.alloc_later si
  have hfrag : si.alloc.2.frag.Ok := by rwa [hlater.frag]
  have hdestroy : (si.alloc.2.destroyFound found).frag.Ok ∧
      (si.alloc.2.destroyFound found).frag.blockCount ≤ si.alloc.2.frag.blockCount := by
    cases found with
    | none => exact ⟨hfrag, le_rfl⟩
    | some fl => exact ⟨hfrag.destroy _, FragHead.blockCount_destroy_le ..⟩
  have hsame : (si.alloc.2.destroyFound found).allocs = si.alloc.2.allocs ∧
      (si.alloc.2.destroyFound found).pdpDevs = si.alloc.2.pdpDevs := by
    cases found <;> exact ⟨rfl, rfl⟩
  unfold readLastOf
  dsimp only
  split
  next =>
    rcases Int.lt_or_le len 0 with hneg | hpos
    · split
      · exact .fault ⟨nofun, not_lenOk_of_neg hneg⟩ rfl
      next room _ =>
        have herr : (fill .fmt rb room len (len + 1)).2 = .error .negative := fill_negative hneg
        rw [herr]
        exact .fault ⟨nofun, not_lenOk_of_neg hneg⟩ rfl
    · rw [fillSkb_found hsi hpos hhi hfound]
      have hsize : ulong (len + 1) = (len + 1).toNat := by
        unfold ulong
        omega
      dsimp only
      rw [fill_ok h hpos (by omega) hsize (by omega)]
      exact frameOk_of_read h (lenOk_of_nonneg hpos ⟨nofun, nofun⟩) ⟨nofun, nofun⟩ (by omega)
        (.inl rfl) rfl hdestroy.1 fun _ => hlater.after hdestroy.1 hdestroy.2 hsame.1 hsame.2
  next hfails => exact .noMemory (Si.not_plenty_of_alloc hfails 1) rfl hfrag

theorem readFmtLast_ok (control : Byte) :
    FrameOk .fmt si ⟨.last, len, rb.contents .fmt⟩ (readFmtLast si rb control len) := by
  unfold readFmtLast
  rcases hsi.find_cases (msgIdOf control) with ⟨hfind, -⟩ | ⟨fl, hfl, -, hfind⟩
  · rw [hfind]
    exact readLastOf_ok h hsi hhi ⟨nofun⟩
  · rw [hfind]
    exact readLastOf_ok h hsi hhi ⟨fun fl' heq => by cases heq; exact hfl⟩

end

end AndroidKernel.Sipc
