import AndroidKernel.Lib.Runs
import AndroidKernel.Sipc.Write
import Mathlib.Data.Nat.Bitwise

/-!
# What sending appends to the out buffers

A call of `_write_fmt` appends at most one frame: either the rest of the packet fits, or
the frame fills the ring and there is no space for another one. So a call that has
written a part of a packet always returns `-ENOSPC`, and the modem is not told of that
part unless another formatted packet was written before it: the first formatted packet of
which something is left to be sent decides. Only `sipc_whitelist` can append a part of a frame.
-/

namespace AndroidKernel.Sipc

open Function List

variable {idx : IpcIdx} {rb rb' : OutRing} {data : List Byte} {offset len fuel : Nat}

theorem length_fmtBuf (control : Byte) (data : List Byte) :
    (fmtBuf control data).length = data.length + 5 := by
  simp [fmtBuf]
  omega

/-! ## One call of `_write_fmt` -/

/-- What the loop of `_write_fmt` can do from `offset` on. -/
inductive FmtWritten (rb : OutRing) (data : List Byte) (offset len : Nat) : FmtLoop → Prop
  | nothing (h : data.length ≤ offset) : FmtWritten rb data offset len ⟨rb, offset, len⟩
  | noSpace (h : offset < data.length) (hspace : rb.toRingbuf.space .fmt < 10) :
      FmtWritten rb data offset len ⟨rb, offset, enospc⟩
  | last {rb' : OutRing} (h : offset < data.length)
      (hspace : data.length - offset + 5 ≤ rb.toRingbuf.space .fmt)
      (hw : Written .fmt rb rb' (fmtBuf (if offset = 0 then 0x00 else 0x01) (data.drop offset))) :
      FmtWritten rb data offset len
        ⟨rb', data.length, (len + (data.length - offset + 5) : Nat)⟩
  | part {rb' : OutRing} (hspace : 10 ≤ rb.toRingbuf.space .fmt)
      (h : rb.toRingbuf.space .fmt < data.length - offset + 5)
      (hw : Written .fmt rb rb'
        (fmtBuf 0x81 ((data.drop offset).take (rb.toRingbuf.space .fmt - 5)))) :
      FmtWritten rb data offset len
        ⟨rb', offset + (rb.toRingbuf.space .fmt - 5), enospc⟩

/-- The space that `_write_fmt` computes with. -/
theorem circSpace_eq (rb : OutRing) :
    (circSpace rb.head rb.tail IpcIdx.fmt.size : Int) = rb.toRingbuf.space .fmt := rfl

/-- Where there is no space for a frame nothing is written. -/
theorem writeFmtLoop_noSpace (h : offset < data.length) (hspace : rb.toRingbuf.space .fmt < 10) :
    writeFmtLoop data (fuel + 1) rb offset len = ⟨rb, offset, enospc⟩ := by
  unfold writeFmtLoop
  rw [if_neg (by omega), if_pos]
  rw [circSpace_eq]
  unfold fmtTxMin
  omega

theorem writeFmtLoop_written (hrb : rb.toRingbuf.Valid .fmt) (hfuel : data.length - offset ≤ fuel) :
    FmtWritten rb data offset len (writeFmtLoop data fuel rb offset len) := by
  rcases Nat.lt_or_ge offset data.length with hoff | hoff
  · obtain ⟨fuel, rfl⟩ : ∃ n, fuel = n + 1 := ⟨fuel - 1, by omega⟩
    rcases Nat.lt_or_ge (rb.toRingbuf.space .fmt) 10 with hspace | hspace
    · rw [writeFmtLoop_noSpace hoff hspace]
      exact .noSpace hoff hspace
    unfold writeFmtLoop
    rw [circSpace_eq, if_neg (by omega), if_neg (by unfold fmtTxMin; omega)]
    rcases Nat.lt_or_ge (rb.toRingbuf.space .fmt) (data.length - offset + 5) with hpart | hlast
    · -- the frame fills the ring
      have hmore : (rb.toRingbuf.space .fmt : Int) - (3 + 1 + 1) < data.length - offset := by omega
      simp only [if_pos hmore]
      have hwlen : ((rb.toRingbuf.space .fmt : Int) - (3 + 1 + 1)).toNat =
          rb.toRingbuf.space .fmt - 5 := by omega
      rw [hwlen]
      have hframe : (fmtBuf 0x81 ((data.drop offset).take (rb.toRingbuf.space .fmt - 5))).length =
          rb.toRingbuf.space .fmt := by
        rw [length_fmtBuf, length_take, length_drop]
        omega
      obtain ⟨hw, hn⟩ := OutRing.write_fits hrb hframe.le
      have hfull := hw.space hrb
      obtain ⟨fuel, rfl⟩ : ∃ n, fuel = n + 1 := ⟨fuel - 1, by omega⟩
      rw [hn, hframe, writeFmtLoop_noSpace (by omega) (by omega)]
      exact .part hspace hpart hw
    · -- the rest of the packet fits
      have hmore : ¬(rb.toRingbuf.space .fmt : Int) - (3 + 1 + 1) < data.length - offset := by
        omega
      simp only [if_neg hmore]
      have hwlen : ((data.length : Int) - offset).toNat = data.length - offset := by omega
      have htake : (data.drop offset).take (data.length - offset) = data.drop offset :=
        take_of_length_le length_drop.le
      rw [hwlen, htake]
      have hframe (control : Byte) : (fmtBuf control (data.drop offset)).length =
          data.length - offset + 5 := by
        rw [length_fmtBuf, length_drop]
      have hfits : (fmtBuf (if offset = 0 then 0x00 else 0x01) (data.drop offset)).length ≤
          rb.toRingbuf.space .fmt := by
        rw [hframe]
        exact hlast
      obtain ⟨hw, hn⟩ := OutRing.write_fits hrb hfits
      have hend (rb' : OutRing) : writeFmtLoop data fuel rb' data.length
          (len + (data.length - offset + 5)) =
          ⟨rb', data.length, (len + (data.length - offset + 5) : Nat)⟩ := by
        cases fuel with
        | zero => rfl
        | succ fuel =>
          unfold writeFmtLoop
          rw [if_pos (by omega)]
      have hoffset : offset + (data.length - offset + 5 - (1 + 3 + 1)) = data.length := by omega
      rw [hn, hframe, hoffset, hend]
      exact .last hoff hlast hw
  · have hdone : writeFmtLoop data fuel rb offset len = ⟨rb, offset, len⟩ := by
      cases fuel with
      | zero => rfl
      | succ fuel =>
        unfold writeFmtLoop
        rw [if_pos (by omega)]
    rw [hdone]
    exact .nothing hoff

/-! ## One call of `_write` -/

/-- Raw and remote file system packets are written whole, if there is space for the `len` bytes of
their frames, or not at all. -/
inductive WholeOrNot (idx : IpcIdx) (rb : OutRing) (len : Nat) : OutRing × Int → Prop
  | noSpace (hspace : rb.toRingbuf.space idx < len) : WholeOrNot idx rb len (rb, enospc)
  | whole {rb' : OutRing} {block : List Byte} (hspace : len ≤ rb.toRingbuf.space idx)
      (hw : Written idx rb rb' block) (hlen : block.length = len) :
      WholeOrNot idx rb len (rb', (len : Nat))

/-- Something that writes has written a block whole. -/
structure Wrote (idx : IpcIdx) (rb : OutRing) (out : OutRing × Nat) (block : List Byte) : Prop where
  written : Written idx rb out.1 block
  tail : out.1.tail = rb.tail
  count : out.2 = block.length

theorem writeLoop_tail (idx : IpcIdx) (fuel : Nat) (rb : OutRing) (buf : List Byte) :
    (writeLoop idx fuel rb buf).1.tail = rb.tail := by
  induction fuel generalizing rb buf with
  | zero => rfl
  | succ fuel ih =>
    unfold writeLoop
    dsimp only
    split
    · rfl
    · exact ih ..

namespace Wrote

variable {out : OutRing × Nat} {block next : List Byte}

theorem of_fits (h : rb.toRingbuf.Valid idx) (hfits : block.length ≤ rb.toRingbuf.space idx) :
    Wrote idx rb (rb.write idx block) block := by
  obtain ⟨hw, hn⟩ := OutRing.write_fits h hfits
  exact ⟨hw, writeLoop_tail .., hn⟩

/-- One more block, for which there is space. -/
theorem write (h : Wrote idx rb out block) (hrb : rb.toRingbuf.Valid idx)
    (hfits : (block ++ next).length ≤ rb.toRingbuf.space idx) :
    Wrote idx rb ((out.1.write idx next).1, out.2 + (out.1.write idx next).2) (block ++ next) := by
  have hspace := h.written.space hrb
  rw [length_append] at hfits
  obtain ⟨hw, htail, hn⟩ := of_fits h.written.valid (show next.length ≤ _ by omega)
  exact ⟨h.written.trans hw, htail.trans h.tail, by rw [h.count, hn, length_append]⟩

theorem wholeOrNot (h : Wrote idx rb out block) (hfits : block.length ≤ rb.toRingbuf.space idx) :
    WholeOrNot idx rb block.length (out.1, out.2) := by
  rw [h.count]
  exact .whole hfits h.written rfl

end Wrote

/-- The frame of a raw packet. -/
def rawFrame (res : Nat) (data : List Byte) : List Byte :=
  hdlcStart :: (rawHdr res (data.length + 6) ++ (data ++ [hdlcEnd]))

theorem length_rawFrame (res : Nat) (data : List Byte) :
    (rawFrame res data).length = data.length + 8 := by
  simp [rawFrame, rawHdr]
  omega

/-- The frame of a remote file system packet. -/
def rfsFrame (data : List Byte) : List Byte := hdlcStart :: (data ++ [hdlcEnd])

theorem length_rfsFrame (data : List Byte) : (rfsFrame data).length = data.length + 2 := by
  simp [rfsFrame]

theorem writeRawBuf_wrote (h : rb.toRingbuf.Valid .raw) (res : Nat) (skb : Skb)
    (hfits : skb.data.length + 8 ≤ rb.toRingbuf.space .raw) :
    Wrote .raw rb (writeRawBuf rb res skb) (rawFrame res skb.data) := by
  have hhdr : (rawHdr res (skb.data.length + 6)).length = 6 := by simp [rawHdr]
  refine Wrote.write (Wrote.write (Wrote.write (Wrote.of_fits h ?_) h ?_) h ?_) h ?_
  all_goals
    simp only [length_append, length_singleton]
    omega

theorem writeRfsBuf_wrote (h : rb.toRingbuf.Valid .rfs) (skb : Skb)
    (hfits : skb.data.length + 2 ≤ rb.toRingbuf.space .rfs) :
    Wrote .rfs rb (writeRfsBuf rb skb) (rfsFrame skb.data) := by
  refine Wrote.write (Wrote.write (Wrote.of_fits h ?_) h ?_) h ?_
  all_goals
    simp only [length_append, length_singleton]
    omega

theorem writeRaw_spec (h : rb.toRingbuf.Valid .raw) (skb : Skb) (res : Nat) :
    WholeOrNot .raw rb (skb.data.length + 8) (writeRaw rb skb res) := by
  have hshort := skb.short
  have hlen : ulong ((skb.data.length : Int) + 6 + 1 + 1) = skb.data.length + 8 := by
    unfold ulong
    omega
  have hframe := length_rawFrame res skb.data
  unfold writeRaw
  rw [hlen]
  split
  next hspace => exact .noSpace hspace
  next hspace =>
    rw [← hframe] at hspace ⊢
    have hfits := Nat.not_lt.mp hspace
    split
    · exact (Wrote.of_fits h hfits).wholeOrNot hfits
    · exact (writeRawBuf_wrote h res skb (hframe ▸ hfits)).wholeOrNot hfits

theorem writeRfs_spec (h : rb.toRingbuf.Valid .rfs) (skb : Skb) :
    WholeOrNot .rfs rb (skb.data.length + 2) (writeRfs rb skb) := by
  have hshort := skb.short
  have hlen : ulong ((skb.data.length : Int) + 1 + 1) = skb.data.length + 2 := by
    unfold ulong
    omega
  have hframe := length_rfsFrame skb.data
  unfold writeRfs
  rw [hlen]
  split
  next hspace => exact .noSpace hspace
  next hspace =>
    rw [← hframe] at hspace ⊢
    have hfits := Nat.not_lt.mp hspace
    split
    · exact (Wrote.of_fits h hfits).wholeOrNot hfits
    · exact (writeRfsBuf_wrote h skb (hframe ▸ hfits)).wholeOrNot hfits

namespace Tx

/-- All rings are well-formed. -/
def Valid (tx : Tx) : Prop := ∀ idx, (tx.out idx).toRingbuf.Valid idx

/-- A block has been appended to one ring. -/
structure Appended (tx tx' : Tx) (idx : IpcIdx) (block : List Byte) : Prop where
  other : ∀ j, j ≠ idx → tx'.out j = tx.out j
  written : Written idx (tx.out idx) (tx'.out idx) block

theorem Appended.valid {tx tx' : Tx} {idx : IpcIdx} {block : List Byte}
    (h : Appended tx tx' idx block) (htx : tx.Valid) : tx'.Valid := by
  intro j
  by_cases hj : j = idx
  · subst hj
    exact h.written.valid
  · rw [h.other j hj]
    exact htx j

variable {tx : Tx}

theorem setOut_self (tx : Tx) (idx : IpcIdx) (rb : OutRing) : (tx.setOut idx rb).out idx = rb :=
  update_self ..

theorem setOut_other (tx : Tx) {idx j : IpcIdx} (h : j ≠ idx) (rb : OutRing) :
    (tx.setOut idx rb).out j = tx.out j :=
  update_of_ne h ..

theorem appended_setOut {idx : IpcIdx} {rb : OutRing} {block : List Byte}
    (h : Written idx (tx.out idx) rb block) : Appended tx (tx.setOut idx rb) idx block :=
  ⟨fun _ hj => tx.setOut_other hj rb, by rwa [setOut_self]⟩

theorem fmtLoop_written (h : tx.Valid) (skb : Skb) :
    FmtWritten (tx.out .fmt) skb.data (tx.fmtOffset skb) 0 (tx.fmtLoop skb) :=
  writeFmtLoop_written (h .fmt) (by omega)

@[simp] theorem writeFmt_out (tx : Tx) (skb : Skb) :
    (tx.writeFmt skb).1.out .fmt = (tx.fmtLoop skb).rb := by
  simp [writeFmt]

theorem appended_writeFmt {skb : Skb} {block : List Byte}
    (h : Written .fmt (tx.out .fmt) (tx.fmtLoop skb).rb block) :
    Appended tx (tx.writeFmt skb).1 .fmt block :=
  ⟨fun _ hj => update_of_ne hj .., by rwa [writeFmt_out]⟩

/-- What is appended is nothing or one frame. -/
theorem writeFmt_appended (h : tx.Valid) (skb : Skb) :
    ∃ block, Appended tx (tx.writeFmt skb).1 .fmt block ∧
      (block = [] ∨ ∃ control data, 3 + data.length < 2 ^ 16 ∧ block = fmtBuf control data) := by
  have happ := fun block => @appended_writeFmt tx skb block
  have hspace := (h .fmt).space_eq
  have hsize : IpcIdx.fmt.size = 4096 := rfl
  have hloop := fmtLoop_written h skb
  generalize tx.fmtLoop skb = l at happ hloop
  cases hloop with
  | nothing | noSpace => exact ⟨[], happ [] (.nil (h .fmt)), .inl rfl⟩
  | last _ _ hw =>
    refine ⟨_, happ _ hw, .inr ⟨_, _, ?_, rfl⟩⟩
    rw [length_drop]
    omega
  | part _ _ hw =>
    refine ⟨_, happ _ hw, .inr ⟨_, _, ?_, rfl⟩⟩
    rw [length_take]
    omega

theorem WholeOrNot.appended {idx : IpcIdx} {len : Nat} {written : OutRing × Int} (h : tx.Valid)
    (hw : WholeOrNot idx (tx.out idx) len written) :
    ∃ block, Appended tx (tx.setOut idx written.1) idx block := by
  cases hw with
  | noSpace => exact ⟨[], appended_setOut (.nil (h idx))⟩
  | whole _ hw => exact ⟨_, appended_setOut hw⟩

theorem writeRing_appended (h : tx.Valid) (skb : Skb) (idx : IpcIdx) :
    ∃ block, Appended tx (tx.writeRing skb idx).1 idx block := by
  cases idx with
  | fmt =>
    obtain ⟨block, happ, -⟩ := writeFmt_appended h skb
    exact ⟨block, happ⟩
  | raw => exact WholeOrNot.appended h (writeRaw_spec (h .raw) skb skb.res)
  | rfs => exact WholeOrNot.appended h (writeRfs_spec (h .rfs) skb)

theorem write_valid (h : tx.Valid) (skb : Skb) (mailbox : Nat) :
    (tx.write skb mailbox).1.Valid := by
  unfold Tx.write
  split
  · exact h
  next ring _ =>
    obtain ⟨block, happ⟩ := writeRing_appended h skb ring
    exact happ.valid h

end Tx

/-! ## The mailbox word -/

/-- The word has a bit of the mask. -/
def Carries (word mask : Nat) : Prop := word &&& mask ≠ 0
  deriving Decidable

/-- The number of the bit by which data in a ring is announced. -/
def sendBit : IpcIdx → Nat
  | .fmt => 1
  | .raw => 0
  | .rfs => 8

theorem carries_maskSend (word : Nat) (idx : IpcIdx) :
    Carries word (mbData idx).maskSend ↔ word.testBit (sendBit idx) = true := by
  have hmask : (mbData idx).maskSend = 2 ^ sendBit idx := by cases idx <;> rfl
  unfold Carries
  rw [hmask, Nat.and_two_pow]
  cases word.testBit (sendBit idx) <;> simp

theorem carries_or_maskSend (word : Nat) (idx j : IpcIdx) :
    Carries (word ||| (mbData j).maskSend) (mbData idx).maskSend ↔
      Carries word (mbData idx).maskSend ∨ idx = j := by
  have hmask : (mbData j).maskSend = 2 ^ sendBit j := by cases j <;> rfl
  have hbit : sendBit j = sendBit idx ↔ idx = j := by cases idx <;> cases j <;> simp [sendBit]
  rw [carries_maskSend, carries_maskSend, hmask, Nat.testBit_or, Nat.testBit_two_pow]
  simp [hbit]

theorem not_carries_zero (idx : IpcIdx) : ¬Carries 0 (mbData idx).maskSend := by
  cases idx <;> decide

/-- `MB_DATA` adds none of these bits. -/
theorem carries_mbDataWord (word : Nat) (idx : IpcIdx) :
    Carries (mbDataWord word) (mbData idx).maskSend ↔ Carries word (mbData idx).maskSend := by
  have hvalid : (0x0080 : Nat) = 2 ^ 7 := rfl
  have hbit : 7 ≠ sendBit idx := by cases idx <;> decide
  rw [carries_maskSend, carries_maskSend, mbDataWord, Nat.testBit_or, hvalid,
    Nat.testBit_two_pow]
  simp [hbit]

namespace Tx

variable {tx tx₀ tx' : Tx} {mailbox : Nat}

/-- The mailbox word announces exactly the rings to which something has been appended. -/
def Announced (tx₀ tx : Tx) (mailbox : Nat) : Prop :=
  ∀ idx, ∃ block, (tx.out idx).appended = (tx₀.out idx).appended ++ block ∧
    (Carries mailbox (mbData idx).maskSend ↔ block ≠ [])

theorem Announced.refl (tx : Tx) : Announced tx tx 0 := by
  intro idx
  exact ⟨[], (append_nil _).symm, by simp [not_carries_zero]⟩

/-- A block is appended and announced. -/
theorem Announced.append (h : Announced tx₀ tx mailbox) {ring : IpcIdx} {block : List Byte}
    (happ : Appended tx tx' ring block) (hne : block ≠ []) :
    Announced tx₀ tx' (mailbox ||| (mbData ring).maskSend) := by
  intro idx
  obtain ⟨before, heq, hiff⟩ := h idx
  rw [carries_or_maskSend]
  by_cases hidx : idx = ring
  · subst hidx
    refine ⟨before ++ block, by rw [happ.written.appended, heq, append_assoc], ?_⟩
    simp [hne]
  · refine ⟨before, by rw [happ.other idx hidx, heq], ?_⟩
    rw [hiff]
    simp [hidx]

/-- Each ring that is not as it was before is announced. -/
def AllTold (tx₀ tx : Tx) (mailbox : Nat) : Prop :=
  ∀ idx, (tx.out idx).appended ≠ (tx₀.out idx).appended → Carries mailbox (mbData idx).maskSend

theorem Announced.allTold (h : Announced tx₀ tx mailbox) : AllTold tx₀ tx mailbox := by
  intro idx hne
  obtain ⟨block, heq, hiff⟩ := h idx
  refine hiff.mpr fun hnil => hne ?_
  rw [heq, hnil, append_nil]

/-- A block is appended and not announced. -/
theorem Announced.allTold_append_iff (h : Announced tx₀ tx mailbox) {ring : IpcIdx}
    {block : List Byte} (happ : Appended tx tx' ring block) (hne : block ≠ []) :
    AllTold tx₀ tx' mailbox ↔ Carries mailbox (mbData ring).maskSend := by
  constructor
  · intro htold
    refine htold ring ?_
    obtain ⟨before, heq, -⟩ := h ring
    rw [happ.written.appended, heq, append_assoc, Ne, append_right_eq_self, append_eq_nil_iff]
    exact fun hnil => hne hnil.2
  · intro hcarries idx hidx
    by_cases hring : idx = ring
    · exact hring ▸ hcarries
    · rw [happ.other idx hring] at hidx
      exact h.allTold idx hidx

def space (tx : Tx) (idx : IpcIdx) : Nat := (tx.out idx).toRingbuf.space idx

theorem space_of_appended {ring : IpcIdx} {block : List Byte} (happ : Appended tx tx' ring block)
    (htx : tx.Valid) : tx'.space = update tx.space ring (tx.space ring - block.length) := by
  funext idx
  by_cases hidx : idx = ring
  · subst hidx
    rw [update_self]
    exact happ.written.space (htx idx)
  · rw [update_of_ne hidx, space, happ.other idx hidx]
    rfl

/-- The first formatted packet of a queue of which something is left to be sent finds no space at
all or space for the whole, if the packets before it can be written. -/
def FirstWhole : (space : IpcIdx → Nat) → (frag : FragInfo) → List Skb → Prop
  | _, _, [] => True
  | space, frag, skb :: rest =>
    match resToRidx skb.res with
    | none => True
    | some .fmt =>
      let offset := if frag.skb = some skb.id then frag.offset else 0
      if skb.data.length ≤ offset then FirstWhole space ⟨some skb.id, offset⟩ rest
      else space .fmt < 10 ∨ skb.data.length - offset + 5 ≤ space .fmt
    | some .raw =>
      let len := skb.data.length + 8
      len ≤ space .raw → FirstWhole (update space .raw (space .raw - len)) frag rest
    | some .rfs =>
      let len := skb.data.length + 2
      len ≤ space .rfs → FirstWhole (update space .rfs (space .rfs - len)) frag rest

/-- What the loop of `sipc_write` leaves is announced, as far as this depends on the formatted
packets of the queue. -/
def QueueTold (tx₀ : Tx) (queue : List Skb) : Prop :=
  ∀ tx mailbox ret, Announced tx₀ tx mailbox → tx.Valid →
    (AllTold tx₀ (tx.writeQueue mailbox ret queue).tx (tx.writeQueue mailbox ret queue).mailbox ↔
      Carries mailbox (mbData .fmt).maskSend ∨ FirstWhole tx.space tx.frag queue)

section

variable {rest : List Skb} (ih : QueueTold tx₀ rest) (h : Announced tx₀ tx mailbox) (htx : tx.Valid)
  {skb : Skb}

include ih h htx

/-- A packet that is written whole or not at all. -/
theorem queueTold_of_wholeOrNot {ring : IpcIdx} {len : Nat} {written : OutRing × Int}
    (hw : WholeOrNot ring (tx.out ring) len written) (hpos : 0 < len) (hring : ring ≠ .fmt)
    (hwrite : tx.write skb mailbox = (tx.setOut ring written.1, written.2,
      if 0 < written.2 then mailbox ||| (mbData ring).maskSend else mailbox)) (ret : Int) :
    AllTold tx₀ (tx.writeQueue mailbox ret (skb :: rest)).tx
        (tx.writeQueue mailbox ret (skb :: rest)).mailbox ↔
      Carries mailbox (mbData .fmt).maskSend ∨ (len ≤ tx.space ring →
        FirstWhole (update tx.space ring (tx.space ring - len)) tx.frag rest) := by
  unfold writeQueue
  rw [hwrite]
  cases hw with
  | noSpace hspace =>
    refine iff_of_true ?_ (.inr fun hfits => absurd hspace (Nat.not_lt.mpr hfits))
    have hsame : tx.setOut ring (tx.out ring) = tx := by simp [setOut]
    rw [if_pos (show enospc < 0 by decide), hsame]
    exact h.allTold
  | @whole rb' block hfits hw hlen =>
    have happ := appended_setOut hw
    have hne : block ≠ [] := ne_nil_of_length_pos (by omega)
    have hnext := ih (tx.setOut ring rb') _ (len : Nat) (h.append happ hne) (happ.valid htx)
    rw [carries_or_maskSend, or_iff_left hring.symm, space_of_appended happ htx, hlen] at hnext
    dsimp only
    rw [if_neg (by omega), if_pos (by omega), hnext]
    exact or_congr_right ⟨fun hwhole _ => hwhole, fun hwhole => hwhole hfits⟩

/-- A formatted packet. -/
theorem queueTold_of_fmt (hwrite : tx.write skb mailbox = ((tx.writeFmt skb).1, (tx.writeFmt skb).2,
      if 0 < (tx.writeFmt skb).2 then mailbox ||| (mbData .fmt).maskSend else mailbox))
    (ret : Int) : AllTold tx₀ (tx.writeQueue mailbox ret (skb :: rest)).tx
        (tx.writeQueue mailbox ret (skb :: rest)).mailbox ↔
      Carries mailbox (mbData .fmt).maskSend ∨
        if skb.data.length ≤ tx.fmtOffset skb then
          FirstWhole tx.space ⟨some skb.id, tx.fmtOffset skb⟩ rest
        else tx.space .fmt < 10 ∨ skb.data.length - tx.fmtOffset skb + 5 ≤ tx.space .fmt := by
  have happ := fun block => @appended_writeFmt tx skb block
  have hret : (tx.writeFmt skb).2 = (tx.fmtLoop skb).ret := rfl
  have hfrag : (tx.writeFmt skb).1.frag = if 0 < (tx.fmtLoop skb).ret then ⟨none, 0⟩
      else ⟨some skb.id, (tx.fmtLoop skb).offset⟩ := rfl
  have hloop := fmtLoop_written htx skb
  unfold writeQueue
  rw [hwrite, hret]
  generalize (tx.writeFmt skb).1 = tx' at happ hfrag
  generalize tx.fmtLoop skb = l at happ hfrag hloop
  have hsame : l.rb = tx.out .fmt → Appended tx tx' .fmt [] ∧ Announced tx₀ tx' mailbox := by
    intro hrb
    have hunit := happ [] (by rw [hrb]; exact .nil (htx .fmt))
    refine ⟨hunit, fun idx => ?_⟩
    obtain ⟨block, heq, hiff⟩ := h idx
    refine ⟨block, ?_, hiff⟩
    by_cases hidx : idx = .fmt
    · rw [hidx, hunit.written.appended, append_nil, ← hidx, heq]
    · rw [hunit.other idx hidx, heq]
  cases hloop with
  | nothing hdone =>
    obtain ⟨hunit, hann⟩ := hsame rfl
    have hnext := ih tx' mailbox (0 : Nat) hann (hunit.valid htx)
    rw [space_of_appended hunit htx, length_nil, Nat.sub_zero, update_eq_self, hfrag] at hnext
    rw [if_pos hdone]
    exact hnext
  | noSpace hmore hspace =>
    rw [if_neg (Nat.not_le.mpr hmore)]
    exact iff_of_true (hsame rfl).2.allTold (.inr (.inl hspace))
  | last hmore hspace hw =>
    have hunit := happ _ hw
    have hnext := ih tx' _ (0 + (skb.data.length - tx.fmtOffset skb + 5) : Nat)
      (h.append hunit (cons_ne_nil _ _)) (hunit.valid htx)
    dsimp only
    rw [if_neg (by omega), if_pos (by omega), if_neg (Nat.not_le.mpr hmore)]
    exact iff_of_true (hnext.mpr (.inl ((carries_or_maskSend ..).mpr (.inr rfl))))
      (.inr (.inr hspace))
  | part hspace hmore hw =>
    -- the frame is in the ring, and the word is what it was
    have hlt : ¬skb.data.length ≤ tx.fmtOffset skb := by omega
    rw [if_neg hlt]
    refine (h.allTold_append_iff (happ _ hw) (cons_ne_nil _ _)).trans (or_iff_left ?_).symm
    rw [not_or]
    exact ⟨Nat.not_lt.mpr hspace, Nat.not_le.mpr hmore⟩

end

theorem queueTold (tx₀ : Tx) (queue : List Skb) : QueueTold tx₀ queue := by
  induction queue with
  | nil => exact fun tx mailbox ret h _ => iff_of_true h.allTold (.inr trivial)
  | cons skb rest ih =>
    intro tx mailbox ret h htx
    unfold FirstWhole
    split
    next hring =>
      have hwrite : tx.write skb mailbox = (tx, einval, mailbox) := by
        unfold Tx.write
        rw [hring]
      unfold writeQueue
      rw [hwrite, if_pos (show einval < 0 by decide)]
      exact iff_of_true h.allTold (.inr trivial)
    next hring =>
      refine queueTold_of_fmt ih h htx ?_ ret
      unfold Tx.write
      rw [hring]
      rfl
    next hring =>
      refine queueTold_of_wholeOrNot ih h htx (writeRaw_spec (htx .raw) skb skb.res) (by omega)
        nofun ?_ ret
      unfold Tx.write
      rw [hring]
      rfl
    next hring =>
      refine queueTold_of_wholeOrNot ih h htx (writeRfs_spec (htx .rfs) skb) (by omega) nofun ?_ ret
      unfold Tx.write
      rw [hring]
      rfl

/-- The mailbox word that a call sends announces data in a ring. -/
def Told (res : WriteResult) (idx : IpcIdx) : Prop :=
  ∃ word, res.mailbox = some word ∧ Carries word (mbData idx).maskSend

theorem told_sipcWrite (tx : Tx) (queue : List Skb) (idx : IpcIdx) :
    Told (tx.sipcWrite 0 queue).2 idx ↔
      Carries (tx.writeQueue 0 0 queue).mailbox (mbData idx).maskSend := by
  unfold Told sipcWrite
  rw [if_neg (by decide)]
  dsimp only
  split
  next h0 =>
    rw [h0]
    simp [not_carries_zero]
  · simp [carries_mbDataWord]

/-- Every ring to which `sipc_write` appends is announced, if and only if the first formatted packet
of which something is left to be sent is not cut. -/
theorem sipcWrite_announces_iff (htx : tx.Valid) (auth : Int) (queue : List Skb) :
    (∀ idx, ((tx.sipcWrite auth queue).1.out idx).appended ≠ (tx.out idx).appended →
      Told (tx.sipcWrite auth queue).2 idx) ↔
    (auth = 0 → FirstWhole tx.space tx.frag queue) := by
  by_cases hauth : auth = 0
  · subst hauth
    have hiff := queueTold tx queue tx 0 0 (.refl tx) htx
    have htx' : (tx.sipcWrite 0 queue).1 = (tx.writeQueue 0 0 queue).tx := rfl
    simp only [told_sipcWrite, htx', forall_const]
    exact hiff.trans (or_iff_right (not_carries_zero .fmt))
  · have hfail : tx.sipcWrite auth queue = (tx, ⟨auth, none, queue⟩) := if_pos hauth
    rw [hfail]
    exact iff_of_true (fun idx hne => absurd rfl hne) fun hzero => absurd hzero hauth

/-- Rings without data, and the formatted one with the given ends. -/
def ofFmt (head tail : Nat) : Tx where
  out
    | .fmt => ⟨⟨fun _ => 0, head, tail⟩, []⟩
    | .raw | .rfs => ⟨⟨fun _ => 0, 0, 0⟩, []⟩
  frag := ⟨none, 0⟩

theorem ofFmt_valid {head tail : Nat} (hhead : head < 0x1000) (htail : tail < 0x1000) :
    (ofFmt head tail).Valid := by
  intro idx
  cases idx with
  | fmt => exact ⟨hhead, htail⟩
  | raw | rfs => exact ⟨show 0 < 0x100000 by decide, show 0 < 0x100000 by decide⟩

end Tx

/-- A formatted packet of six bytes. -/
def Skb.sixBytes : Skb := ⟨1, .phonet 0, [1, 2, 3, 4, 5, 6], 0, 0, by decide⟩

namespace Tx

/-- Two packets are written to an empty ring, and it is announced. -/
theorem sipcWrite_announces_iff_two :
    Told ((ofFmt 0 0).sipcWrite 0 [.sixBytes, .sixBytes]).2 .fmt := by
  refine (sipcWrite_announces_iff (ofFmt_valid (by decide) (by decide)) 0
    [.sixBytes, .sixBytes]).mpr (fun _ => .inr ?_) .fmt (by decide +kernel)
  decide +kernel

/-- There are ten bytes of space. Five bytes of the packet are sent and nothing is
announced. -/
theorem sipcWrite_announces_nothing : (ofFmt 0 11).Valid ∧
    (((ofFmt 0 11).sipcWrite 0 [.sixBytes]).1.out .fmt).appended = fmtBuf 0x81 [1, 2, 3, 4, 5] ∧
    ((ofFmt 0 11).out .fmt).appended = [] ∧
    ((ofFmt 0 11).sipcWrite 0 [.sixBytes]).2.mailbox = none ∧
    ¬Told ((ofFmt 0 11).sipcWrite 0 [.sixBytes]).2 .fmt := by
  have hnone : ((ofFmt 0 11).sipcWrite 0 [.sixBytes]).2.mailbox = none := by decide +kernel
  refine ⟨ofFmt_valid (by decide) (by decide), by decide +kernel, rfl, hnone, ?_⟩
  rintro ⟨word, hword, -⟩
  cases hword

end Tx

end AndroidKernel.Sipc
