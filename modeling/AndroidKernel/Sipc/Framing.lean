import AndroidKernel.Sipc.Sending

/-!
# Frames in the formatted out buffer

All that is ever appended to the formatted out buffer is a sequence of whole frames, as
long as `sipc_whitelist` is used only where its frame fits or where the ring is full. It
does not look at the space, and a frame that finds too little is cut off.
-/

namespace AndroidKernel.Sipc

open List

/-- A frame of the formatted channel, short enough for the length in `struct fmt_hdr`. -/
structure FmtFrame where
  control : Byte
  data : List Byte
  short : 3 + data.length < 2 ^ 16

namespace FmtFrame

/-- The frame as bytes. -/
def encode (f : FmtFrame) : List Byte := fmtBuf f.control f.data

@[ext] theorem ext {f g : FmtFrame} (hcontrol : f.control = g.control) (hdata : f.data = g.data) :
    f = g := by
  cases f
  cases g
  cases hcontrol
  cases hdata
  rfl

/-- The length in the header says where the frame ends. -/
theorem encode_selfDelimiting : SelfDelimiting encode where
  inj := by
    intro f g x y h
    simp only [encode, fmtBuf, cons_append, append_assoc, cons.injEq,
      true_and] at h
    obtain ⟨hlen, h⟩ := append_inj h (by simp)
    have hsame := congrArg Bytes.value hlen
    rw [Bytes.value_le f.short, Bytes.value_le g.short] at hsame
    obtain ⟨hcontrol, h⟩ := cons.inj h
    exact ext hcontrol (append_inj h (by omega)).1
  ne_nil f := cons_ne_nil _ _

end FmtFrame

/-- The bytes are a sequence of whole frames. -/
def Framed (bytes : List Byte) : Prop := ∃ frames : List FmtFrame, bytes = frames.flatMap (·.encode)

namespace Framed

variable {bytes bytes' : List Byte}

theorem nil : Framed [] := ⟨[], rfl⟩

theorem append (h : Framed bytes) (h' : Framed bytes') : Framed (bytes ++ bytes') := by
  obtain ⟨fs, rfl⟩ := h
  obtain ⟨fs', rfl⟩ := h'
  exact ⟨fs ++ fs', flatMap_append.symm⟩

theorem fmtBuf {control : Byte} {data : List Byte} (h : 3 + data.length < 2 ^ 16) :
    Framed (fmtBuf control data) :=
  ⟨[⟨control, data, h⟩], (append_nil _).symm⟩

/-- A frame that is cut off spoils a sequence of frames. -/
theorem append_take_iff (h : Framed bytes) (f : FmtFrame) (n : Nat) :
    Framed (bytes ++ f.encode.take n) ↔ f.encode.length ≤ n ∨ n = 0 := by
  constructor
  · rintro ⟨fs', heq⟩
    obtain ⟨fs, rfl⟩ := h
    by_contra hcut
    rw [not_or, Nat.not_le] at hcut
    obtain ⟨ks, -, htake⟩ := FmtFrame.encode_selfDelimiting.exists_append heq
    exact FmtFrame.encode_selfDelimiting.take_ne_flatMap (Nat.pos_of_ne_zero hcut.2) hcut.1 ks htake
  · rintro (hfits | rfl)
    · rw [take_of_length_le hfits]
      exact h.append (.fmtBuf f.short)
    · simpa using h

end Framed

namespace Tx

variable {tx tx' : Tx}

/-- All that has ever been appended to the formatted ring. -/
def fmtBytes (tx : Tx) : List Byte := (tx.out .fmt).appended

/-! ## The calls -/

section

variable (h : tx.Valid) (hframed : Framed tx.fmtBytes)

include h hframed

theorem write_framed (skb : Skb) (mailbox : Nat) : Framed (tx.write skb mailbox).1.fmtBytes := by
  unfold Tx.write
  split
  · exact hframed
  rename_i ring _
  by_cases hfmt : ring = .fmt
  · subst hfmt
    obtain ⟨block, happ, hblock⟩ := writeFmt_appended h skb
    show Framed ((tx.writeFmt skb).1.out .fmt).appended
    rw [happ.written.appended]
    refine hframed.append ?_
    rcases hblock with rfl | ⟨control, data, hshort, rfl⟩
    · exact .nil
    · exact .fmtBuf hshort
  · obtain ⟨block, happ⟩ := writeRing_appended h skb ring
    have hsame := happ.other .fmt (Ne.symm hfmt)
    show Framed ((tx.writeRing skb ring).1.out .fmt).appended
    rw [hsame]
    exact hframed

theorem writeQueue_framed (mailbox : Nat) (ret : Int) (queue : List Skb) :
    (tx.writeQueue mailbox ret queue).tx.Valid ∧
      Framed (tx.writeQueue mailbox ret queue).tx.fmtBytes := by
  induction queue generalizing tx mailbox ret with
  | nil => exact ⟨h, hframed⟩
  | cons skb rest ih =>
    have hvalid := write_valid h skb mailbox
    have hwritten := write_framed h hframed skb mailbox
    unfold writeQueue
    dsimp only
    split
    · exact ⟨hvalid, hwritten⟩
    · exact ih hvalid hwritten _ _

end

theorem sipcWhitelist_out (tx : Tx) (buf : List Byte) :
    (tx.sipcWhitelist 0 buf).1.out .fmt = ((tx.out .fmt).write .fmt buf).1 := by
  simp [sipcWhitelist, setOut_self]

/-- `sipc_whitelist` appends as much of the frame as there is space for. -/
theorem sipcWhitelist_fmtBytes (h : tx.Valid) (buf : List Byte) : (tx.sipcWhitelist 0 buf).1.Valid ∧
    (tx.sipcWhitelist 0 buf).1.fmtBytes =
      tx.fmtBytes ++ buf.take ((tx.out .fmt).toRingbuf.space .fmt) := by
  have hself := sipcWhitelist_out tx buf
  have hother : ∀ j, j ≠ .fmt → (tx.sipcWhitelist 0 buf).1.out j = tx.out j := by
    intro j hj
    simp [sipcWhitelist, setOut_other _ hj]
  have hw := (OutRing.write_spec (h .fmt) buf).1
  constructor
  · intro j
    by_cases hj : j = .fmt
    · subst hj
      exact hw.valid
    · rw [hother j hj]
      exact h j
  · show ((tx.sipcWhitelist 0 buf).1.out .fmt).appended = _
    rw [hself, hw.appended]
    rfl

/-! ## Runs -/

/-- The calls, and what the modem does. -/
inductive Op where
  | write (auth : Int) (queue : List Skb)
  | whitelist (auth : Int) (frame : FmtFrame)
  | consume (idx : IpcIdx) (n : Nat)

/-- The modem takes bytes out of a ring. -/
def consume (tx : Tx) (idx : IpcIdx) (n : Nat) : Tx :=
  tx.setOut idx { tx.out idx with tail := ((tx.out idx).tail + n) % idx.size }

def step (tx : Tx) : Op → Option Tx
  | .write auth queue => some (tx.sipcWrite auth queue).1
  | .whitelist auth frame => some (tx.sipcWhitelist auth frame.encode).1
  | .consume idx n => if n ≤ (tx.out idx).toRingbuf.count idx then some (tx.consume idx n) else none

/-- A frame that `sipc_whitelist` is given fits, or there is no space at all. -/
def Fits (tx : Tx) : Op → Prop
  | .whitelist auth frame => auth ≠ 0 ∨
      frame.encode.length ≤ (tx.out .fmt).toRingbuf.space .fmt ∨
      (tx.out .fmt).toRingbuf.space .fmt = 0
  | _ => True

instance (tx : Tx) (op : Op) : Decidable (tx.Fits op) := by
  unfold Fits
  split <;> infer_instance

theorem consume_out (tx : Tx) (idx : IpcIdx) (n : Nat) :
    (tx.consume idx n).out idx = { tx.out idx with tail := ((tx.out idx).tail + n) % idx.size } :=
  setOut_self ..

theorem consume_valid (h : tx.Valid) (idx : IpcIdx) (n : Nat) : (tx.consume idx n).Valid := by
  intro j
  by_cases hj : j = idx
  · subst hj
    rw [consume_out]
    exact ⟨(h j).head, Nat.mod_lt _ (Nat.zero_lt_of_lt (h j).head)⟩
  · have hsame : (tx.consume idx n).out j = tx.out j := setOut_other _ hj _
    rw [hsame]
    exact h j

theorem consume_fmtBytes (tx : Tx) (idx : IpcIdx) (n : Nat) :
    (tx.consume idx n).fmtBytes = tx.fmtBytes := by
  by_cases hidx : idx = .fmt
  · subst hidx
    unfold fmtBytes
    rw [consume_out]
  · exact congrArg OutRing.appended (setOut_other _ (Ne.symm hidx) _)

/-- What a call of `sipc_whitelist` does to a sequence of whole frames. -/
theorem whitelist_framed_iff (h : tx.Valid) (hframed : Framed tx.fmtBytes) (auth : Int)
    (frame : FmtFrame) :
    Framed (tx.sipcWhitelist auth frame.encode).1.fmtBytes ↔ tx.Fits (.whitelist auth frame) := by
  by_cases hauth : auth = 0
  · subst hauth
    rw [(sipcWhitelist_fmtBytes h frame.encode).2, hframed.append_take_iff]
    simp [Fits]
  · have hfail : tx.sipcWhitelist auth frame.encode = (tx, auth, none) := if_pos hauth
    rw [hfail]
    exact ⟨fun _ => .inl hauth, fun _ => hframed⟩

theorem whitelist_valid (h : tx.Valid) (auth : Int) (buf : List Byte) :
    (tx.sipcWhitelist auth buf).1.Valid := by
  by_cases hauth : auth = 0
  · subst hauth
    exact (sipcWhitelist_fmtBytes h buf).1
  · have hfail : tx.sipcWhitelist auth buf = (tx, auth, none) := if_pos hauth
    rw [hfail]
    exact h

theorem step_framed {op : Op} (h : tx.Valid ∧ Framed tx.fmtBytes) (hfits : tx.Fits op)
    (hs : tx.step op = some tx') : tx'.Valid ∧ Framed tx'.fmtBytes := by
  obtain ⟨hvalid, hframed⟩ := h
  cases op with
  | write auth queue =>
    cases hs
    unfold sipcWrite
    split
    · exact ⟨hvalid, hframed⟩
    · exact writeQueue_framed hvalid hframed 0 0 queue
  | whitelist auth frame =>
    cases hs
    exact ⟨whitelist_valid hvalid auth _,
      (whitelist_framed_iff hvalid hframed auth frame).mpr hfits⟩
  | consume idx n =>
    obtain ⟨-, rfl⟩ := Option.ite_some_none_eq_some.mp hs
    rw [consume_fmtBytes]
    exact ⟨consume_valid hvalid idx n, hframed⟩

/-- From empty rings on, what has been appended to the formatted ring is a sequence of
whole frames in every state that is reached by steps that fit; and a step that does not
fit leaves a part of a frame behind. -/
theorem fmtBytes_framed {init : Tx} (hinit : init.Valid) (hempty : init.fmtBytes = [])
    (h : Reached step Fits init tx) : Framed tx.fmtBytes ∧
    ∀ op tx', tx.step op = some tx' → (Framed tx'.fmtBytes ↔ tx.Fits op) := by
  have hok : tx.Valid ∧ Framed tx.fmtBytes :=
    h.invariant (P := fun tx => tx.Valid ∧ Framed tx.fmtBytes)
      ⟨hinit, hempty ▸ .nil⟩ fun _ _ _ => step_framed
  refine ⟨hok.2, fun op tx' hs => ⟨fun hframed => ?_, fun hfits => (step_framed hok hfits hs).2⟩⟩
  cases op with
  | write | consume => trivial
  | whitelist auth frame =>
    cases hs
    exact (whitelist_framed_iff hok.1 hok.2 auth frame).mp hframed

/-- A frame without data. -/
def emptyFrame : FmtFrame := ⟨0, [], by decide⟩

/-- A packet is written and read by the modem, and a frame is written to the ring. -/
theorem fmtBytes_framed_run :
    ∃ tx, Reached step Fits (ofFmt 0 0) tx ∧ tx.fmtBytes.length = 16 ∧ Framed tx.fmtBytes :=
  Reached.exists_of_checked_and
    [.write 0 [.sixBytes], .consume .fmt 11, .whitelist 0 emptyFrame] (by decide +kernel)
    fun _ h _ => (fmtBytes_framed (ofFmt_valid (by decide) (by decide)) rfl h).1

/-- A frame that leaves four bytes of space in an empty ring. -/
def longFrame : FmtFrame := ⟨0, replicate 4086 0, by rw [length_replicate]; omega⟩

/-- The frame without data needs five bytes and finds four. -/
theorem whitelist_truncates :
    ∃ tx, [Op.whitelist 0 longFrame, .whitelist 0 emptyFrame].foldlM step (ofFmt 0 0) = some tx ∧
      ¬Framed tx.fmtBytes := by
  have hvalid : (ofFmt 0 0).Valid := ofFmt_valid (by decide) (by decide)
  have hlen : longFrame.encode.length = 4091 := by
    rw [FmtFrame.encode, length_fmtBuf, longFrame, length_replicate]
  have hspace : ((ofFmt 0 0).out .fmt).toRingbuf.space .fmt = 4095 := by decide
  have hfits : (ofFmt 0 0).Fits (.whitelist 0 longFrame) := .inr (.inl (by omega))
  refine ⟨_, rfl, ?_⟩
  rw [whitelist_framed_iff (whitelist_valid hvalid 0 _)
    ((whitelist_framed_iff hvalid .nil 0 longFrame).mpr hfits)]
  have hleft : (((ofFmt 0 0).sipcWhitelist 0 longFrame.encode).1.out .fmt).toRingbuf.space .fmt =
      4 := by
    rw [sipcWhitelist_out]
    rw [(OutRing.write_fits (hvalid .fmt) (by omega)).1.space (hvalid .fmt)]
    omega
  rintro (hauth | hroom | hfull)
  · exact hauth rfl
  · rw [hleft] at hroom
    exact absurd hroom (by decide)
  · rw [hleft] at hfull
    cases hfull

end Tx

end AndroidKernel.Sipc
