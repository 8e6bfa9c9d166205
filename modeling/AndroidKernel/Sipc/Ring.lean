import AndroidKernel.Lib.Fifo
import AndroidKernel.Lib.Words

/-!
# The ring buffers of the modem interface (`drivers/onedram_svn/victory/svnet/sipc4.c`)

Processor and modem share a memory with three pairs of ring buffers, for formatted
messages, raw packets and remote file system packets. The processor writes at the head of
an out buffer and reads at the tail of an in buffer; the other ends belong to the modem.
`head` and `tail` are words of the shared memory, in which the modem may have written
anything, so the macros of `linux/circ_buf.h` are taken with their wrapping arithmetic.
What a buffer's `base` says beyond its size is the memory after it.
-/

namespace AndroidKernel.Sipc

open List

abbrev Byte := UInt8

/-- `IPCIDX_FMT`, `IPCIDX_RAW` and `IPCIDX_RFS`. -/
inductive IpcIdx where
  | fmt
  | raw
  | rfs
  deriving DecidableEq

/-- `FMT_SZ`, `RAW_SZ` and `RFS_SZ`. -/
def IpcIdx.size : IpcIdx → Nat
  | .fmt => 0x1000
  | .raw | .rfs => 0x100000

/-- `CIRC_CNT`. -/
def circCnt (head tail : Int) (size : Nat) : Nat := ulong (head - tail) &&& (size - 1)

/-- `CIRC_SPACE`. -/
def circSpace (head tail : Int) (size : Nat) : Nat := circCnt tail (head + 1) size

/-- `CIRC_CNT_TO_END`. -/
def circCntToEnd (head tail : Int) (size : Nat) : Int :=
  let «end» := long (size - tail)
  let n := ulong (head + «end») &&& (size - 1)
  if n < «end» then n else «end»

/-- `CIRC_SPACE_TO_END`. -/
def circSpaceToEnd (head tail : Int) (size : Nat) : Int :=
  let «end» := long (size - 1 - head)
  let n := ulong («end» + tail) &&& (size - 1)
  if n ≤ «end» then n else «end» + 1

/-- An in buffer. -/
structure Ringbuf where
  base : Nat → Byte
  head : Nat
  tail : Nat

/-- An out buffer, with all that has been appended to it. -/
structure OutRing extends Ringbuf where
  appended : List Byte

/-- What is left of `c` in the loops of `__write` and `__read`: `size` is compared with it
as an unsigned number, and the loop ends if it is not positive. -/
def chunk (c : Int) (size : Nat) : Nat := (if size < ulong c then long size else c).toNat

section

variable (idx : IpcIdx)

/-- The body of the loop in `__write`. -/
def OutRing.put (rb : OutRing) (block : List Byte) : OutRing where
  base := Ring.put rb.base rb.head block
  head := ulong (rb.head + block.length) &&& (idx.size - 1)
  tail := rb.tail
  appended := rb.appended ++ block

/-- The loop of `__write`; each turn takes something away from `buf`. -/
def writeLoop : Nat → OutRing → List Byte → OutRing × Nat
  | 0, rb, _ => (rb, 0)
  | fuel + 1, rb, buf =>
    let c := chunk (circSpaceToEnd rb.head rb.tail idx.size) buf.length
    if c = 0 then (rb, 0)
    else
      let rest := writeLoop fuel (rb.put idx (buf.take c)) (buf.drop c)
      (rest.1, c + rest.2)

/-- `__write`. -/
def OutRing.write (rb : OutRing) (buf : List Byte) : OutRing × Nat :=
  writeLoop idx buf.length rb buf

/-- The loop of `__read`, with what it reads. -/
def readLoop : Nat → Ringbuf → Nat → Ringbuf × List Byte
  | 0, rb, _ => (rb, [])
  | fuel + 1, rb, size =>
    let c := chunk (circCntToEnd rb.head rb.tail idx.size) size
    if c = 0 then (rb, [])
    else
      let rest :=
        readLoop fuel { rb with tail := ulong (rb.tail + c) &&& (idx.size - 1) } (size - c)
      (rest.1, Ring.slice rb.base rb.tail c ++ rest.2)

/-- `__read`; the result is the number of bytes that it reads. -/
def Ringbuf.read (rb : Ringbuf) (size : Nat) : Ringbuf × List Byte := readLoop idx size rb size

end

/-! ## Well-formed rings -/

namespace IpcIdx

variable (idx : IpcIdx)

theorem size_cases : idx.size = 2 ^ 12 ∨ idx.size = 2 ^ 20 := by
  cases idx
  · exact .inl rfl
  · exact .inr rfl
  · exact .inr rfl

/-- The masks take the remainder. -/
theorem land_mask (x : Nat) : x &&& (idx.size - 1) = x % idx.size := by
  rcases idx.size_cases with h | h <;> rw [h]
  · exact Nat.and_two_pow_sub_one_eq_mod x 12
  · exact Nat.and_two_pow_sub_one_eq_mod x 20

theorem size_bounds : 0 < idx.size ∧ idx.size < 2 ^ 31 := by
  rcases idx.size_cases with h | h <;> omega

/-- A mask wraps at most once around the ring, also below zero. -/
theorem mask_eq {x : Int} {r : Nat} (hr : r < idx.size)
    (h : x = r ∨ x + idx.size = r ∨ x = r + idx.size) : ulong x &&& (idx.size - 1) = r := by
  rw [idx.land_mask]
  unfold ulong
  rcases idx.size_cases with hs | hs <;> rw [hs] at hr h ⊢ <;> omega

theorem mask_natCast {n : Nat} (hn : n < 2 ^ 32) :
    ulong (n : Int) &&& (idx.size - 1) = n % idx.size := by
  have hu : ulong (n : Int) = n := by
    unfold ulong
    omega
  rw [hu, idx.land_mask]

end IpcIdx

/-- Both ends are cells of the ring. -/
structure Ringbuf.Valid (idx : IpcIdx) (rb : Ringbuf) : Prop where
  head : rb.head < idx.size
  tail : rb.tail < idx.size

variable (idx : IpcIdx) (rb : Ringbuf)

/-- The bytes that have been written and not been read. -/
def Ringbuf.count : Nat := circCnt rb.head rb.tail idx.size

def Ringbuf.contents : List Byte :=
  Fifo.window idx.size rb.base rb.tail (rb.count idx)

/-- The bytes that can be written. -/
def Ringbuf.space : Nat := circSpace rb.head rb.tail idx.size

namespace Ringbuf.Valid

variable {idx : IpcIdx} {rb : Ringbuf}

section

variable (h : rb.Valid idx)

include h

theorem count_eq : rb.count idx = if rb.tail ≤ rb.head then rb.head - rb.tail
      else rb.head + idx.size - rb.tail := by
  have hhead := h.head
  have htail := h.tail
  split <;> exact idx.mask_eq (by omega) (by omega)

theorem head_eq : rb.head = (rb.tail + rb.count idx) % idx.size := by
  have hhead := h.head
  have htail := h.tail
  rw [h.count_eq]
  split
  · rw [Nat.mod_eq_of_lt (by omega)]
    omega
  · rw [Nat.mod_eq_sub_mod (by omega), Nat.mod_eq_of_lt (by omega)]
    omega

theorem space_eq : rb.space idx = idx.size - 1 - rb.count idx := by
  have hhead := h.head
  have htail := h.tail
  rw [h.count_eq]
  split <;> exact idx.mask_eq (by omega) (by omega)

theorem count_lt : rb.count idx < idx.size := by
  have hhead := h.head
  rw [h.count_eq]
  split <;> omega

/-- What `__write` may write at a time. -/
theorem circSpaceToEnd_eq : circSpaceToEnd rb.head rb.tail idx.size =
      (min (rb.space idx) (idx.size - rb.head) : Nat) := by
  have hhead := h.head
  have htail := h.tail
  have hsize := idx.size_bounds
  have hspace : ulong ((idx.size - 1 - rb.head : Int) + rb.tail) &&& (idx.size - 1) =
      rb.space idx := by
    have hcount := h.count_eq
    rw [h.space_eq]
    split at hcount
    · exact idx.mask_eq (by omega) (by omega)
    · exact idx.mask_eq (by omega) (by omega)
  unfold circSpaceToEnd
  dsimp only
  rw [long_of_mem (by omega) (by omega)]
  split <;> omega

/-- What `__read` may read at a time. -/
theorem circCntToEnd_eq : circCntToEnd rb.head rb.tail idx.size =
      (min (rb.count idx) (idx.size - rb.tail) : Nat) := by
  have hhead := h.head
  have htail := h.tail
  have hsize := idx.size_bounds
  have hcount : ulong ((rb.head : Int) + (idx.size - rb.tail)) &&& (idx.size - 1) =
      rb.count idx := by
    rw [h.count_eq]
    split <;> exact idx.mask_eq (by omega) (by omega)
  unfold circCntToEnd
  dsimp only
  rw [long_of_mem (by omega) (by omega)]
  split <;> omega

end

end Ringbuf.Valid

theorem chunk_eq {c : Nat} (hc : c < 2 ^ 31) (size : Nat) : chunk c size = min c size := by
  have hu : ulong (c : Int) = c := by
    unfold ulong
    omega
  unfold chunk
  split
  · rw [long_of_mem (by omega) (by omega)]
    omega
  · omega

/-! ## Writing -/

variable {idx : IpcIdx}

/-- A block has been appended. -/
structure Written (idx : IpcIdx) (rb rb' : OutRing) (block : List Byte) : Prop where
  valid : rb'.toRingbuf.Valid idx
  contents : rb'.toRingbuf.contents idx = rb.toRingbuf.contents idx ++ block
  appended : rb'.appended = rb.appended ++ block

theorem Ringbuf.length_contents (idx : IpcIdx) (rb : Ringbuf) :
    (rb.contents idx).length = rb.count idx :=
  Fifo.length_window ..

namespace Written

variable {rb rb₁ rb' : OutRing} {block block' : List Byte}

theorem nil (h : rb.toRingbuf.Valid idx) : Written idx rb rb [] :=
  ⟨h, (append_nil _).symm, (append_nil _).symm⟩

theorem trans (h : Written idx rb rb₁ block) (h' : Written idx rb₁ rb' block') :
    Written idx rb rb' (block ++ block') where
  valid := h'.valid
  contents := by rw [h'.contents, h.contents, append_assoc]
  appended := by rw [h'.appended, h.appended, append_assoc]

theorem space (h : Written idx rb rb' block) (hrb : rb.toRingbuf.Valid idx) :
    rb'.toRingbuf.space idx = rb.toRingbuf.space idx - block.length := by
  have hcount : rb'.toRingbuf.count idx = rb.toRingbuf.count idx + block.length := by
    rw [← Ringbuf.length_contents, h.contents, length_append, Ringbuf.length_contents]
  rw [h.valid.space_eq, hrb.space_eq]
  omega

/-- A block that does not go over the end of the ring. -/
theorem put (h : rb.toRingbuf.Valid idx) (hspace : block.length ≤ rb.toRingbuf.space idx)
    (hend : rb.head + block.length ≤ idx.size) : Written idx rb (rb.put idx block) block := by
  have hlt := h.count_lt
  have hhead : (rb.put idx block).head = (rb.head + block.length) % idx.size := by
    have hsize := idx.size_bounds
    exact idx.mask_natCast (by omega)
  have hvalid : (rb.put idx block).toRingbuf.Valid idx := by
    refine ⟨?_, h.tail⟩
    rw [hhead]
    exact Nat.mod_lt _ (by omega)
  rw [h.space_eq] at hspace
  have hcount : (rb.put idx block).toRingbuf.count idx =
      rb.toRingbuf.count idx + block.length := by
    have hold := h.head
    have htail := h.tail
    have htail' : (rb.put idx block).tail = rb.tail := rfl
    rw [h.count_eq] at hspace
    rw [hvalid.count_eq, h.count_eq, hhead]
    rcases Nat.lt_or_ge (rb.head + block.length) idx.size with hin | hout
    · rw [Nat.mod_eq_of_lt hin]
      split at hspace <;> split <;> omega
    · obtain hfull : rb.head + block.length = idx.size := by omega
      rw [hfull, Nat.mod_self]
      split at hspace <;> split <;> omega
  refine ⟨hvalid, ?_, rfl⟩
  unfold Ringbuf.contents
  rw [hcount]
  exact Fifo.window_push h.head_eq hend (by omega)

end Written

theorem writeLoop_spec {rb : OutRing} {buf : List Byte} {fuel : Nat}
    (h : rb.toRingbuf.Valid idx) (hfuel : buf.length ≤ fuel) :
    Written idx rb (writeLoop idx fuel rb buf).1 (buf.take (rb.toRingbuf.space idx)) ∧
      (writeLoop idx fuel rb buf).2 = min buf.length (rb.toRingbuf.space idx) := by
  induction fuel generalizing rb buf with
  | zero =>
    obtain rfl : buf = [] := length_eq_zero_iff.mp (by omega)
    exact ⟨by simpa [writeLoop] using Written.nil h, by simp [writeLoop]⟩
  | succ fuel ih =>
    have hhead := h.head
    have hsize := idx.size_bounds
    unfold writeLoop
    rw [h.circSpaceToEnd_eq, chunk_eq (by omega)]
    generalize hc : min (min (rb.toRingbuf.space idx) (idx.size - rb.head)) buf.length = c
    dsimp only
    split
    · -- there is no space, or nothing is left to be written
      have hstop : buf.take (rb.toRingbuf.space idx) = [] := by
        rw [take_eq_nil_iff]
        rcases Nat.eq_zero_or_pos buf.length with hbuf | hbuf
        · exact .inr (length_eq_zero_iff.mp hbuf)
        · exact .inl (by omega)
      rw [hstop]
      exact ⟨.nil h, by omega⟩
    · have htake : (buf.take c).length = c := by
        rw [length_take]
        omega
      have hput : Written idx rb (rb.put idx (buf.take c)) (buf.take c) :=
        .put h (by omega) (by omega)
      have hspace := hput.space h
      obtain ⟨hrest, hlen⟩ := @ih (rb.put idx (buf.take c)) (buf.drop c) hput.valid
        (by rw [length_drop]; omega)
      have hsplit : buf.take (rb.toRingbuf.space idx) =
          buf.take c ++ (buf.drop c).take ((rb.put idx (buf.take c)).toRingbuf.space idx) := by
        rw [← take_add]
        congr 1
        omega
      rw [hsplit]
      refine ⟨hput.trans hrest, ?_⟩
      rw [hlen, length_drop]
      omega

/-- `__write` appends as much as there is space for. -/
theorem OutRing.write_spec {rb : OutRing} (h : rb.toRingbuf.Valid idx) (buf : List Byte) :
    Written idx rb (rb.write idx buf).1 (buf.take (rb.toRingbuf.space idx)) ∧
      (rb.write idx buf).2 = min buf.length (rb.toRingbuf.space idx) :=
  writeLoop_spec h le_rfl

/-- What there is space for is appended whole. -/
theorem OutRing.write_fits {rb : OutRing} {buf : List Byte} (h : rb.toRingbuf.Valid idx)
    (hfits : buf.length ≤ rb.toRingbuf.space idx) :
    Written idx rb (rb.write idx buf).1 buf ∧ (rb.write idx buf).2 = buf.length := by
  have hspec := write_spec h buf
  rw [take_of_length_le hfits, Nat.min_eq_left hfits] at hspec
  exact hspec

/-! ## Reading -/

/-- A block has been read. -/
structure Taken (idx : IpcIdx) (rb rb' : Ringbuf) (block : List Byte) : Prop where
  valid : rb'.Valid idx
  contents : rb.contents idx = block ++ rb'.contents idx
  head : rb'.head = rb.head
  base : rb'.base = rb.base

namespace Taken

variable {rb rb₁ rb' : Ringbuf} {block block' : List Byte}

theorem nil (h : rb.Valid idx) : Taken idx rb rb [] := ⟨h, rfl, rfl, rfl⟩

theorem trans (h : Taken idx rb rb₁ block) (h' : Taken idx rb₁ rb' block') :
    Taken idx rb rb' (block ++ block') where
  valid := h'.valid
  contents := by rw [h.contents, h'.contents, append_assoc]
  head := h'.head.trans h.head
  base := h'.base.trans h.base

/-- A block that does not go over the end of the ring. -/
theorem slice {c : Nat} (h : rb.Valid idx) (hcount : c ≤ rb.count idx)
    (hend : rb.tail + c ≤ idx.size) :
    Taken idx rb { rb with tail := ulong (rb.tail + c) &&& (idx.size - 1) }
      (Ring.slice rb.base rb.tail c) := by
  have htail : ulong ((rb.tail : Int) + c) &&& (idx.size - 1) = (rb.tail + c) % idx.size := by
    have hsize := idx.size_bounds
    exact idx.mask_natCast (by omega)
  have hlt := h.tail
  have hvalid : Ringbuf.Valid idx { rb with tail := (rb.tail + c) % idx.size } :=
    ⟨h.head, Nat.mod_lt _ (by omega)⟩
  rw [htail]
  refine ⟨hvalid, ?_, rfl, rfl⟩
  have hrest : Ringbuf.count idx { rb with tail := (rb.tail + c) % idx.size } =
      rb.count idx - c := by
    have hhead := h.head
    rw [h.count_eq] at hcount
    rw [hvalid.count_eq, h.count_eq]
    dsimp only
    rcases Nat.lt_or_ge (rb.tail + c) idx.size with hin | hout
    · rw [Nat.mod_eq_of_lt hin]
      split at hcount <;> split <;> omega
    · obtain hfull : rb.tail + c = idx.size := by omega
      rw [hfull, Nat.mod_self]
      split at hcount <;> split <;> omega
  unfold Ringbuf.contents
  rw [hrest, Fifo.slice_eq_window hend, ← Fifo.window_add, Nat.add_sub_cancel' hcount]

end Taken

theorem readLoop_spec {rb : Ringbuf} {size fuel : Nat} (h : rb.Valid idx) (hfuel : size ≤ fuel) :
    Taken idx rb (readLoop idx fuel rb size).1 ((rb.contents idx).take size) ∧
      (readLoop idx fuel rb size).2 = (rb.contents idx).take size := by
  induction fuel generalizing rb size with
  | zero =>
    obtain rfl : size = 0 := by omega
    exact ⟨by simpa [readLoop] using Taken.nil h, by simp [readLoop]⟩
  | succ fuel ih =>
    have htail := h.tail
    have hsize := idx.size_bounds
    unfold readLoop
    rw [h.circCntToEnd_eq, chunk_eq (by omega)]
    generalize hc : min (min (rb.count idx) (idx.size - rb.tail)) size = c
    dsimp only
    split
    · -- the ring is empty, or nothing is left to be read
      have hstop : (rb.contents idx).take size = [] := by
        have hlen : ((rb.contents idx).take size).length = 0 := by
          rw [length_take, Ringbuf.length_contents]
          omega
        exact length_eq_zero_iff.mp hlen
      rw [hstop]
      exact ⟨.nil h, rfl⟩
    · have hslice := Taken.slice h (show c ≤ rb.count idx by omega) (by omega)
      obtain ⟨hrest, hread⟩ := @ih { rb with tail := ulong (rb.tail + c) &&& (idx.size - 1) }
        (size - c) hslice.valid (by omega)
      have hsplit : (rb.contents idx).take size = Ring.slice rb.base rb.tail c ++
          (Ringbuf.contents idx { rb with tail := ulong (rb.tail + c) &&& (idx.size - 1) }).take
            (size - c) := by
        have hlen : (Ring.slice rb.base rb.tail c).length = c := Ring.length_slice ..
        rw [hslice.contents, take_append, hlen, take_of_length_le (by omega)]
      rw [hsplit]
      exact ⟨hslice.trans hrest, by rw [hread]⟩

/-- `__read` reads as much as there is. -/
theorem Ringbuf.read_spec {rb : Ringbuf} (h : rb.Valid idx) (size : Nat) :
    Taken idx rb (rb.read idx size).1 ((rb.contents idx).take size) ∧
      (rb.read idx size).2 = (rb.contents idx).take size :=
  readLoop_spec h le_rfl

/-- What is known to be at the start of the ring is read. -/
theorem Ringbuf.read_append {rb : Ringbuf} {block rest : List Byte} (h : rb.Valid idx)
    (hcontents : rb.contents idx = block ++ rest) :
    Taken idx rb (rb.read idx block.length).1 block ∧
      (rb.read idx block.length).1.contents idx = rest ∧ (rb.read idx block.length).2 = block := by
  obtain ⟨htaken, hread⟩ := read_spec h block.length
  have hblock : (rb.contents idx).take block.length = block := by
    rw [hcontents, take_left]
  rw [hblock] at htaken hread
  refine ⟨htaken, ?_, hread⟩
  have hsplit := htaken.contents
  rw [hcontents] at hsplit
  exact (append_cancel_left hsplit).symm

/-! ## Rings as the modem leaves them

Whatever `head` and `tail` are, `__read` reads no more than it is asked for, and once it
has read something `tail` is in the ring. From there on only the remainder of `head` is
used. -/

theorem circCntToEnd_lt (idx : IpcIdx) (head tail : Int) :
    circCntToEnd head tail idx.size < 2 ^ 32 := by
  have hend := long_lt (idx.size - tail)
  unfold circCntToEnd
  dsimp only
  split <;> omega

/-- The masks see only the remainder of `head`. -/
theorem mask_mod_add (idx : IpcIdx) (head : Nat) (x : Int) :
    ulong (((head % idx.size : Nat) : Int) + x) &&& (idx.size - 1) =
      ulong ((head : Int) + x) &&& (idx.size - 1) := by
  rw [idx.land_mask, idx.land_mask]
  unfold ulong
  rcases idx.size_cases with hs | hs <;> rw [hs] <;> omega

theorem chunk_circCntToEnd_le (idx : IpcIdx) (rb : Ringbuf) (size : Nat) :
    chunk (circCntToEnd rb.head rb.tail idx.size) size ≤ size := by
  have := circCntToEnd_lt idx rb.head rb.tail
  unfold chunk long ulong
  split <;> omega

/-- The ring with a `head` in it. -/
def Ringbuf.normal (idx : IpcIdx) (rb : Ringbuf) : Ringbuf := { rb with head := rb.head % idx.size }

/-- Only the remainder of `head` is used. -/
theorem readLoop_normal (idx : IpcIdx) (fuel : Nat) (rb : Ringbuf) (size : Nat) :
    readLoop idx fuel (rb.normal idx) size =
      ((readLoop idx fuel rb size).1.normal idx, (readLoop idx fuel rb size).2) := by
  induction fuel generalizing rb size with
  | zero => rfl
  | succ fuel ih =>
    unfold readLoop
    have hsame : circCntToEnd (rb.normal idx).head (rb.normal idx).tail idx.size =
        circCntToEnd rb.head rb.tail idx.size := by
      unfold circCntToEnd Ringbuf.normal
      dsimp only
      rw [mask_mod_add]
    rw [hsame]
    generalize chunk (circCntToEnd rb.head rb.tail idx.size) size = c
    dsimp only
    split
    · rfl
    · have hrest := ih { rb with tail := ulong (rb.tail + c) &&& (idx.size - 1) } (size - c)
      unfold Ringbuf.normal at hrest ⊢
      rw [hrest]

theorem Ringbuf.contents_normal (idx : IpcIdx) (rb : Ringbuf) :
    (rb.normal idx).contents idx = rb.contents idx := by
  have hcount : (rb.normal idx).count idx = rb.count idx := by
    unfold count circCnt normal
    rw [Int.sub_eq_add_neg, Int.sub_eq_add_neg, mask_mod_add]
  unfold contents
  rw [hcount]
  rfl

/-- From a cell of the ring on, `__read` reads as much as `CIRC_CNT` says. -/
theorem readLoop_tail {rb : Ringbuf} {size fuel : Nat} (h : rb.tail < idx.size)
    (hfuel : size ≤ fuel) : (readLoop idx fuel rb size).2 = (rb.contents idx).take size ∧
      (readLoop idx fuel rb size).1.tail < idx.size ∧
      (readLoop idx fuel rb size).1.contents idx = (rb.contents idx).drop size := by
  have hvalid : (rb.normal idx).Valid idx := ⟨Nat.mod_lt _ (by omega), h⟩
  obtain ⟨htaken, hbytes⟩ := readLoop_spec hvalid hfuel
  rw [readLoop_normal, Ringbuf.contents_normal] at htaken hbytes
  refine ⟨hbytes, htaken.valid.tail, ?_⟩
  have hsplit := htaken.contents
  rw [Ringbuf.contents_normal, Ringbuf.contents_normal] at hsplit
  refine append_cancel_left (hsplit.symm.trans (take_append_drop size _).symm)

theorem Ringbuf.read_tail {rb : Ringbuf} (h : rb.tail < idx.size) (size : Nat) :
    (rb.read idx size).2 = (rb.contents idx).take size ∧ (rb.read idx size).1.tail < idx.size ∧
      (rb.read idx size).1.contents idx = (rb.contents idx).drop size :=
  readLoop_tail h le_rfl

/-- What `__read` finds from the tail on, if it is first asked for `n` bytes. A tail that is not
in the ring makes `CIRC_CNT_TO_END` negative, and these are read behind the ring. -/
def Ringbuf.stream (idx : IpcIdx) (rb : Ringbuf) (n : Nat) : List Byte :=
  let c := chunk (circCntToEnd rb.head rb.tail idx.size) n
  if c = 0 then []
  else
    Ring.slice rb.base rb.tail c ++
      Ringbuf.contents idx { rb with tail := ulong (rb.tail + c) &&& (idx.size - 1) }

/-- The next `n` bytes that are read are the first of these, and the others are left. -/
@[mk_iff] structure Sees (idx : IpcIdx) (n : Nat) (rb : Ringbuf) (bytes : List Byte) : Prop where
  read : (rb.read idx n).2 = bytes.take n
  rest : n ≤ bytes.length →
    (rb.read idx n).1.tail < idx.size ∧ (rb.read idx n).1.contents idx = bytes.drop n

theorem sees_contents {rb : Ringbuf} (h : rb.tail < idx.size) (n : Nat) :
    Sees idx n rb (rb.contents idx) := by
  obtain ⟨hread, hrest⟩ := Ringbuf.read_tail h n
  exact ⟨hread, fun _ => hrest⟩

theorem sees_stream (idx : IpcIdx) (n : Nat) (rb : Ringbuf) :
    Sees idx (n + 1) rb (rb.stream idx (n + 1)) := by
  have hle := chunk_circCntToEnd_le idx rb (n + 1)
  rw [sees_iff]
  unfold Ringbuf.stream Ringbuf.read readLoop
  generalize chunk (circCntToEnd rb.head rb.tail idx.size) (n + 1) = c at hle
  dsimp only
  split
  next => exact ⟨rfl, fun hlen => absurd hlen (Nat.not_succ_le_zero n)⟩
  next hc =>
    have htail : ulong ((rb.tail : Int) + c) &&& (idx.size - 1) < idx.size := by
      rw [idx.land_mask]
      exact Nat.mod_lt _ idx.size_bounds.1
    have hslice : (Ring.slice rb.base rb.tail c).length = c := Ring.length_slice ..
    have hfirst : (Ring.slice rb.base rb.tail c).length ≤ n + 1 := hslice.le.trans hle
    obtain ⟨hread, hrest⟩ := @readLoop_tail idx
      { rb with tail := ulong (rb.tail + c) &&& (idx.size - 1) } (n + 1 - c) n htail (by omega)
    refine ⟨?_, fun _ => ⟨hrest.1, ?_⟩⟩
    · rw [hread, take_append, take_of_length_le hfirst, hslice]
    · rw [hrest.2, drop_append, drop_of_length_le hfirst, nil_append, hslice]

/-- There are no fewer bytes than `CIRC_CNT` says, or none. -/
theorem Ringbuf.count_le_length_stream (idx : IpcIdx) (rb : Ringbuf) (n : Nat) :
    rb.stream idx n = [] ∨ rb.count idx ≤ (rb.stream idx n).length := by
  unfold stream
  generalize chunk (circCntToEnd rb.head rb.tail idx.size) n = c
  dsimp only
  split
  next => exact .inl rfl
  next =>
    right
    rw [length_append, Ring.length_slice, length_contents]
    unfold count circCnt
    rw [idx.land_mask, idx.land_mask, idx.land_mask]
    dsimp only
    unfold ulong
    rcases idx.size_cases with hs | hs <;> rw [hs] <;> omega

end AndroidKernel.Sipc
