import AndroidKernel.Logger.Refines

/-!
# The copy for the console

Segments that start with `!@` are printed to the kernel log. They are copied to `klog_buf`, but
from the ring and as if they were there in one piece.
-/

namespace AndroidKernel.Logger

open List

namespace Log

/-- The byte at an offset, if that is in the ring. -/
def byteAt (log : Log) (off : Nat) : Option Byte :=
  if off < log.size then some (log.buffer off) else none

/-- Whether `strncmp` finds `!@` at an offset. -/
def marked (log : Log) (off : Nat) : Option Bool := do
  if (← log.byteAt off) = 33 then return (← log.byteAt (off + 1)) = 64 else return false

/-- `klog_buf` after `do_write_log_from_user`, from the log as it is after the copies and
the old `w_off`. Nothing is returned if bytes are read that are not in the ring. -/
def klogBuf (log : Log) (klog : List Byte) (wOff count : Nat) : Option (List Byte) := do
  if ← log.marked wOff then
    let n := if count < 255 then count else 255
    if wOff + n ≤ log.size then
      return Ring.slice log.buffer wOff n ++ replicate (255 - n) 0 ++ [0]
    else none
  else return replicate 255 0 ++ klog.drop 255

end Log

variable {log : Log} {seg : Segment} {count n : Nat}

/-- What was written is found in one piece up to the end of the ring. -/
theorem slice_doWriteLog {block : List Byte} (hblock : block.length ≤ log.size)
    (hn : n ≤ block.length) (hfit : log.wOff + n ≤ log.size) :
    Ring.slice (log.doWriteLog block).buffer log.wOff n = block.take n := by
  refine ext_getElem? fun k => ?_
  rcases Nat.lt_or_ge k n with hk | hk
  · have hput := @Ring.put_wrapped _ log.size log.wOff log.buffer block (by omega) hblock k
      (by omega)
    rw [Nat.mod_eq_of_lt (by omega), Nat.mod_eq_of_lt (by omega), ← doWriteLog_buffer] at hput
    rw [Ring.getElem?_slice hk, getElem?_take_of_lt hk, hput]
  · rw [getElem?_eq_none (by simpa), getElem?_eq_none (by simp; omega)]

/-- The mark is found where the segment starts, unless its second byte is not behind the first. -/
theorem marked_eq {l : Log} {off : Nat} {data : List Byte} (hmark : data.take 2 = [33, 64])
    (hslice : ∀ n ≤ 2, off + n ≤ l.size → Ring.slice l.buffer off n = data.take n) :
    l.marked off = if off + 2 ≤ l.size then some true else none := by
  obtain ⟨tail, rfl⟩ : ∃ tail, data = 33 :: 64 :: tail := by
    obtain _ | ⟨a, _ | ⟨b, tail⟩⟩ := data <;> simp_all
  by_cases hone : off + 1 ≤ l.size
  · have hfirst : l.buffer off = 33 := (cons.inj (hslice 1 (by decide) hone)).1
    by_cases htwo : off + 2 ≤ l.size
    · have hsecond : l.buffer (off + 1) = 64 :=
        (cons.inj (cons.inj (hslice 2 le_rfl htwo)).2).1
      have hlt : off + 1 < l.size := htwo
      simp [Log.marked, Log.byteAt, Nat.lt_of_succ_lt hlt, hlt, htwo, hfirst, hsecond]
    · have hlt : ¬off + 1 < l.size := htwo
      have hoff : off < l.size := hone
      simp [Log.marked, Log.byteAt, hoff, hlt, htwo, hfirst]
  · have hoff : ¬off < l.size := hone
    simp [Log.marked, Log.byteAt, hoff, show ¬off + 2 ≤ l.size by omega]

/-- **The copy is right just in one piece**: `klog_buf` gets the first 255 bytes of the segment if
and only if they do not go on at the start of the ring. -/
theorem klogBuf_eq_iff (klog : List Byte) (hmark : seg.data.take 2 = [33, 64]) (hcount : 2 ≤ count)
    (hdata : count ≤ seg.data.length) (hsize : count < log.size) (hoff : log.wOff < log.size)
    (hok : (log.doWriteLogFromUser seg count).2 = some count) :
    (log.doWriteLogFromUser seg count).1.klogBuf klog log.wOff count =
      some (seg.data.take (min count 255) ++ replicate (255 - min count 255) 0 ++ [0]) ↔
    log.wOff + min count 255 ≤ log.size := by
  have hfault : seg.fault.any (· < count) = false := by
    rw [← Bool.not_eq_true]
    intro hfault
    obtain ⟨buffer, hnone, -⟩ := doWriteLogFromUser_fault log hfault hdata
      (Nat.mod_eq_of_lt (by omega)).symm hsize
    rw [hnone] at hok
    cases hok
  rw [doWriteLogFromUser_ok log hfault hdata]
  have hlength : (seg.data.take count).length = count := length_take_of_le hdata
  have hslice (n : Nat) (hn : n ≤ min count 255) (hfit : log.wOff + n ≤ log.size) :
      Ring.slice (log.doWriteLog (seg.data.take count)).buffer log.wOff n = seg.data.take n := by
    rw [slice_doWriteLog (by omega) (by omega) hfit, take_take, Nat.min_eq_left (by omega)]
  have hmarked := marked_eq (l := log.doWriteLog (seg.data.take count)) hmark
    fun n hn => hslice n (by omega)
  have hmin : (if count < 255 then count else 255) = min count 255 := by
    split <;> omega
  simp only [Log.klogBuf, hmarked, hmin]
  rw [show (log.doWriteLog (seg.data.take count)).size = log.size from rfl]
  constructor
  · -- a byte behind the ring is read by the comparison or by the copy
    intro heq
    by_contra hfit
    rw [if_neg hfit] at heq
    split at heq <;> cases heq
  · intro hfit
    rw [if_pos (by omega), if_pos hfit, hslice _ le_rfl hfit]
    rfl

/-- A segment "!@a" at the start of the ring. -/
theorem klogBuf_eq_iff_three : ((Log.init (2 ^ 16) fun _ => 0).doWriteLogFromUser
      ⟨[33, 64, 97], none, fun _ => 0⟩ 3).1.klogBuf [] 0 3 =
    some ([33, 64, 97] ++ replicate 252 0 ++ [0]) :=
  (klogBuf_eq_iff [] rfl (by decide) (by decide) (by decide) (by decide) rfl).mpr (by decide)

/-- A segment "!@a" of which the last byte goes to the start of the ring: what follows the ring is
copied instead. -/
theorem klogBuf_outside : ∃ (log : Log) (seg : Segment), log.wOff < log.size ∧
    seg.data = [33, 64, 97] ∧ (log.doWriteLogFromUser seg 3).2 = some 3 ∧
      (log.doWriteLogFromUser seg 3).1.klogBuf [] log.wOff 3 = none :=
  ⟨{ Log.init (2 ^ 16) fun _ => 0 with wOff := 65534 }, ⟨[33, 64, 97], none, fun _ => 0⟩,
    by decide +kernel⟩

end AndroidKernel.Logger
