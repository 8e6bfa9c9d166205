import Mathlib.Algebra.Order.Ring.Int
import Mathlib.Data.List.DropRight

/-!
# The RAM console

The last messages of the kernel are kept in a buffer that survives a reboot; `ram_console_init`
saves them then. `start` may rest at the end of the buffer. Error correction is off.
-/

namespace AndroidKernel

open List

/-- `struct ram_console_buffer`. -/
structure RamConsole where
  sig : UInt32
  start : Nat
  size : Nat
  data : List UInt8

namespace RamConsole

def ramConsoleSig : UInt32 := 0x43474244

-- `n` is `ram_console_buffer_size`.
variable (n : Nat) (b : RamConsole) (l s : List UInt8)

/-- `ram_console_update`. -/
def update : RamConsole :=
  { b with data := b.data.take b.start ++ s ++ b.data.drop (b.start + s.length) }

/-- The end of `ram_console_write`. -/
def advance : RamConsole :=
  { b.update s with
    start := b.start + s.length
    size := if b.size < n then b.size + s.length else b.size }

/-- `ram_console_write` of the bytes `s`. `rem` is only used as an unsigned number. -/
def write : RamConsole :=
  let s := if n < s.length then s.drop (s.length - n) else s
  let rem := n - b.start
  if rem < s.length then
    advance n { b.update (s.take rem) with start := 0, size := n } (s.drop rem)
  else b.advance n s

/-- `ram_console_save_old`. There is a buffer `dest` for the log, or `kmalloc` may give one. -/
def saveOld (dest kmalloc : Bool) : Option (List UInt8) :=
  if dest || kmalloc then
    some ((b.data.drop b.start).take (b.size - b.start) ++ b.data.take b.start)
  else none

/-- `ram_console_init`, with `ram_console_old_log` after it. -/
def init (oldBuf kmalloc : Bool) : RamConsole × Option (List UInt8) :=
  let log :=
    if b.sig = ramConsoleSig then
      if n < b.size ∨ b.size < b.start then none else b.saveOld oldBuf kmalloc
    else none
  ({ b with sig := ramConsoleSig, start := 0, size := 0 }, log)

/-- The buffer has the bytes `l`. The oldest of them are after `start` if it has filled up. -/
def Holds : Prop :=
  b.sig = ramConsoleSig ∧ ∃ a c, b.data = a ++ c ∧ b.start = a.length ∧ a.length + c.length = n ∧
    (b.size = a.length ∧ l = a ∨ b.size = n ∧ l = c ++ a)

variable {n b}

theorem rtake_rtake_append : (l.rtake n ++ s).rtake n = (l ++ s).rtake n := by
  simp [rtake_eq_reverse_take_reverse, take_append, take_take]

theorem rtake_append_rtake : (l ++ s.rtake n).rtake n = (l ++ s).rtake n := by
  simp [rtake_eq_reverse_take_reverse, take_append, take_take]
  omega

variable {l s}

theorem rtake_of_le (h : l.length ≤ n) : l.rtake n = l := by
  rw [rtake, Nat.sub_eq_zero_of_le h, drop_zero]

namespace Holds

/-- Bytes that fit before the end of the buffer replace the oldest ones. -/
theorem advance (h : Holds n b (l.rtake n)) (hs : s.length ≤ n - b.start) :
    Holds n (b.advance n s) ((l ++ s).rtake n) := by
  rw [← rtake_rtake_append]
  generalize l.rtake n = l at h
  obtain ⟨hsig, a, c, hdata, hstart, hn, hl⟩ := h
  obtain ⟨c₁, c₂, rfl, hc₁⟩ : ∃ c₁ c₂, c = c₁ ++ c₂ ∧ c₁.length = s.length :=
    ⟨_, _, (take_append_drop s.length c).symm, length_take_of_le (by omega)⟩
  rw [length_append] at hn
  have hlen : (a ++ s).length = a.length + s.length := length_append
  refine ⟨hsig, a ++ s, c₂, ?_, ?_, by omega, ?_⟩
  · have hdrop : drop (a.length + c₁.length) (a ++ (c₁ ++ c₂)) = c₂ := by simp
    show b.data.take b.start ++ s ++ b.data.drop (b.start + s.length) = _
    rw [hdata, hstart, ← hc₁, hdrop, take_left]
  · rw [hlen, ← hstart]
    rfl
  · show (if b.size < n then b.size + s.length else b.size) = _ ∧ _ ∨
      (if b.size < n then b.size + s.length else b.size) = n ∧ _
    rcases hl with ⟨hsize, rfl⟩ | ⟨hsize, rfl⟩
    · refine .inl ⟨?_, rtake_of_le (by omega)⟩
      split <;> omega
    · refine .inr ⟨by rw [if_neg (by omega), hsize], ?_⟩
      have hlast : (c₂ ++ (a ++ s)).length = n := by
        rw [length_append]
        omega
      rw [append_assoc, append_assoc, rtake, length_append, hlast, Nat.add_sub_cancel, drop_left]

theorem write (h : Holds n b (l.rtake n)) (s : List UInt8) :
    Holds n (b.write n s) ((l ++ s).rtake n) := by
  have hs : (if n < s.length then s.drop (s.length - n) else s) = s.rtake n := by
    split
    · rfl
    · exact (rtake_of_le (by omega)).symm
  have hle : (s.rtake n).length ≤ n := by simp [rtake_eq_reverse_take_reverse]
  unfold RamConsole.write
  rw [hs, ← rtake_append_rtake]
  generalize s.rtake n = s at hle
  dsimp only
  split
  next hlt =>
    -- The first bytes fill the buffer up to its end, so all of it is older than the others.
    have hfull : Holds n { b.update (s.take (n - b.start)) with start := 0, size := n }
        ((l ++ s.take (n - b.start)).rtake n) := by
      have hlen : (s.take (n - b.start)).length = n - b.start := length_take_of_le hlt.le
      obtain ⟨hsig, a, c, hdata, hstart, hn, hl⟩ := h.advance hlen.le
      have hnil : c = [] := length_eq_zero_iff.mp <| by
        change b.start + _ = _ at hstart
        omega
      subst hnil
      rw [append_nil] at hdata
      refine ⟨hsig, [], a, hdata, rfl, by omega, .inr ⟨rfl, ?_⟩⟩
      rw [append_nil]
      exact hl.elim And.right And.right
    have hdrop : (s.drop (n - b.start)).length ≤ n := by
      rw [length_drop]
      omega
    have hrest := hfull.advance hdrop
    rwa [append_assoc, take_append_drop] at hrest
  next hfit => exact h.advance (not_lt.mp hfit)

theorem run (h : Holds n b (l.rtake n)) (writes : List (List UInt8)) :
    Holds n (writes.foldl (RamConsole.write n) b) ((l ++ writes.flatten).rtake n) := by
  induction writes generalizing b l with
  | nil => rwa [flatten_nil, append_nil]
  | cons s writes ih =>
    rw [flatten_cons, ← append_assoc]
    exact ih (h.write s)

theorem init (h : Holds n b l) (oldBuf kmalloc : Bool) :
    (b.init n oldBuf kmalloc).2 = if oldBuf || kmalloc then some l else none := by
  obtain ⟨hsig, a, c, hdata, hstart, hn, hl⟩ := h
  have hle : ¬(n < b.size ∨ b.size < b.start) := by omega
  have hlog : (b.data.drop b.start).take (b.size - b.start) ++ b.data.take b.start = l := by
    rw [hdata, hstart, drop_left, take_left]
    rcases hl with ⟨hsize, rfl⟩ | ⟨hsize, rfl⟩
    · rw [hsize, Nat.sub_self, take_zero, nil_append]
    · rw [take_of_length_le (by omega)]
  simp only [RamConsole.init, if_pos hsig, if_neg hle, saveOld, hlog]

end Holds

/-- Whatever was in the buffer before, `ram_console_init` saves the last bytes that were written
since it ran before, if there is memory for them. -/
theorem old_log_eq (b : RamConsole) (writes : List (List UInt8))
    (oldBuf₀ kmalloc₀ oldBuf kmalloc : Bool) :
    let n := b.data.length
    ((writes.foldl (write n) (b.init n oldBuf₀ kmalloc₀).1).init n oldBuf kmalloc).2 =
      if oldBuf || kmalloc then some (writes.flatten.rtake n) else none := by
  intro n
  have hempty : Holds n (b.init n oldBuf₀ kmalloc₀).1 (rtake [] n) :=
    ⟨rfl, [], b.data, rfl, rfl, zero_add n, .inl ⟨rfl, rtake_nil n⟩⟩
  exact (hempty.run writes).init oldBuf kmalloc

theorem old_log_lost : ∃ (b : RamConsole) (writes : List (List UInt8)), b.data.length = 1 ∧
    writes.flatten.rtake 1 = [65] ∧
    ((writes.foldl (write 1) (b.init 1 false true).1).init 1 false false).2 = none :=
  ⟨⟨0, 0, 0, [0]⟩, [[65]], rfl, rfl, rfl⟩

end RamConsole

end AndroidKernel
