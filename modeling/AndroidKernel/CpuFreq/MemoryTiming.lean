import AndroidKernel.Lib.Runs

/-!
# The timing registers of the memory controllers

A store to one of the sysfs files keeps a pair of values, and the next call of `set_max8998` writes
them to the two controllers. The values for `TimingRow` go to `TimingAref`, and a value of 0 is
taken for nothing to write.
-/

namespace AndroidKernel.CpuFreq

open Function

inductive Timing
  | aref
  | row
  | data
  deriving DecidableEq

/-- A timing register of the first or the second controller. -/
abbrev TimingReg := Timing × Bool

/-- The registers, and the variables `mod...` that belong to them. `requested` is what was stored
last, and `flushed` what was stored last before the last call of `set_max8998`; the code does not
keep them. -/
structure Dmc where
  hw : TimingReg → UInt32
  mod : TimingReg → UInt32
  requested : TimingReg → UInt32
  flushed : TimingReg → UInt32

namespace Dmc

variable (s : Dmc)

/-- The variables of both controllers get a value. -/
def pair (t : Timing) (v₀ v₁ : UInt32) (f : TimingReg → UInt32) : TimingReg → UInt32 := fun r =>
  if r.1 = t then if r.2 then v₁ else v₀ else f r

/-- `store_timing_registers` and its two siblings, with the two values of the string. -/
def storeTimingRegisters (t : Timing) (v₀ v₁ : UInt32) : Dmc :=
  { s with mod := pair t v₀ v₁ s.mod, requested := pair t v₀ v₁ s.requested }

/-- One of the six parts of `writeMemoryData`: the value kept for `r` is written to `r'`. -/
@[irreducible] def writeOne (r r' : TimingReg) : Dmc :=
  if s.mod r ≠ 0 then { s with hw := update s.hw r' (s.mod r), mod := update s.mod r 0 } else s

def writeMemoryData : Dmc :=
  let s := (s.writeOne (.aref, false) (.aref, false)).writeOne (.aref, true) (.aref, true)
  let s := (s.writeOne (.row, false) (.aref, false)).writeOne (.row, true) (.aref, true)
  (s.writeOne (.data, false) (.data, false)).writeOne (.data, true) (.data, true)

/-- What `set_max8998` does to the registers. -/
def setMax8998 : Dmc := { s.writeMemoryData with requested := s.requested, flushed := s.requested }

inductive Op
  | store (t : Timing) (v₀ v₁ : UInt32)
  | setMax8998

def step : Op → Option Dmc
  | .store t v₀ v₁ => some (s.storeTimingRegisters t v₀ v₁)
  | .setMax8998 => some s.setMax8998

def init (hw : TimingReg → UInt32) : Dmc := ⟨hw, fun _ => 0, hw, hw⟩

/-- Only registers that are written, and values that are. -/
def Written (_ : Dmc) : Op → Prop
  | .store t v₀ v₁ => t ≠ .row ∧ v₀ ≠ 0 ∧ v₁ ≠ 0
  | .setMax8998 => True

instance (op : Op) : Decidable (s.Written op) := by
  unfold Written
  split <;> infer_instance

/-- What was asked for last is in the register or kept for it. -/
structure Inv : Prop where
  hw : s.hw = s.flushed
  requested : ∀ r, s.requested r = if s.mod r = 0 then s.hw r else s.mod r
  row : ∀ b, s.mod (.row, b) = 0

variable {s} {s' : Dmc} {op : Op} (r r' x : TimingReg)

theorem hw_writeOne :
    (s.writeOne r r').hw x = if x = r' ∧ s.mod r ≠ 0 then s.mod r else s.hw x := by
  unfold writeOne
  by_cases hr : s.mod r = 0 <;> by_cases hx : x = r' <;> simp [hr, hx]

theorem mod_writeOne : (s.writeOne r r').mod x = if x = r then 0 else s.mod x := by
  unfold writeOne
  by_cases hr : s.mod r = 0 <;> by_cases hx : x = r <;> simp [hr, hx]

/-- With nothing kept for `TimingRow`, each value goes to its register. -/
theorem hw_writeMemoryData (hrow : ∀ b, s.mod (.row, b) = 0) :
    s.writeMemoryData.hw r = if s.mod r = 0 then s.hw r else s.mod r := by
  rcases r with ⟨_ | _ | _, _ | _⟩ <;> simp [writeMemoryData, hw_writeOne, mod_writeOne, hrow]

theorem mod_writeMemoryData : s.writeMemoryData.mod r = 0 := by
  rcases r with ⟨_ | _ | _, _ | _⟩ <;> simp [writeMemoryData, mod_writeOne]

theorem Inv.setMax8998 (h : s.Inv) : s.setMax8998.Inv := by
  have hhw (r : TimingReg) : s.setMax8998.hw r = s.requested r :=
    (hw_writeMemoryData r h.row).trans (h.requested r).symm
  refine ⟨funext hhw, fun r => ?_, fun b => mod_writeMemoryData _⟩
  exact (hhw r).symm.trans (if_pos (mod_writeMemoryData r)).symm

theorem Inv.store (h : s.Inv) {t : Timing} {v₀ v₁ : UInt32} (ht : t ≠ .row) (hv₀ : v₀ ≠ 0)
    (hv₁ : v₁ ≠ 0) : (s.storeTimingRegisters t v₀ v₁).Inv := by
  refine ⟨h.hw, fun r => ?_, fun b => (if_neg ht.symm).trans (h.row b)⟩
  show pair t v₀ v₁ s.requested r = if pair t v₀ v₁ s.mod r = 0 then _ else pair t v₀ v₁ s.mod r
  unfold pair
  by_cases hreg : r.1 = t
  · simp only [if_pos hreg]
    cases r.2 with
    | false => exact (if_neg hv₀).symm
    | true => exact (if_neg hv₁).symm
  · simp only [if_neg hreg]
    exact h.requested r

theorem inv_step (h : s.Inv) (hok : s.Written op) (hs : s.step op = some s') : s'.Inv := by
  cases op with
  | store t v₀ v₁ =>
    cases hs
    exact h.store hok.1 hok.2.1 hok.2.2
  | setMax8998 =>
    cases hs
    exact h.setMax8998

/-- If nothing is asked for `TimingRow` and no value is 0, each register has what was asked for it
last and written by `set_max8998`. -/
theorem hw_eq_flushed {hw : TimingReg → UInt32} (h : Reached step Written (init hw) s) :
    s.hw = s.flushed := by
  have hinv : s.Inv := by
    refine h.invariant (P := Inv) ⟨rfl, fun _ => rfl, fun _ => rfl⟩ ?_
    exact fun _ _ _ h hok hs => inv_step h hok hs
  exact hinv.hw

theorem hw_eq_flushed_data : ∃ s, Reached step Written (init fun _ => 1) s ∧
    (s.flushed (.data, true) = 3 ∧ s.flushed (.aref, true) = 1) ∧ s.hw = s.flushed :=
  Reached.exists_of_checked_and [.store .data 2 3, .setMax8998] (by decide +kernel)
    fun _ hrun _ => hw_eq_flushed hrun

/-- A request for `TimingRow` changes `TimingAref` instead, and one for 0 changes nothing. -/
theorem row_written_to_aref : (∃ s, Reached step (fun _ _ => True) (init fun _ => 1) s ∧
      s.flushed (.row, false) = 2 ∧ s.hw (.row, false) = 1 ∧
      s.flushed (.aref, false) = 1 ∧ s.hw (.aref, false) = 2) ∧
    ∃ s, Reached step (fun _ _ => True) (init fun _ => 1) s ∧
      s.flushed (.data, false) = 0 ∧ s.hw (.data, false) = 1 := by
  constructor
  · exact Reached.exists_of_checked [.store .row 2 3, .setMax8998] (by decide +kernel)
  · exact Reached.exists_of_checked [.store .data 0 3, .setMax8998] (by decide +kernel)

end Dmc

end AndroidKernel.CpuFreq
