import AndroidKernel.CpuFreq.Basic
import AndroidKernel.KernelLib.Strtoul

/-!
# The tables in sysfs

The tables of undervolts and of enabled levels are read with `sscanf`, which stores the numbers as
it finds them. The functions then take any other count than one for an error.
-/

namespace AndroidKernel.CpuFreq

open Strtoul

/-- The numbers that `vsscanf` stores for a format of so many `%d`, or `%u` if `isSign` is not set,
with blanks in between. -/
def vsscanf (isSign : Bool) : Nat → List Byte → List Int
  | 0, _ => []
  | n + 1, str =>
    let str := str.dropWhile isspace
    if isSign ∧ str.head? = some 45 then
      if str.tail.head?.any isdigit then
        let r := simpleStrtoul str.tail 10
        Int.bmod (-r.1) (2 ^ 32) :: vsscanf isSign n r.2
      else []
    else if str.head?.any isdigit then
      let r := simpleStrtoul str 10
      (if isSign then Int.bmod r.1 (2 ^ 32) else r.1) :: vsscanf isSign n r.2
    else []

/-- `store_UV_mV_table`, with the new `exp_UV_mV`. -/
def storeUVMVTable (expUVMV : Nat → Int) (buf : List Byte) (count : Nat) : Int × (Nat → Int) :=
  let values := vsscanf false 10 buf
  (if values.length ≠ 1 then Dvfs.einval else count, fun i => values.getD i (expUVMV i))

/-- `store_states_enabled_table`, with `sscanf`. -/
def Dvfs.storeStatesEnabled (s : Dvfs) (buf : List Byte) (count : Nat) : Int × Dvfs :=
  s.storeStatesEnabledTable (vsscanf true 10 buf) count

/-! ## All or nothing -/

/-- The numbers that a string supplies, `n` at most: each is blanks, a minus if there may be a sign,
and one or more digits. -/
def numbers (isSign : Bool) : Nat → List Byte → List Int
  | 0, _ => []
  | n + 1, str =>
    let str := str.dropWhile isspace
    let minus := isSign && str.head? = some 45
    let str := if minus then str.tail else str
    let ds := str.takeWhile isdigit
    if ds = [] then []
    else (if minus then -1 else 1) * (number 10 ds : Int) ::
      numbers isSign n (str.dropWhile isdigit)

/-- A number in a table of `int` or of `unsigned int`. -/
def stored (isSign : Bool) (v : Int) : Int :=
  if isSign then Int.bmod v (2 ^ 32) else v % 2 ^ 32

/-- A store that returned `ret` and left `table'` has taken all ten numbers or nothing. -/
structure AllOrNothing (values : List Int) (count : Nat) (table : Nat → Int) (ret : Int)
    (table' : Nat → Int) : Prop where
  count_iff : ret = count ↔ values.length = 10
  all : ret = count → ∀ i, i < 10 → values[i]? = some (table' i)
  nothing : ret = Dvfs.einval → table' = table

/-- Neither one number nor ten, and none that the table does not have already. -/
structure Harmless (isSign : Bool) (values : List Int) (table : Nat → Int) : Prop where
  one : values.length ≠ 1
  ten : values.length ≠ 10
  same : ∀ i v, values[i]? = some v → stored isSign v = table i

theorem simpleStrtoul_ten (str : List Byte) : simpleStrtoul str 10 =
    (number 10 (str.takeWhile isdigit) % 2 ^ 32, str.dropWhile isdigit) := by
  have hdigit : isDigit 10 = isdigit := funext (by decide +kernel)
  rw [simpleStrtoul, strtoLoop_eq]
  simp [start, hdigit]

theorem stored_natCast (isSign : Bool) (n : Nat) : stored isSign n =
    if isSign then Int.bmod (n % 2 ^ 32 : Nat) (2 ^ 32) else (n % 2 ^ 32 : Nat) := by
  have hmod : (n : Int) % (2 ^ 32 : Nat) = ((n % 2 ^ 32 : Nat) : Int) % (2 ^ 32 : Nat) := by omega
  cases isSign with
  | false => simp [stored]
  | true => simp only [stored, if_true, Int.bmod_def, hmod]

theorem stored_neg (n : Nat) : stored true (-n) = Int.bmod (-(n % 2 ^ 32 : Nat)) (2 ^ 32) := by
  have hmod : (-(n : Int)) % (2 ^ 32 : Nat) = -((n % 2 ^ 32 : Nat) : Int) % (2 ^ 32 : Nat) := by
    omega
  simp only [stored, if_true, Int.bmod_def, hmod]

/-- `vsscanf` stores the numbers of the string, on 32 bits. -/
theorem vsscanf_eq (isSign : Bool) (n : Nat) (str : List Byte) :
    vsscanf isSign n str = (numbers isSign n str).map (stored isSign) := by
  induction n generalizing str with
  | zero => rfl
  | succ n ih =>
    have hnil (l : List Byte) : l.takeWhile isdigit = [] ↔ ¬l.head?.any isdigit := by
      cases l <;> simp [List.takeWhile_cons]
    rw [vsscanf, numbers]
    simp only [simpleStrtoul_ten, hnil, ih]
    generalize str.dropWhile isspace = t
    by_cases hsign : isSign ∧ t.head? = some 45
    · obtain ⟨rfl, hsign⟩ := hsign
      simp only [hsign, and_self, decide_true, Bool.and_self, if_true, neg_one_mul]
      by_cases hdigit : t.tail.head?.any isdigit
      · rw [if_pos hdigit, if_neg (not_not.mpr hdigit), List.map_cons, stored_neg]
      · rw [if_neg hdigit, if_pos hdigit, List.map_nil]
    · have hnot : (isSign && decide (t.head? = some 45)) = false := by simpa using hsign
      simp only [hsign, hnot, if_false, Bool.false_eq_true, one_mul]
      by_cases hdigit : t.head?.any isdigit
      · rw [if_pos hdigit, if_neg (not_not.mpr hdigit), List.map_cons, stored_natCast]
      · rw [if_neg hdigit, if_pos hdigit, List.map_nil]

theorem length_numbers (isSign : Bool) (n : Nat) (str : List Byte) :
    (numbers isSign n str).length ≤ n := by
  induction n generalizing str with
  | zero => simp [numbers]
  | succ n ih =>
    rw [numbers]
    split_ifs <;> simp [ih]

/-- The numbers are stored in any case, and one number alone is taken for a success. -/
theorem allOrNothing_iff (isSign : Bool) (values : List Int) (count : Nat) (table : Nat → Int) :
    AllOrNothing values count table (if values.length ≠ 1 then Dvfs.einval else count)
      (fun i => (values.map (stored isSign)).getD i (table i)) ↔ Harmless isSign values table := by
  have hne : Dvfs.einval ≠ (count : Int) := by
    simp only [Dvfs.einval]
    omega
  constructor
  · intro h
    have hone : values.length ≠ 1 := by
      intro hone
      have := h.count_iff.mp (if_neg (not_not.mpr hone))
      omega
    refine ⟨hone, fun hten => ?_, fun i v hv => ?_⟩
    · have hret := h.count_iff.mpr hten
      rw [if_pos hone] at hret
      exact hne hret
    · have hi := congrFun (h.nothing (if_pos hone)) i
      simpa [hv] using hi
  · intro h
    rw [if_pos h.one]
    refine ⟨iff_of_false hne h.ten, fun hret => absurd hret hne, fun _ => funext fun i => ?_⟩
    cases hv : values[i]? with
    | none => simp [hv]
    | some v => simpa [hv] using h.same i v hv

/-- **The stores are all or nothing** for strings of harmless numbers, and for no others. -/
theorem stores_allOrNothing (buf : List Byte) (count : Nat) :
    (∀ table, AllOrNothing (numbers false 10 buf) count table (storeUVMVTable table buf count).1
      (storeUVMVTable table buf count).2 ↔ Harmless false (numbers false 10 buf) table) ∧
    (∀ s : Dvfs, AllOrNothing (numbers true 10 buf) count s.activeStates
      (s.storeStatesEnabled buf count).1 (s.storeStatesEnabled buf count).2.activeStates ↔
        Harmless true (numbers true 10 buf) s.activeStates) := by
  constructor
  · intro table
    simp only [storeUVMVTable, vsscanf_eq, List.length_map]
    exact allOrNothing_iff false _ count table
  · intro s
    have htake : ((numbers true 10 buf).map (stored true)).take 10 =
        (numbers true 10 buf).map (stored true) :=
      List.take_of_length_le (by simpa using length_numbers true 10 buf)
    simp only [Dvfs.storeStatesEnabled, Dvfs.storeStatesEnabledTable, vsscanf_eq, htake,
      List.length_map]
    exact allOrNothing_iff true _ count s.activeStates

/-- Ten numbers, "5 5 5 5 5 5 5 5 5 5", are stored and reported as an error; the single number of
"5" is reported as a success. -/
theorem stores_report_wrong : ∃ ten one : List Byte,
    numbers false 10 ten = List.replicate 10 5 ∧
    (storeUVMVTable (fun _ => 0) ten 19).1 = Dvfs.einval ∧
    (storeUVMVTable (fun _ => 0) ten 19).2 0 = 5 ∧
    numbers false 10 one = [5] ∧ (storeUVMVTable (fun _ => 0) one 1).1 = 1 :=
  ⟨(List.replicate 9 [53, 32]).flatten ++ [53], [53], by decide +kernel⟩

end AndroidKernel.CpuFreq
