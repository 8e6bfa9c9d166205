import Mathlib.Algebra.Order.Ring.Int
import Mathlib.Data.List.TakeWhile

/-!
# Conversion of numerals (`lib/vsprintf.c`)

`simple_strtoul` and `simple_strtoull` read the digits at the start of a string and wrap around on
32 or 64 bits; they skip `0x` whether or not a digit follows. `strict_strtoul` accepts what
`simple_strtoul` reads to the end.
-/

namespace AndroidKernel.Strtoul

open List

abbrev Byte := Fin 256

instance byteNeZero : NeZero 256 := ⟨by decide⟩

/-- `isspace`, by the table of `lib/ctype.c`. -/
def isspace (c : Byte) : Bool := 9 ≤ c && c ≤ 13 || c = 32 || c = 160

def isdigit (c : Byte) : Bool := 48 ≤ c && c ≤ 57

def isxdigit (c : Byte) : Bool := isdigit c || 65 ≤ c && c ≤ 70 || 97 ≤ c && c ≤ 102

/-- `TOLOWER`. -/
def tolower (c : Byte) : Byte := c ||| 0x20

/-- `simple_guess_base`. -/
def simpleGuessBase (cp : List Byte) : Nat :=
  if cp.getD 0 0 = 48 then
    if tolower (cp.getD 1 0) = 120 ∧ isxdigit (cp.getD 2 0) then 16 else 8
  else 10

def digitValue (c : Byte) : Nat :=
  if isdigit c then c.val - 48 else (tolower c).val - 97 + 10

def isDigit (base : Nat) (c : Byte) : Bool := isxdigit c && digitValue c < base

/-- The loop over the digits, with a result of `w` bits. -/
def strtoLoop (w base : Nat) : List Byte → Nat → Nat × List Byte
  | [], result => (result, [])
  | c :: cp, result =>
    if isDigit base c then strtoLoop w base cp ((result * base + digitValue c) % 2 ^ w)
    else (result, c :: cp)

/-- The start of both functions: the base, and where the digits are to be. -/
def start (cp : List Byte) (base : Nat) : Nat × List Byte :=
  let base := if base = 0 then simpleGuessBase cp else base
  (base, if base = 16 ∧ cp.getD 0 0 = 48 ∧ tolower (cp.getD 1 0) = 120 then cp.drop 2 else cp)

/-- `simple_strtoul`: the number, and what follows it. -/
def simpleStrtoul (cp : List Byte) (base : Nat) : Nat × List Byte :=
  strtoLoop 32 (start cp base).1 (start cp base).2 0

/-- `simple_strtoull`. -/
def simpleStrtoull (cp : List Byte) (base : Nat) : Nat × List Byte :=
  strtoLoop 64 (start cp base).1 (start cp base).2 0

/-- `strict_strtoul` for the bytes before the zero: the number, or `-EINVAL`. -/
def strictStrtoul (cp : List Byte) (base : Nat) : Option Nat :=
  let r := simpleStrtoul cp base
  if cp.length = 0 ∨ r.2.length = cp.length then none
  else if r.2 = [] ∨ r.2 = [10] then some r.1
  else none

/-! ## Numerals -/

/-- The number that digits stand for. -/
def number (b : Nat) (ds : List Byte) : Nat := ds.foldl (fun v c => v * b + digitValue c) 0

/-- The base of a numeral and its digits. There may be a `0x` if the base is 0 or 16; if there is
none, the base 0 stands for 8 if there is a leading zero, and for 10 if not. -/
def numeralStart (s : List Byte) (base : Nat) : Nat × List Byte :=
  let zero := s.getD 0 0 = 48
  if (base = 0 ∨ base = 16) ∧ zero ∧ tolower (s.getD 1 0) = 120 ∧ isxdigit (s.getD 2 0) then
    (16, s.drop 2)
  else (if base ≠ 0 then base else if zero then 8 else 10, s)

/-- The value of a numeral, with a newline or nothing behind it. -/
def numeral (s : List Byte) (base : Nat) : Option Nat :=
  let (b, ds) := numeralStart s base
  let tail := ds.dropWhile (isDigit b)
  if ds.takeWhile (isDigit b) ≠ [] ∧ (tail = [] ∨ tail = [10]) then
    some (number b (ds.takeWhile (isDigit b)))
  else none

variable {base b w r : Nat} {cp s : List Byte}

/-- The loop reads all the digits, with the number that they stand for on `w` bits. -/
theorem strtoLoop_eq (w b : Nat) (cp : List Byte) : strtoLoop w b cp 0 =
    (number b (cp.takeWhile (isDigit b)) % 2 ^ w, cp.dropWhile (isDigit b)) := by
  suffices h : ∀ r v, r = v % 2 ^ w → strtoLoop w b cp r = ((cp.takeWhile (isDigit b)).foldl
      (fun v c => v * b + digitValue c) v % 2 ^ w, cp.dropWhile (isDigit b)) from
    h 0 0 (Nat.zero_mod _).symm
  induction cp with
  | nil => simp +contextual [strtoLoop]
  | cons c cp ih =>
    rintro _ v rfl
    rw [strtoLoop]
    by_cases hc : isDigit b c
    · rw [if_pos hc, takeWhile_cons_of_pos hc, dropWhile_cons_of_pos hc, foldl_cons]
      refine ih _ _ ?_
      rw [Nat.add_mod, Nat.mul_mod, Nat.mod_mod, ← Nat.mul_mod, ← Nat.add_mod]
    · rw [if_neg hc, takeWhile_cons_of_neg hc, dropWhile_cons_of_neg hc, foldl_nil]

/-- With a base to be guessed, `0x` is skipped only if a digit follows. -/
theorem start_zero (cp : List Byte) : start cp 0 = numeralStart cp 0 := by
  grind [start, numeralStart, simpleGuessBase]

/-! ## What is accepted -/

/-- `0x` for the base 16, with no digit behind it. -/
def Bare (s : List Byte) (base : Nat) : Prop :=
  base = 16 ∧ s.getD 0 0 = 48 ∧ tolower (s.getD 1 0) = 120 ∧ s.drop 2 ∈ [[], [10]]

/-- The tests of `strict_strtoul`. What was skipped has to be followed by more. -/
theorem accept_eq {k : Nat} (hk : cp.length = k ∨ cp.length < k ∧ cp ∉ [[], [10]]) :
    let r := strtoLoop 32 b cp 0
    (if k = 0 ∨ r.2.length = k then none
      else if r.2 = [] ∨ r.2 = [10] then some r.1 else none) =
      (if cp.takeWhile (isDigit b) ≠ [] ∧
          (cp.dropWhile (isDigit b) = [] ∨ cp.dropWhile (isDigit b) = [10]) then
        some (number b (cp.takeWhile (isDigit b))) else none).map (· % 2 ^ 32) := by
  dsimp only
  rw [strtoLoop_eq]
  dsimp only
  have happend := takeWhile_append_dropWhile (p := isDigit b) (l := cp)
  have hlen := congrArg length happend
  rw [length_append] at hlen
  by_cases hnone : cp.takeWhile (isDigit b) = []
  · rw [hnone, nil_append] at happend
    rw [happend]
    grind
  · have hpos := length_pos_iff.mpr hnone
    rw [if_neg (by omega)]
    simp [hnone, apply_ite (Option.map _)]

/-- If it is not `0x` alone, a string is accepted if and only if it is a numeral, with the value on
32 bits. -/
theorem strictStrtoul_eq (hbare : ¬Bare s base) :
    strictStrtoul s base = (numeral s base).map (· % 2 ^ 32) := by
  simp only [Bare, not_and] at hbare
  unfold strictStrtoul simpleStrtoul numeral
  by_cases hskip : base = 16 ∧ s.getD 0 0 = 48 ∧ tolower (s.getD 1 0) = 120 ∧
    ¬isxdigit (s.getD 2 0)
  · -- no digit is read behind `0x`, and `x` ends the numeral
    obtain _ | ⟨c, _ | ⟨x, cp⟩⟩ := s
    · grind
    · grind
    have hread : strtoLoop 32 16 cp 0 = (0, cp) := by
      cases cp with
      | nil => rfl
      | cons c cp => rw [strtoLoop, if_neg (by simp_all [isDigit])]
    have hx : ¬isDigit 16 x ∧ x ≠ 10 := by
      have hx : ∀ x, tolower x = 120 → ¬isxdigit x ∧ x ≠ 10 := by decide +kernel
      simp [isDigit, hx x (by grind)]
    have hzero : isDigit 16 48 := by decide
    simp_all [start, numeralStart]
  · have hstart : start s base = numeralStart s base := by
      grind [start, numeralStart, simpleGuessBase]
    rw [hstart]
    apply accept_eq
    have hnot : ¬isxdigit 0 ∧ ¬isxdigit 10 ∧ tolower 0 ≠ 120 := by decide
    obtain _ | ⟨c, _ | ⟨x, _ | ⟨d, cp⟩⟩⟩ := s <;> simp [numeralStart] <;> grind

/-- `0x` alone is no numeral, but it is accepted. -/
theorem strictStrtoul_bare (h : Bare s base) :
    strictStrtoul s base = some 0 ∧ numeral s base = none := by
  obtain ⟨rfl, hzero, hx, htail⟩ := h
  have hxs : ∀ x, tolower x = 120 → x = 120 ∨ x = 88 := by decide +kernel
  obtain _ | ⟨c, _ | ⟨x, cp⟩⟩ := s
  · cases hzero
  · exact absurd (show tolower 0 = 120 from hx) (by decide)
  · obtain rfl : c = 48 := hzero
    obtain rfl | rfl := hxs x hx <;> simp only [drop_succ_cons, drop_zero, mem_cons,
      not_mem_nil, or_false] at htail <;> obtain rfl | rfl := htail <;> decide +kernel

/-- **What is accepted is the numeral that fits into 32 bits**, unless the string is a numeral that
does not fit or `0x` alone. -/
theorem strictStrtoul_iff (s : List Byte) (base : Nat) :
    strictStrtoul s base = (numeral s base).filter (· < 2 ^ 32) ↔
      ¬Bare s base ∧ ∀ v, numeral s base = some v → v < 2 ^ 32 := by
  by_cases hbare : Bare s base
  · obtain ⟨hstrict, hnumeral⟩ := strictStrtoul_bare hbare
    simp [hbare, hstrict, hnumeral]
  · rw [strictStrtoul_eq hbare]
    cases hv : numeral s base with
    | none => simp [hbare]
    | some v => by_cases hlt : v < 2 ^ 32 <;> simp [hbare, Option.filter]

/-- 2 ^ 32 is taken for 0, and so is `0x` with the base 16. -/
theorem strictStrtoul_wrong :
    (let s := [52, 50, 57, 52, 57, 54, 55, 50, 57, 54]
     strictStrtoul s 10 = some 0 ∧ numeral s 10 = some (2 ^ 32)) ∧
    strictStrtoul [48, 120] 16 = some 0 ∧ numeral [48, 120] 16 = none := by
  decide +kernel

end AndroidKernel.Strtoul
