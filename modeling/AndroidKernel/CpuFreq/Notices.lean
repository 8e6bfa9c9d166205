import AndroidKernel.CpuFreq.Programmed

/-!
# The notifications of a change

`s5pc110_target` sends `CPUFREQ_PRECHANGE` before it changes the clock and `CPUFREQ_POSTCHANGE`
with the frequency of the level after that. The error exits in between, which are not taken as
long as the shared index is one of the table, send nothing.
-/

namespace AndroidKernel.CpuFreq.Cpu

open List

/-- A notification; the second number of `post` is the rate of the ARM clock at this moment. -/
inductive Notice
  | pre (freq : Nat)
  | post (freq armclk : Nat)
  deriving DecidableEq

/-- What a step sends. -/
def notices (s : Cpu) : Op → List Notice
  | .run =>
    match s.pc with
    | .got .target i => if s.prevIndex = i then [] else [.pre (frequency i)]
    | .post i => [.post (frequency i) s.hw.armclk]
    | _ => []
  | .target _ | .pmTarget _ | .perfLevel _ => []

/-- A step, and all that has been sent. -/
def stepNotices (s : Cpu × List Notice) (op : Op) : Option (Cpu × List Notice) :=
  (s.1.step op).map fun cpu => (cpu, s.2 ++ s.1.notices op)

/-- Each `CPUFREQ_PRECHANGE` is followed by one `CPUFREQ_POSTCHANGE` that has the rate of the ARM
clock, but for the last one, if the change is not `complete`. -/
inductive Paired : List Notice → (complete : Bool) → Prop
  | nil : Paired [] true
  | pre {log : List Notice} (freq : Nat) : Paired log true → Paired (log ++ [.pre freq]) false
  | post {log : List Notice} {freq armclk : Nat} : Paired log false → armclk = freq * khzT →
      Paired (log ++ [.post freq armclk]) true

/-- No change is in progress. -/
def complete : Pc → Bool
  | .voltage _ | .setRate _ | .apllDiv _ _ | .apllOff _ _ | .apllOn _ _ | .divider _ _
  | .post _ => false
  | .idle | .returned _ _ _ | .enter _ _ | .again _ | .store _ _ | .got _ _ | .pmVoltage _
  | .clkSetRate _ => true

variable {s s' : Cpu} {op : Op} {c : Change} {i : Nat} {log : List Notice}

theorem complete_rated (c : Change) : complete (rated c) = false := by
  unfold rated
  split <;> rfl

/-- The clock routine does not fail. -/
theorem complete_armclkSetRate (h : s.Good false) : complete (s.armclkSetRate c) = false := by
  have hlen : ¬s.dvfs.cpufreqIndex ≥ clkInfoTab.length := Nat.not_le.mpr (Nat.lt_succ_of_le h.index)
  rw [armclkSetRate]
  split_ifs
  · exact complete_rated c
  · rfl
  · exact complete_rated c
  · rfl

/-- A step from one place of the call to another that sends nothing. -/
theorem Paired.quiet (h : Paired log (complete s.pc)) (hnotices : s.notices op = [])
    (hcomplete : complete s'.pc = complete s.pc) :
    Paired (log ++ s.notices op) (complete s'.pc) := by
  rw [hnotices, append_nil, hcomplete]
  exact h

theorem paired_run (hgood : s.Good false) (hran : Ran s s') (h : Paired log (complete s.pc)) :
    Paired (log ++ s.notices .run) (complete s'.pc) := by
  cases hran with
  | same hpc heq => exact h.quiet (by simp only [notices, hpc, if_pos heq]) (by rw [hpc]; rfl)
  | @down i hpc hlt | @up i hpc hlt =>
    have hne : s.prevIndex ≠ i := by omega
    have hnotices : s.notices .run = [.pre (frequency i)] := by
      simp only [notices, hpc, if_neg hne]
    rw [hpc] at h
    rw [hnotices]
    exact h.pre _
  | @post i hpc =>
    have hnotices : s.notices .run = [.post (frequency i) s.hw.armclk] := by
      rw [notices, hpc]
    have htuned : Tuned s.hw i := hgood.here hpc
    rw [hpc] at h
    rw [hnotices]
    exact h.post htuned.armclk
  | setRate hpc =>
    exact h.quiet (by rw [notices, hpc]) ((complete_armclkSetRate hgood).trans (by rw [hpc]; rfl))
  | @apllOn c _ hpc | @divider c _ hpc =>
    exact h.quiet (by rw [notices, hpc]) ((complete_rated c).trans (by rw [hpc]; rfl))
  | enterStore _ hpc | enterAgain hpc _ | again hpc | store hpc | pm hpc | lower hpc | raise hpc
  | apllDiv hpc | apllOff hpc | pmVoltage hpc | clkError hpc | clkSetRate hpc _ =>
    exact h.quiet (by rw [notices, hpc]) (by rw [hpc]; rfl)

theorem complete_of_atRest (h : s.atRest = true) : complete s.pc = true := by
  unfold atRest at h
  split at h <;> simp_all [complete]

theorem paired_step (hgood : s.Good false) (hs : s.step op = some s')
    (h : Paired log (complete s.pc)) :
    Paired (log ++ s.notices op) (complete s'.pc) := by
  cases op with
  | target freq | pmTarget freq =>
    obtain ⟨hrest, rfl⟩ := Option.ite_some_none_eq_some.mp hs
    exact h.quiet rfl (complete_of_atRest hrest).symm
  | run => exact paired_run hgood (ran_of_run hs) h
  | perfLevel level =>
    cases hs
    exact h.quiet rfl rfl

/-- In every run whose steps meet the condition, each `CPUFREQ_PRECHANGE` is followed by one
`CPUFREQ_POSTCHANGE` with the rate of the ARM clock before the call returns and before the next
one. -/
theorem notices_paired {behind : Nat → Int} {s : Cpu × List Notice}
    (h : Reached stepNotices (fun s => s.1.Undisturbed false) (init behind, []) s) :
    Paired s.2 (complete s.1.pc) ∧ (s.1.atRest = true → Paired s.2 true) := by
  have hinv : s.1.Good false ∧ Paired s.2 (complete s.1.pc) := by
    refine h.invariant (P := fun s => s.1.Good false ∧ Paired s.2 (complete s.1.pc))
      ⟨good_init behind, .nil⟩ ?_
    rintro s s' op ⟨hgood, hpaired⟩ hok hs
    obtain ⟨cpu, hcpu, rfl⟩ := Option.map_eq_some_iff.mp hs
    exact ⟨good_step hgood hok hcpu, paired_step hgood hcpu hpaired⟩
  exact ⟨hinv.2, fun hrest => complete_of_atRest hrest ▸ hinv.2⟩

/-- A change to 400 MHz. -/
theorem notices_paired_400MHZ :
    ∃ s, Reached stepNotices (fun s => s.1.Undisturbed false) (init fun _ => 0, []) s ∧
      (s.1.atRest = true ∧ s.2 = [.pre 400000, .post 400000 (400 * mhz)]) ∧ Paired s.2 true :=
  Reached.exists_of_checked_and ([.target 400000] ++ replicate 9 .run) (by decide +kernel)
    fun _ h hs => (notices_paired h).2 hs.1

/-- A change to 600 MHz, for which the table has the divider of 800 MHz, and one to 400 MHz where
an event asks for 800 MHz after the level has been found. -/
theorem notices_wrong :
    (∃ s, Reached stepNotices (fun _ _ => True) (init fun _ => 0, []) s ∧ s.1.atRest = true ∧
      s.2 = [.pre 600000, .post 600000 (800 * mhz)]) ∧
    (∃ s, Reached stepNotices (fun _ _ => True) (init fun _ => 0, []) s ∧ s.1.atRest = true ∧
      s.2 = [.pre 400000, .post 400000 (800 * mhz)]) := by
  constructor
  · exact Reached.exists_of_checked ([.target 600000] ++ replicate 9 .run) (by decide +kernel)
  · exact Reached.exists_of_checked
      ([.target 400000] ++ replicate 3 .run ++ [.perfLevel 5] ++ replicate 3 .run)
      (by decide +kernel)

end AndroidKernel.CpuFreq.Cpu
