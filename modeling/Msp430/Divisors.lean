/-
# Divisions by zero

The quotients that `handle_bcm`, `handle_timer_a` and `mclk_wait_cycles` evaluate while the
machine runs.  `handle_bcm` divides by the divider of its previous call, which the first call
does not have; `handle_timer_a` divides by the frequency of MCLK, which is not known before some
call has computed it, and by a period that is zero when `TA0CCR0 + 1` wraps.
`divisors_nonzero_iff` says when none of this happens.  The quotients of doubles are taken in
`ℚ`: a double here is zero where the rational number is.
-/
import Msp430.Clocks

namespace Msp430

open CString Trail

/-! ## The quotients -/

/-- The divisor of `handle_bcm`: `mclk_div`, as the call before left it. -/
def bcmDivisors (emu : Emulator) : List ℚ :=
  if SelectsDco emu then [(emu.bcm.mclkDiv : ℚ)] else []

/-- `TA0CCR0`, at `0x172`. -/
def ta0ccr0 : Ptr := .mem 0x172

/-- `uint16_t period_ct = *timer->TA0CCR0 + 1`. -/
def periodCt (emu : Emulator) : BitVec 16 := emu.load16 ta0ccr0 + 1

/-- `double period = (1.0/frequency) * period_ct`. -/
def period (emu : Emulator) : ℚ := 1 / (emu.bcm.mclkFreq : ℚ) * ((periodCt emu).toNat : ℚ)

/-- The divisors of `handle_timer_a`, in compare mode and up mode: the frequency for the period
and for the pulse width, and the period for the duty cycle. -/
def timerDivisors (emu : Emulator) : List ℚ :=
  let e := handleTimerA emu
  if e.timerA.compareMode0 = true ∧ e.timerA.mode0 = .up then
    [(e.bcm.mclkFreq : ℚ), (e.bcm.mclkFreq : ℚ), period e]
  else []

/-- The divisors of `mclk_wait_cycles`: `mclk_div`, and the integer quotient by it. -/
def waitDivisors (emu : Emulator) : List ℚ :=
  if emu.bcm.mclkSource = .dcoclk then
    [(emu.bcm.mclkDiv : ℚ), ((emu.bcm.dcoFreq / emu.bcm.mclkDiv : ℕ) : ℚ)]
  else []

/-- The divisors of a machine step. -/
def stepDivisors (emu : Emulator) : List ℚ :=
  bcmDivisors (cpuStep emu) ++ timerDivisors (handleBcm (cpuStep emu))

/-! ## The machine and its waiting -/

/-- The machine, and whether `main` is inside `mclk_wait_cycles`. -/
structure Paced where
  emu : Emulator
  waiting : Bool

/-- An event, or a turn of the loop of `mclk_wait_cycles`, the last if the time has elapsed. -/
inductive PacedEvent : Type where
  | event (ev : SessionEvent) : PacedEvent
  | wait (elapsed : Bool) : PacedEvent

/-- `main` waits after every instruction, and does nothing else until it leaves the loop, which
it does not unless the DCO is the source. -/
def Paced.step (p : Paced) : PacedEvent → Option Paced
  | .event .head => if p.waiting then none else (perform p.emu .head).map fun e => ⟨e, false⟩
  | .event .body => if p.waiting then none else (perform p.emu .body).map fun e => ⟨e, true⟩
  | .event ev => (perform p.emu ev).map fun e => ⟨e, p.waiting⟩
  | .wait elapsed =>
    if p.waiting then some { p with waiting := !(elapsed && p.emu.bcm.mclkSource = .dcoclk) }
    else none

/-- The states in which an event executes instructions. -/
def Paced.executed (p : Paced) : PacedEvent → List Emulator
  | .event ev => Msp430.executed p.emu ev
  | .wait _ => []

/-- The divisors of the quotients that an event evaluates. -/
def Paced.divisors (p : Paced) : PacedEvent → List ℚ
  | .event ev => (Msp430.executed p.emu ev).flatMap stepDivisors
  | .wait _ => waitDivisors p.emu

/-- The states in which a run executes instructions. -/
def Paced.executedIn (p : Paced) (evs : List PacedEvent) : List Emulator :=
  taken Paced.step Paced.executed p evs

/-- The divisors of all quotients that a run evaluates. -/
def Paced.divisorsIn (p : Paced) (evs : List PacedEvent) : List ℚ :=
  taken Paced.step Paced.divisors p evs

/-! ## When they are not zero -/

/-- Timer A computes a period: compare mode, and up mode. -/
def MeasuresPeriod (emu : Emulator) : Prop :=
  (emu.load16 (.mem 0x164)).getLsbD 8 = false ∧ (emu.load16 ta0ctl >>> 4) &&& 0x03 = 0b01

instance (emu : Emulator) : Decidable (MeasuresPeriod emu) :=
  inferInstanceAs (Decidable (_ ∧ _))

/-- No quotient of the run has the divisor zero, and `period_ct` never wraps. -/
def DividesByNoZero (p : Paced) (evs : List PacedEvent) : Prop :=
  (∀ d ∈ p.divisorsIn evs, d ≠ 0) ∧
    ∀ e ∈ p.executedIn evs, MeasuresPeriod (cpuStep e) →
      (periodCt (cpuStep e)).toNat = ((cpuStep e).load16 ta0ccr0).toNat + 1

/-- The first instruction does not leave the DCO selected, and wherever the timer computes a
period, `TA0CCR0` is not the greatest word and an instruction since the first has left the DCO
selected. -/
structure ClockedFirst (l : List Emulator) : Prop where
  first : ∀ e, l[0]? = some e → ¬ SelectsDco (cpuStep e)
  timed : ∀ i e, l[i]? = some e → MeasuresPeriod (cpuStep e) →
    (cpuStep e).load16 ta0ccr0 ≠ 0xFFFF ∧
      ∃ j e', 0 < j ∧ j ≤ i ∧ l[j]? = some e' ∧ SelectsDco (cpuStep e')

/-! ## The handlers -/

section Handlers

variable (emu : Emulator)

theorem bcmDivisors_nonzero_iff :
    (∀ d ∈ bcmDivisors emu, d ≠ 0) ↔ (SelectsDco emu → emu.bcm.mclkDiv ≠ 0) := by
  unfold bcmDivisors
  split_ifs with h
  · simp [h]
  · simp [h]

/-- The handler measures a period by the registers it finds. -/
theorem measuresPeriod_iff : ((handleTimerA emu).timerA.compareMode0 = true ∧
    (handleTimerA emu).timerA.mode0 = .up) ↔ MeasuresPeriod emu := by
  have hcap : (handleTimerA emu).timerA.compareMode0
      = !((handleTimerA emu).load16 (.mem 0x164)).getLsbD 8 := rfl
  have hload : (handleTimerA emu).load16 (.mem 0x164) = emu.load16 (.mem 0x164) := by
    simp only [Emulator.load16, mem_handleTimerA_of_ne emu (a := 0x164) (by decide),
      mem_handleTimerA_of_ne emu (a := 0x164 + 1) (by decide)]
  have hmode : (handleTimerA emu).timerA.mode0
      = if (emu.load16 ta0ctl >>> 4) &&& 0x03 = 0b00 then .stop
        else if (emu.load16 ta0ctl >>> 4) &&& 0x03 = 0b01 then .up
        else if (emu.load16 ta0ctl >>> 4) &&& 0x03 = 0b10 then .continous else .upDown := rfl
  rw [hcap, hload, hmode, MeasuresPeriod]
  apply and_congr (by simp)
  generalize (emu.load16 ta0ctl >>> 4) &&& 0x03 = mc
  split_ifs with h0 h1 h2 <;> simp_all

theorem periodCt_handleTimerA : periodCt (handleTimerA emu) = periodCt emu := by
  simp only [periodCt, ta0ccr0, Emulator.load16,
    mem_handleTimerA_of_ne emu (a := 0x172) (by decide),
    mem_handleTimerA_of_ne emu (a := 0x172 + 1) (by decide)]

/-- The 16-bit sum wraps at the greatest word alone. -/
theorem periodCt_wraps_iff :
    (periodCt emu).toNat = (emu.load16 ta0ccr0).toNat + 1 ↔ emu.load16 ta0ccr0 ≠ 0xFFFF := by
  unfold periodCt
  generalize emu.load16 ta0ccr0 = v
  bv_omega

theorem periodCt_nonzero_iff : periodCt emu ≠ 0 ↔ emu.load16 ta0ccr0 ≠ 0xFFFF := by
  unfold periodCt
  generalize emu.load16 ta0ccr0 = v
  bv_omega

/-- **The divisors of the timer** are the frequency of MCLK and a period of some ticks. -/
theorem timerDivisors_nonzero_iff : (∀ d ∈ timerDivisors emu, d ≠ 0) ↔
    (MeasuresPeriod emu → emu.bcm.mclkFreq ≠ 0 ∧ emu.load16 ta0ccr0 ≠ 0xFFFF) := by
  rw [← periodCt_nonzero_iff, ← measuresPeriod_iff]
  unfold timerDivisors
  dsimp only
  split_ifs with h
  · have hct : periodCt emu ≠ 0 ↔ (periodCt emu).toNat ≠ 0 := by bv_omega
    rw [hct]
    simp only [List.forall_mem_cons, bcm_handleTimerA, period, periodCt_handleTimerA]
    simp [h]
  · simp [h]

/-- The clock values are no registers. -/
theorem load16_handleBcm (a : ℕ) : (handleBcm emu).load16 (.mem a) = emu.load16 (.mem a) := by
  simp only [Emulator.load16, mem_handleBcm]

/-- **The divisors of a machine step**, by what the instruction leaves in the registers. -/
theorem stepDivisors_nonzero_iff : (∀ d ∈ stepDivisors emu, d ≠ 0) ↔
    (SelectsDco (cpuStep emu) → emu.bcm.mclkDiv ≠ 0) ∧
      (MeasuresPeriod (cpuStep emu) → (handleBcm (cpuStep emu)).bcm.mclkFreq ≠ 0 ∧
        (cpuStep emu).load16 ta0ccr0 ≠ 0xFFFF) := by
  have hmeasures : MeasuresPeriod (handleBcm (cpuStep emu)) ↔ MeasuresPeriod (cpuStep emu) := by
    unfold MeasuresPeriod ta0ctl
    rw [load16_handleBcm, load16_handleBcm]
  unfold stepDivisors
  rw [List.forall_mem_append, bcmDivisors_nonzero_iff, timerDivisors_nonzero_iff, hmeasures,
    bcm_cpuStep, ta0ccr0, load16_handleBcm]

end Handlers

/-! ## Waiting -/

/-- `mclk_wait_cycles` is called with values that `handle_bcm` has computed. -/
def WaitReady (waiting : Bool) (bcm : Bcm) : Prop :=
  minDcoFreq ≤ bcm.dcoFreq ∧ bcm.mclkDiv ≤ 8 ∧ (waiting = true → bcm.mclkDiv ≠ 0)

/-- The quotient of the frequency by the divider is none of zero. -/
theorem waitDivisors_nonzero {emu : Emulator} (h : WaitReady true emu.bcm) :
    ∀ d ∈ waitDivisors emu, d ≠ 0 := by
  obtain ⟨hdco, hle, hne⟩ := h
  have hdiv := hne rfl
  have hquot : emu.bcm.dcoFreq / emu.bcm.mclkDiv ≠ 0 := by
    unfold minDcoFreq at hdco
    rw [ne_eq, Nat.div_eq_zero_iff]
    omega
  unfold waitDivisors
  split_ifs
  · simp only [List.forall_mem_cons]
    exact ⟨by exact_mod_cast hdiv, by exact_mod_cast hquot, by simp⟩
  · simp

/-- A machine step computes them. -/
theorem WaitReady.machineStep {emu : Emulator} {waiting : Bool} (h : WaitReady waiting emu.bcm) :
    WaitReady true (machineStep emu).bcm := by
  obtain ⟨h1, h8⟩ := mclkDiv_handleBcm (cpuStep emu)
  rw [bcm_machineStep]
  refine ⟨dcoFreq_handleBcm _ ?_, h8, fun _ => by omega⟩
  rw [bcm_cpuStep]
  exact h.1

/-! ## Runs -/

section Runs

variable {p p' : Paced}

/-- An event of a run, and what makes `main` wait. -/
theorem Paced.step_event {ev : SessionEvent} (h : p.step (.event ev) = some p') :
    perform p.emu ev = some p'.emu ∧ (p'.waiting = true → p.waiting = true ∨ ev = .body) := by
  cases ev with
  | head =>
    simp only [Paced.step] at h
    split_ifs at h
    obtain ⟨e, he, rfl⟩ := Option.map_eq_some_iff.mp h
    exact ⟨he, fun hw => absurd hw (by simp)⟩
  | body =>
    simp only [Paced.step] at h
    split_ifs at h
    obtain ⟨e, he, rfl⟩ := Option.map_eq_some_iff.mp h
    exact ⟨he, fun _ => Or.inr rfl⟩
  | _ =>
    simp only [Paced.step] at h
    obtain ⟨e, he, rfl⟩ := Option.map_eq_some_iff.mp h
    exact ⟨he, Or.inl⟩

/-- A turn of the loop of `mclk_wait_cycles`. -/
theorem Paced.step_wait {elapsed : Bool} (h : p.step (.wait elapsed) = some p') :
    p.waiting = true ∧ p'.emu = p.emu := by
  simp only [Paced.step] at h
  split_ifs at h with hw
  obtain rfl := Option.some.inj h
  exact ⟨hw, rfl⟩

/-- The clock values change at the instructions alone. -/
theorem Paced.follows_step {a : PacedEvent} (h : p.step a = some p') :
    Follows machineStep Emulator.bcm p.emu (p.executed a) p'.emu := by
  cases a with
  | event ev => exact follows_perform unseen_bcm (fun _ _ _ _ _ _ => rfl) (Paced.step_event h).1
  | wait elapsed =>
    rw [(Paced.step_wait h).2]
    exact .refl _

/-- **One event** keeps `main` from waiting with values that are none. -/
theorem WaitReady.step {a : PacedEvent} (hready : WaitReady p.waiting p.emu.bcm)
    (h : p.step a = some p') : WaitReady p'.waiting p'.emu.bcm := by
  have hkeep : WaitReady p.waiting p'.emu.bcm :=
    ((Paced.follows_step h).invariant (I := WaitReady p.waiting) hready fun e _ he =>
      ⟨he.machineStep.1, he.machineStep.2.1, fun _ => he.machineStep.2.2 rfl⟩).2
  refine ⟨hkeep.1, hkeep.2.1, fun hw => ?_⟩
  cases a with
  | event ev =>
    obtain ⟨hperform, hbody⟩ := Paced.step_event h
    rcases hbody hw with hw' | rfl
    · exact hkeep.2.2 hw'
    · rw [← (Option.some.inj hperform : Msp430.machineStep p.emu = p'.emu)]
      exact hready.machineStep.2.2 rfl
  | wait elapsed => exact hkeep.2.2 (Paced.step_wait h).1

/-- **The divisors of a run** are those of its instructions, for the waiting divides by none of
zero. -/
theorem Paced.divisorsIn_nonzero_iff {evs : List PacedEvent}
    (hready : WaitReady p.waiting p.emu.bcm) (h : evs.foldlM Paced.step p = some p') :
    (∀ d ∈ p.divisorsIn evs, d ≠ 0)
      ↔ ∀ e ∈ p.executedIn evs, ∀ d ∈ stepDivisors e, d ≠ 0 := by
  induction evs generalizing p with
  | nil => simp [Paced.divisorsIn, Paced.executedIn, taken]
  | cons a evs ih =>
    rw [List.foldlM_cons] at h
    cases ha : p.step a with
    | none => simp [ha] at h
    | some q =>
      have hrest := ih (hready.step ha) (by simpa [ha] using h)
      have hhere : (∀ d ∈ p.divisors a, d ≠ 0)
          ↔ ∀ e ∈ p.executed a, ∀ d ∈ stepDivisors e, d ≠ 0 := by
        cases a with
        | event ev => simp only [Paced.divisors, Paced.executed, List.forall_mem_flatMap]
        | wait elapsed =>
          have hw := (Paced.step_wait ha).1
          rw [hw] at hready
          exact iff_of_true (waitDivisors_nonzero hready) (fun e he => absurd he List.not_mem_nil)
      unfold Paced.divisorsIn Paced.executedIn at hrest ⊢
      rw [taken, taken, ha]
      simp only [List.forall_mem_append]
      exact and_congr hhere hrest

/-- The instructions of a run, each of which finds the clock values that the one before left. -/
theorem Paced.follows_run {evs : List PacedEvent} (h : evs.foldlM Paced.step p = some p') :
    Follows machineStep Emulator.bcm p.emu (p.executedIn evs) p'.emu :=
  follows_taken Paced.emu (fun _ _ _ _ hstep => Paced.follows_step hstep) h

/-- **No quotient of a run divides by zero exactly when** the first instruction does not leave
the DCO selected, and a later one has left it selected before the timer computes a period, for
which `TA0CCR0` is never the greatest word.  The run starts with the machine as `main`
initialises it, on zeroed clock values. -/
theorem divisors_nonzero_iff {tmpBin : List (BitVec 8)} {host start : Emulator}
    {evs : List PacedEvent} (hhost : host.bcm = allocated.bcm)
    (hinit : initialise tmpBin host = some start)
    (hrun : evs.foldlM Paced.step ⟨start, false⟩ = some p') :
    DividesByNoZero ⟨start, false⟩ evs
      ↔ ClockedFirst ((⟨start, false⟩ : Paced).executedIn evs) := by
  obtain ⟨hdiv, hfreq, hdco⟩ := bcm_initialise hinit
  rw [hhost] at hdiv hfreq
  change start.bcm.mclkDiv = 0 at hdiv
  change start.bcm.mclkFreq = 0 at hfreq
  have hmin : minDcoFreq ≤ start.bcm.dcoFreq := by
    rw [hdco]
    norm_num [minDcoFreq]
  have hready : WaitReady false start.bcm := ⟨hmin, by omega, fun h => absurd h (by simp)⟩
  obtain ⟨l, hl⟩ : ∃ l, l = (⟨start, false⟩ : Paced).executedIn evs := ⟨_, rfl⟩
  have htrail := Paced.follows_run hrun
  rw [← hl] at htrail
  -- one instruction divides by no zero, by its place in the run
  have hstep {i : ℕ} {e : Emulator} (he : l[i]? = some e) :
      (∀ d ∈ stepDivisors e, d ≠ 0) ↔ (SelectsDco (cpuStep e) → i ≠ 0) ∧
        (MeasuresPeriod (cpuStep e) → (cpuStep e).load16 ta0ccr0 ≠ 0xFFFF ∧
          ∃ j e', 0 < j ∧ j ≤ i ∧ l[j]? = some e' ∧ SelectsDco (cpuStep e')) := by
    have hvalues := clockValues_of_follows htrail hdiv hfreq hmin he
    have hafter := (hvalues.next he).freq
    simp only [Nat.lt_succ_iff] at hafter
    rw [bcm_machineStep] at hafter
    rw [stepDivisors_nonzero_iff, hafter, ne_eq, hvalues.div, and_comm (b := _ ≠ _)]
  unfold DividesByNoZero
  rw [Paced.divisorsIn_nonzero_iff hready hrun, ← hl]
  constructor
  · rintro ⟨hdivs, -⟩
    refine ⟨fun e he hs => ?_, fun i e he => ?_⟩
    · exact ((hstep he).mp (hdivs e (List.mem_of_getElem? he))).1 hs rfl
    · exact ((hstep he).mp (hdivs e (List.mem_of_getElem? he))).2
  · intro h
    constructor
    · intro e he
      obtain ⟨i, hi⟩ := List.mem_iff_getElem?.mp he
      refine (hstep hi).mpr ⟨?_, h.timed i e hi⟩
      rintro hs rfl
      exact h.first e hi hs
    · intro e he hm
      obtain ⟨i, hi⟩ := List.mem_iff_getElem?.mp he
      exact (periodCt_wraps_iff _).mpr (h.timed i e hi hm).1

end Runs

/-! ## The first instruction -/

/-- The first turn of the main loop. -/
def firstTurn : List PacedEvent := [.event .play, .event .head, .event .body]

set_option maxRecDepth 4000 in
/-- `NOP` as the first instruction: the handler divides by a divider of zero. -/
theorem divides_by_zero :
    ¬ ∀ tmpBin host start evs p', host.bcm = allocated.bcm →
      initialise tmpBin host = some start →
      evs.foldlM Paced.step ⟨start, false⟩ = some p' → DividesByNoZero ⟨start, false⟩ evs := by
  intro hclaim
  have hinit : initialise [0x03, 0x43] allocated = some (firmwareStart [0x03, 0x43]) := rfl
  have hrun : firstTurn.foldlM Paced.step ⟨firmwareStart [0x03, 0x43], false⟩
      = some ⟨machineStep (execRun (firmwareStart [0x03, 0x43])), true⟩ := rfl
  have hdivs : (⟨firmwareStart [0x03, 0x43], false⟩ : Paced).divisorsIn firstTurn
      = stepDivisors (execRun (firmwareStart [0x03, 0x43])) ++ [] := rfl
  have hnonzero := (hclaim _ _ _ _ _ rfl hinit hrun).1
  rw [hdivs, List.append_nil] at hnonzero
  have hdiv := ((stepDivisors_nonzero_iff _).mp hnonzero).1 (by decide +kernel)
  exact hdiv (by decide +kernel)

set_option maxRecDepth 4000 in
/-- `MOV.B #-1, &BCSCTL2` as the first instruction: it selects another source. -/
theorem divisors_nonzero_iff_vlo :
    DividesByNoZero ⟨firmwareStart [0xF2, 0x43, 0x58, 0x00], false⟩ firstTurn := by
  have hinit : initialise [0xF2, 0x43, 0x58, 0x00] allocated
      = some (firmwareStart [0xF2, 0x43, 0x58, 0x00]) := rfl
  have hrun : firstTurn.foldlM Paced.step ⟨firmwareStart [0xF2, 0x43, 0x58, 0x00], false⟩
      = some ⟨machineStep (execRun (firmwareStart [0xF2, 0x43, 0x58, 0x00])), true⟩ := rfl
  have hexec : (⟨firmwareStart [0xF2, 0x43, 0x58, 0x00], false⟩ : Paced).executedIn firstTurn
      = [execRun (firmwareStart [0xF2, 0x43, 0x58, 0x00])] := rfl
  apply (divisors_nonzero_iff rfl hinit hrun).mpr
  rw [hexec]
  have hsel : ¬ SelectsDco (cpuStep (execRun (firmwareStart [0xF2, 0x43, 0x58, 0x00]))) := by
    decide +kernel
  have hstop : ¬ MeasuresPeriod (cpuStep (execRun (firmwareStart [0xF2, 0x43, 0x58, 0x00]))) := by
    decide +kernel
  refine ⟨fun e he => ?_, fun i e he hm => ?_⟩
  · obtain rfl := Option.some.inj he
    exact hsel
  · obtain rfl := List.mem_singleton.mp (List.mem_of_getElem? he)
    exact absurd hm hstop

end Msp430
