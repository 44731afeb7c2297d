/-
# Waiting for the cycles of MCLK

`mclk_wait_cycles` reads the clock of the host until the cycles are over.  Only the branch for
the DCO leaves its inner loop, and `handle_bcm` selects the source by two bits of the guest:
`waits_iff` says that the function returns exactly when they name the DCO, and when there is
nothing to wait for.
-/
import Msp430.Clocks
import Msp430.Polling

namespace Msp430

open Polling

/-! ## The function -/

section Wait

variable (nanos clock : ℕ → ℕ)

/-- The body of the inner loop of `mclk_wait_cycles`: whether it breaks at reading `k`, the cycle
having started at reading `n`.  `nanos` stands for `(uint64_t)((1.0/q)*1000000000.0)`, computed
in doubles, and `clock` for the readings of `CLOCK_MONOTONIC` in nanoseconds. -/
def cycleOver (emu : Emulator) (n k : ℕ) : Bool :=
  if emu.bcm.mclkSource = .dcoclk then
    nanos (emu.bcm.dcoFreq / emu.bcm.mclkDiv) ≤ clock k - clock n
  else false

/-- `mclk_wait_cycles (emu, cycles)`, from reading `n` on: the number of the first reading that
it does not take. -/
def mclkWaitCycles (fuel : ℕ) (emu : Emulator) (cycles n : ℕ) : Option ℕ :=
  pollRounds (cycleOver nanos clock emu) fuel cycles n

/-- `mclk_wait_cycles` returns. -/
def WaitReturns (emu : Emulator) (cycles : ℕ) : Prop :=
  ∀ n, ∃ fuel, (mclkWaitCycles nanos clock fuel emu cycles n).isSome = true

end Wait

/-! ## When the function returns -/

section Returns

variable (nanos : ℕ → ℕ) {clock : ℕ → ℕ}

/-- With the DCO selected every cycle ends, whatever its length. -/
theorem exists_cycleOver (hmono : Monotone clock) (hbound : ∀ b, ∃ k, b ≤ clock k)
    {emu : Emulator} (hsource : emu.bcm.mclkSource = .dcoclk) (n : ℕ) :
    ∃ k, n < k ∧ cycleOver nanos clock emu n k = true := by
  obtain ⟨k, hk⟩ := hbound (nanos (emu.bcm.dcoFreq / emu.bcm.mclkDiv) + clock n)
  have hlater : clock k ≤ clock (max k (n + 1)) := hmono (le_max_left _ _)
  refine ⟨max k (n + 1), lt_of_lt_of_le (Nat.lt_succ_self n) (le_max_right _ _), ?_⟩
  rw [cycleOver, if_pos hsource]
  apply decide_eq_true
  omega

/-- With another source no reading ends a cycle. -/
theorem cycleOver_eq_false {emu : Emulator} (hsource : emu.bcm.mclkSource ≠ .dcoclk) (n k : ℕ) :
    cycleOver nanos clock emu n k = false := if_neg hsource

theorem not_waitReturns {emu : Emulator} (hsource : emu.bcm.mclkSource ≠ .dcoclk) {cycles : ℕ}
    (hcycles : cycles ≠ 0) : ¬ WaitReturns nanos clock emu cycles := by
  intro h
  exact hcycles ((returns_iff_of_never (cycleOver_eq_false nanos hsource) cycles 0).mp (h 0))

/-- **After the handler the function returns exactly when** the register selects the DCO, or
there are no cycles to wait for. -/
theorem waits_iff (hmono : Monotone clock) (hbound : ∀ b, ∃ k, b ≤ clock k) (emu : Emulator)
    (cycles : ℕ) :
    WaitReturns nanos clock (handleBcm emu) cycles ↔ cycles = 0 ∨ SelectsDco emu := by
  rw [← mclkSource_handleBcm]
  constructor
  · intro h
    by_contra hnot
    obtain ⟨hcycles, hsource⟩ := not_or.mp hnot
    exact not_waitReturns nanos hsource hcycles h
  · rintro (rfl | hsource) n
    · exact ⟨0, rfl⟩
    · exact returns_of_exists (exists_cycleOver nanos hmono hbound hsource) cycles n

/-- **A turn of the main loop** comes to its end exactly when its wait returns. -/
theorem mclkWait_isSome_iff (hmono : Monotone clock) (hbound : ∀ b, ∃ k, b ≤ clock k)
    (emu : Emulator) : (mclkWait emu).isSome = true ↔ WaitReturns nanos clock emu 4 := by
  unfold mclkWait
  split_ifs with hsource
  · refine iff_of_true rfl fun n => ?_
    exact returns_of_exists (exists_cycleOver nanos hmono hbound hsource) 4 n
  · exact iff_of_false (by decide) (not_waitReturns nanos hsource (by decide))

end Returns

/-- The duration of a cycle in exact arithmetic. -/
def exactNanos (q : ℕ) : ℕ := 1000000000 / q

/-- With the registers of the reset state, on a clock that ticks with each reading. -/
theorem waits_iff_start : WaitReturns exactNanos id (handleBcm startState) 4 := by
  apply (waits_iff exactNanos monotone_id (fun b => ⟨b, le_rfl⟩) startState 4).mpr
  exact Or.inr (by decide +kernel)

/-- A machine that is about to start with `MOV.B #-1, &BCSCTL2`. -/
def vloStart : Emulator := firmwareStart [0xF2, 0x43, 0x58, 0x00]

/-- After this instruction the wait of the main loop does not return. -/
theorem wait_never_returns :
    ¬ WaitReturns exactNanos id (handleBcm (cpuStep (execRun vloStart))) 4 := by
  apply not_waitReturns exactNanos
  · rw [ne_eq, mclkSource_handleBcm]
    decide +kernel
  · decide

end Msp430
