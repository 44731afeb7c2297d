/-
# What no instruction writes

The two flags of the run state, `quit` and the breakpoints stand outside the machine, and so
do the peripherals behind their registers: instructions write registers, flags and memory, and
the peripheral handlers what belongs to them.  Only a word that is no instruction reaches out,
when `decode` stops the CPU and hands it to the debugger.
-/
import Msp430.Handlers
import Msp430.ReadOnly
import Msp430.Run

namespace Msp430

/-! ## Views of what instructions do not write -/

/-- The view sees no register, no flag of the CPU, no memory and not `bogus_reg`. -/
structure Outside {γ : Type*} (V : Emulator → γ) : Prop where
  kept : ∀ (emu : Emulator) (regs : Fin 16 → BitVec 16) (sr : StatusReg) (mem : ℕ → BitVec 8)
    (bogusReg : BitVec 16),
    V { emu with regs := regs, sr := sr, mem := mem, bogusReg := bogusReg } = V emu

namespace Outside

variable {γ : Type*} {V : Emulator → γ}

theorem setReg (h : Outside V) (emu : Emulator) (n : Fin 16) (v : BitVec 16) :
    V (emu.setReg n v) = V emu := h.kept emu _ emu.sr emu.mem emu.bogusReg

theorem store16 (h : Outside V) (emu : Emulator) (p : Ptr) (v : BitVec 16) :
    V (emu.store16 p v) = V emu := by
  cases p with
  | reg n => exact h.setReg emu n v
  | mem a => exact h.kept emu emu.regs emu.sr _ emu.bogusReg
  | bogus => exact h.kept emu emu.regs emu.sr emu.mem _

theorem store8 (h : Outside V) (emu : Emulator) (p : Ptr) (b : BitVec 8) :
    V (emu.store8 p b) = V emu := by
  cases p with
  | reg n => exact h.setReg emu n _
  | mem a => exact h.kept emu emu.regs emu.sr _ emu.bogusReg
  | bogus => exact h.kept emu emu.regs emu.sr emu.mem _

theorem with_sr (h : Outside V) (emu : Emulator) (sr : StatusReg) :
    V { emu with sr := sr } = V emu := h.kept emu emu.regs sr emu.mem emu.bogusReg

/-! ## Instructions -/

theorem executeI (h : Outside V) (emu : Emulator) (opcode : Fin 16) (bw : Width)
    (s : BitVec 16) (p : Ptr) : V (executeI emu opcode bw s p) = V emu := by
  by_cases hw : Writes opcode
  · rw [executeI_eq_storeResult emu opcode bw s p hw, h.with_sr]
    cases bw with
    | word => exact h.store16 _ _ _
    | byte => exact h.store8 _ _ _
  · by_cases hc : opcode = 0x9 ∨ opcode = 0xB
    · rw [executeI_compares emu opcode bw s p hc]
      exact h.with_sr _ _
    · rw [executeI_of_not _ _ _ _ _ hw hc]

theorem executeII (h : Outside V) (emu : Emulator) (opcode : Fin 8) (bw : Width)
    (v : BitVec 16) (p : Ptr) : V (executeII emu opcode bw v p) = V emu := by
  have hcases : opcode ≤ 3 ∨ opcode = 4 ∨ opcode = 5 ∨ opcode = 6 ∨ opcode = 7 := by
    revert opcode
    decide
  rcases hcases with ho | rfl | rfl | rfl | rfl
  · rw [executeII_shift _ _ _ _ ho, h.with_sr]
    exact h.store16 _ _ _
  · show V (execPush emu bw v) = _
    rw [execPush_eq]
    cases bw with
    | word => exact (h.store16 _ _ _).trans (h.setReg _ _ _)
    | byte => exact (h.store8 _ _ _).trans (h.setReg _ _ _)
  · show V (execCall emu p) = _
    rw [execCall_eq]
    exact (h.setReg _ _ _).trans ((h.store16 _ _ _).trans (h.setReg _ _ _))
  · rfl
  · rfl

/-- **Decoding an instruction**, executing or listing it, stops the CPU when the word is none,
takes one value for the local of `decode_formatII`, and else leaves all of it. -/
theorem decode (h : Outside V) (emu : Emulator) (w : BitVec 16) (disassemble : Bool) :
    V (decode emu w disassemble)
      = if formatId w = 0 then V { emu with running := false, debugMode := true }
        else if formatId w = 1 then V { emu with residue := fun k => emu.residue (k + 1) }
        else V emu := by
  rcases formatId_cases w with h0 | h1 | h3 | h4
  · rw [decode_invalid _ _ _ h0, if_pos h0]
  · have hne : formatId w ≠ 0 := by
      rw [h1]
      decide
    have hblock : V (operandsII emu w).emu
        = V { emu with residue := fun k => emu.residue (k + 1) } := by
      rw [operandsII_emu]
      exact h.kept { emu with residue := fun k => emu.residue (k + 1) } _ emu.sr emu.mem _
    rw [if_neg hne, if_pos h1, decode_formatII _ _ _ h1, decodeFormatII]
    cases disassemble with
    | true => exact hblock
    | false => exact (h.executeII _ _ _ _ _).trans hblock
  · have hne : formatId w ≠ 0 := fun h => absurd h3.1 (by rw [h]; decide)
    rw [if_neg hne, if_neg (formatId_ne_one h3.1), decode_formatIII _ _ _ h3, decodeFormatIII, jump]
    split_ifs
    · rfl
    · exact h.setReg _ _ _
    · rfl
  · have hne : formatId w ≠ 0 := fun h => absurd h4 (by rw [h]; decide)
    have hblock : V (operandsI emu w disassemble).emu = V emu := by
      rw [operandsI_emu]
      exact h.kept emu _ emu.sr emu.mem emu.bogusReg
    rw [if_neg hne, if_neg (formatId_ne_one (le_trans (by decide) h4)), decode_formatI _ _ _ h4,
      decodeFormatI]
    cases disassemble with
    | true => exact hblock
    | false => exact (h.executeI _ _ _ _ _).trans hblock

end Outside

/-! ## The debugger's own state -/

/-- What the debugger keeps beside the machine: `running` with `debug_mode`, `quit`, and the
breakpoints. -/
def Emulator.supervision (emu : Emulator) : (Bool × Bool) × Bool × ℕ × (ℕ → BitVec 16) :=
  ((emu.running, emu.debugMode), emu.quit, emu.numBps, emu.bpAddresses)

theorem outside_supervision : Outside Emulator.supervision := ⟨fun _ _ _ _ _ => rfl⟩

theorem supervision_decode (emu : Emulator) (w : BitVec 16) (disassemble : Bool) :
    (decode emu w disassemble).supervision
      = if formatId w = 0 then ((false, true), emu.supervision.2) else emu.supervision := by
  rw [outside_supervision.decode]
  split_ifs <;> rfl

/-! ## The mirrors of the peripherals -/

/-- What the peripherals keep beside their registers, with the bytes sent. -/
def Emulator.peripherals (emu : Emulator) : Port1 × Bcm × TimerA × List (BitVec 8) :=
  (emu.p1, emu.bcm, emu.timerA, emu.serial)

theorem outside_peripherals : Outside Emulator.peripherals := ⟨fun _ _ _ _ _ => rfl⟩

/-- A word that is no instruction leaves these as well. -/
theorem peripherals_decode (emu : Emulator) (w : BitVec 16) (disassemble : Bool) :
    (decode emu w disassemble).peripherals = emu.peripherals := by
  rw [outside_peripherals.decode]
  split_ifs <;> rfl

theorem peripherals_cpuStep (emu : Emulator) : (cpuStep emu).peripherals = emu.peripherals :=
  peripherals_decode (fetch emu).2 _ _

/-- No instruction writes the clock values. -/
theorem bcm_cpuStep (emu : Emulator) : (cpuStep emu).bcm = emu.bcm := by
  have hper := peripherals_cpuStep emu
  simp only [Emulator.peripherals, Prod.mk.injEq] at hper
  exact hper.2.1

/-! ## The locals of the decoders -/

theorem outside_residue : Outside Emulator.residue := ⟨fun _ _ _ _ _ => rfl⟩

theorem residue_decode (emu : Emulator) (w : BitVec 16) (disassemble : Bool) :
    (decode emu w disassemble).residue
      = if formatId w = 1 then fun k => emu.residue (k + 1) else emu.residue := by
  rw [outside_residue.decode]
  by_cases h0 : formatId w = 0
  · rw [if_pos h0, if_neg (by rw [h0]; decide)]
  · rw [if_neg h0]

/-! ## Handlers -/

/-- **The peripheral handlers** leave what the debugger keeps. -/
theorem supervision_handlePeripherals (emu : Emulator) :
    (handlePeripherals emu).supervision = emu.supervision :=
  Aside.handlePeripherals ⟨fun _ _ _ _ _ _ => rfl⟩ emu

theorem bcm_machineStep (emu : Emulator) :
    (machineStep emu).bcm = (handleBcm (cpuStep emu)).bcm := bcm_handlePeripherals _

/-- **The wait after an instruction** comes to its end exactly when the instruction leaves the
DCO selected. -/
theorem mclkWait_machineStep (emu : Emulator) :
    mclkWait (machineStep emu)
      = if SelectsDco (cpuStep emu) then some (machineStep emu) else none := by
  rw [mclkWait, bcm_machineStep]
  exact if_congr (mclkSource_handleBcm _) rfl rfl

/-- **A turn of the main loop** while the CPU runs. -/
theorem mainLoop_of_running {emu : Emulator} (hquit : emu.quit = false)
    (hrun : emu.running = true) :
    mainLoop emu = if SelectsDco (cpuStep (handleBreakpoints emu)) then
      some (machineStep (handleBreakpoints emu)) else none := by
  rw [mainLoop, if_neg (by simp [hquit]), if_neg (by simp [hrun]), mclkWait_machineStep]

/-- The main loop at rest. -/
theorem mainLoops_of_stopped {emu : Emulator} (hrun : emu.running = false) (n : ℕ) :
    mainLoops n emu = some emu := by
  have hturn : mainLoop emu = some emu := by
    simp [mainLoop, hrun]
  induction n with
  | zero => rfl
  | succ n ih => rw [mainLoops_succ, hturn, Option.bind_some, ih]

end Msp430
