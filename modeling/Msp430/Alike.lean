/-
# What the machine does not see

Two states are alike when they differ in host cells only: in the copy of the status word,
in `bogus_reg`, in what the locals of the decoders hold and in the flags of the debugger.
They agree, and the peripherals behind the registers are the same: one step of the machine
keeps alike states alike.  The exception is PUSH with a symbolic operand, which stores an
unassigned local.
-/
import Msp430.Agree
import Msp430.Supervision

namespace Msp430

/-! ## Alike states -/

/-- The registers, the status register, the memory and the peripherals are the same.  Cell 2
is the copy of the status word and no register. -/
structure Alike (emu emu' : Emulator) : Prop where
  regs : ∀ n, n ≠ 2 → emu'.regs n = emu.regs n
  sr : emu'.sr = emu.sr
  mem : emu'.mem = emu.mem
  p1 : emu'.p1 = emu.p1
  bcm : emu'.bcm = emu.bcm
  timerA : emu'.timerA = emu.timerA
  serial : emu'.serial = emu.serial

namespace Alike

variable {emu emu' : Emulator}

theorem refl (emu : Emulator) : Alike emu emu :=
  ⟨fun _ _ => rfl, rfl, rfl, rfl, rfl, rfl, rfl⟩

theorem symm (h : Alike emu emu') : Alike emu' emu where
  regs := fun n hn => (h.regs n hn).symm
  sr := h.sr.symm
  mem := h.mem.symm
  p1 := h.p1.symm
  bcm := h.bcm.symm
  timerA := h.timerA.symm
  serial := h.serial.symm

theorem trans {emu'' : Emulator} (h : Alike emu emu') (h' : Alike emu' emu'') :
    Alike emu emu'' where
  regs := fun n hn => (h'.regs n hn).trans (h.regs n hn)
  sr := h'.sr.trans h.sr
  mem := h'.mem.trans h.mem
  p1 := h'.p1.trans h.p1
  bcm := h'.bcm.trans h.bcm
  timerA := h'.timerA.trans h.timerA
  serial := h'.serial.trans h.serial

theorem agree (h : Alike emu emu') : Agree emu emu' := ⟨h.regs, h.sr, h.mem⟩

theorem peripherals (h : Alike emu emu') : emu'.peripherals = emu.peripherals := by
  simp only [Emulator.peripherals, h.p1, h.bcm, h.timerA, h.serial]

/-- States that agree are alike when the peripherals are the same. -/
theorem of_agree (h : Agree emu emu') (hp : emu'.peripherals = emu.peripherals) :
    Alike emu emu' := by
  simp only [Emulator.peripherals, Prod.mk.injEq] at hp
  exact ⟨h.regs, h.sr, h.mem, hp.1, hp.2.1, hp.2.2.1, hp.2.2.2⟩

theorem pc (h : Alike emu emu') : emu'.pc = emu.pc := h.agree.pc

theorem load16_mem (h : Alike emu emu') (a : ℕ) :
    emu'.load16 (.mem a) = emu.load16 (.mem a) := h.agree.load16_mem a

theorem load8_mem (h : Alike emu emu') (a : ℕ) :
    emu'.load8 (.mem a) = emu.load8 (.mem a) := h.agree.load8_mem a

theorem load16 (h : Alike emu emu') (a : BitVec 16) :
    emu'.load16 (getAddrPtr a) = emu.load16 (getAddrPtr a) := h.load16_mem a.toNat

theorem setReg (h : Alike emu emu') (n : Fin 16) (v : BitVec 16) :
    Alike (emu.setReg n v) (emu'.setReg n v) := .of_agree (h.agree.setReg n v) h.peripherals

theorem store16 (h : Alike emu emu') (p : Ptr) (v : BitVec 16) :
    Alike (emu.store16 p v) (emu'.store16 p v) := by
  apply of_agree (h.agree.store16 p v)
  rw [outside_peripherals.store16, outside_peripherals.store16, h.peripherals]

theorem store8 (h : Alike emu emu') (p : Ptr) (b : BitVec 8) :
    Alike (emu.store8 p b) (emu'.store8 p b) := by
  apply of_agree (h.agree.store8 p b)
  rw [outside_peripherals.store8, outside_peripherals.store8, h.peripherals]

/-- Alike states fetch the same instruction. -/
theorem fetch_fst (h : Alike emu emu') : (fetch emu').1 = (fetch emu).1 := h.agree.fetch_fst

end Alike

/-! ## The machine step -/

section Step

variable {emu emu' : Emulator}

/-- **An instruction keeps alike states alike**, unless it pushes a symbolic operand. -/
theorem Alike.cpuStep (h : Alike emu emu') (hw : ¬ PushesSymbolic (fetch emu).1) :
    Alike (cpuStep emu) (cpuStep emu') := by
  apply Alike.of_agree (h.agree.cpuStep fun hc => absurd hc hw)
  rw [peripherals_cpuStep, peripherals_cpuStep, h.peripherals]

/-- An alike state is the state with other host cells. -/
theorem Alike.host (h : Alike emu emu') :
    ∃ regs bogusReg residue running debugMode disassembleMode quit numBps bpAddresses
      currentBp,
      (∀ n, n ≠ 2 → regs n = emu.regs n) ∧
        emu' = { emu with
          regs := regs
          bogusReg := bogusReg
          residue := residue
          running := running
          debugMode := debugMode
          disassembleMode := disassembleMode
          quit := quit
          numBps := numBps
          bpAddresses := bpAddresses
          currentBp := currentBp } := by
  refine ⟨emu'.regs, emu'.bogusReg, emu'.residue, emu'.running, emu'.debugMode,
    emu'.disassembleMode, emu'.quit, emu'.numBps, emu'.bpAddresses,
    emu'.currentBp, h.regs, ?_⟩
  rw [← h.sr, ← h.mem, ← h.p1, ← h.bcm, ← h.timerA, ← h.serial]

theorem Alike.handleBcm (h : Alike emu emu') : Alike (handleBcm emu) (handleBcm emu') := by
  -- the MCLK part reads nothing that may differ, the DCO part only memory and clocks
  have hmclk : Alike (handleMclk emu) (handleMclk emu') := by
    obtain ⟨_, _, _, _, _, _, _, _, _, _, hregs, rfl⟩ := h.host
    exact ⟨hregs, rfl, rfl, rfl, rfl, rfl, rfl⟩
  have hdco : (handleDco (handleMclk emu')).bcm = (handleDco (handleMclk emu)).bcm := by
    simp only [handleDco, hmclk.load8_mem]
    split_ifs <;> simp only [hmclk.bcm]
  rw [Msp430.handleBcm, Msp430.handleBcm, handleDco_eq, handleDco_eq (handleMclk emu'), hdco]
  exact { hmclk with bcm := rfl }

theorem Alike.handleTimerA (h : Alike emu emu') :
    Alike (handleTimerA emu) (handleTimerA emu') := by
  have hctl : emu'.load16 ta0ctl = emu.load16 ta0ctl := h.load16_mem _
  -- with `TACLR` set the control register is read again after the counter is cleared
  have hcleared := h.store16 ta0r 0
  have hctl' : (emu'.store16 ta0r 0).load16 ta0ctl = (emu.store16 ta0r 0).load16 ta0ctl :=
    hcleared.load16_mem _
  by_cases hc : ((emu.load16 ta0ctl >>> 2) &&& 0x01 != 0) = true
  · have hstored := hcleared.store16 ta0ctl ((emu.store16 ta0r 0).load16 ta0ctl &&& 0xFF0B)
    simp only [Msp430.handleTimerA, hctl, hctl', h.timerA, if_pos hc, hstored.load16_mem]
    exact { hstored with timerA := rfl }
  · simp only [Msp430.handleTimerA, hctl, h.timerA, if_neg hc, h.load16_mem]
    exact { h with timerA := rfl }

theorem Alike.handlePort1 (h : Alike emu emu') :
    Alike (handlePort1 emu) (handlePort1 emu') := by
  obtain ⟨_, _, _, _, _, _, _, _, _, _, hregs, rfl⟩ := h.host
  exact ⟨hregs, rfl, rfl, rfl, rfl, rfl, rfl⟩

theorem Alike.handleUsci (h : Alike emu emu') : Alike (handleUsci emu) (handleUsci emu') := by
  have hload {e e' : Emulator} (he : Alike e e') :
      e'.load8 ifg2 = e.load8 ifg2 ∧ e'.load8 uca0txbuf = e.load8 uca0txbuf :=
    ⟨he.load8_mem _, he.load8_mem _⟩
  have hifg := h.store8 ifg2 (emu.load8 ifg2 &&& ~~~0x02)
  simp only [Msp430.handleUsci, hload h, h.p1]
  split_ifs
  · -- a byte is sent
    have hsent : Alike
        { emu.store8 ifg2 (emu.load8 ifg2 &&& ~~~0x02) with
          serial := (emu.store8 ifg2 (emu.load8 ifg2 &&& ~~~0x02)).serial
            ++ [emu.load8 uca0txbuf] }
        { emu'.store8 ifg2 (emu.load8 ifg2 &&& ~~~0x02) with
          serial := (emu'.store8 ifg2 (emu.load8 ifg2 &&& ~~~0x02)).serial
            ++ [emu.load8 uca0txbuf] } :=
      { hifg with serial := by rw [hifg.serial] }
    rw [(hload (hsent.store8 uca0txbuf 0)).1]
    exact (hsent.store8 uca0txbuf 0).store8 ifg2 _
  · rw [(hload hifg).1]
    exact hifg.store8 ifg2 _
  · exact h
  · exact h

/-- **A machine step keeps alike states alike**, unless it pushes a symbolic operand. -/
theorem Alike.machineStep (h : Alike emu emu') (hw : ¬ PushesSymbolic (fetch emu).1) :
    Alike (machineStep emu) (machineStep emu') :=
  (h.cpuStep hw).handleBcm.handleTimerA.handlePort1.handleUsci

end Step

end Msp430
