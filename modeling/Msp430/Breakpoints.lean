/-
# Stopping at a breakpoint

`handle_breakpoints` clears `cpu->running`, but the main loop tests the flag only at its
head: the instruction at the breakpoint is listed, executed and followed by the peripheral
handlers before the loop comes to rest.  `breakpoints_stop_iff` says for which instructions
that does not show.
-/
import Msp430.LoopsBack

namespace Msp430

/-! ## Runs and stops -/

/-- The main loop is about to stop: a breakpoint matches the program counter. -/
def AtBreakpoint (emu : Emulator) : Prop :=
  emu.quit = false ∧ emu.running = true ∧ ∃ i < emu.numBps, emu.pc = emu.bpAddresses i

instance (emu : Emulator) : Decidable (AtBreakpoint emu) :=
  inferInstanceAs (Decidable (_ ∧ _ ∧ _))

/-- The machine has stopped with the program counter, the registers, the status register and
the memory as they were. -/
def StopsBefore (emu emu' : Emulator) : Prop := emu'.running = false ∧ SameMachine emu emu'

/-- The main loop after `n` turns, started by `run` or by PLAY, if it has come through them. -/
def runFor (emu : Emulator) (n : ℕ) : Option Emulator := mainLoops n (execRun emu)

/-- The run has come to `e`, where a breakpoint matches, and the turn there leaves `e'`. -/
def Stops (emu e e' : Emulator) : Prop :=
  (∃ n, runFor emu n = some e) ∧ AtBreakpoint e ∧ mainLoop e = some e'

/-- Wherever the run stops at a breakpoint, it stops before the instruction there. -/
def BreakpointsStop (emu : Emulator) : Prop := ∀ e e', Stops emu e e' → StopsBefore e e'

/-- The state in which the instruction at the breakpoint is executed. -/
def listedAt (emu : Emulator) : Emulator :=
  disassemble { emu with running := false, debugMode := true } emu.pc 1

/-- What `handle_breakpoints` leaves where a breakpoint matches. -/
theorem handleBreakpoints_atBreakpoint {emu : Emulator} (h : AtBreakpoint emu) :
    handleBreakpoints emu = listedAt emu := by
  obtain ⟨-, -, i, hi, hpc⟩ := h
  have hany : (List.range emu.numBps).any (fun i => emu.pc == emu.bpAddresses i) = true :=
    List.any_eq_true.mpr ⟨i, List.mem_range.mpr hi, by simp [hpc]⟩
  rw [handleBreakpoints, if_pos hany]
  rfl

/-! ## The undocumented `CALL.B @SP+` -/

/-- What has been stored shows nowhere: each byte is the one that was there, or goes away.  A
byte to be sent goes from a buffer that was empty, and `TACLR` takes itself, the mode and the
divider from the control register and the counter to zero. -/
structure GoesAway (emu stored : Emulator) : Prop where
  elsewhere : ∀ a, a ≠ 0x67 → a ∉ timerCells → stored.mem a = emu.mem a
  buffer : if Sends stored then emu.mem 0x67 = 0 else stored.mem 0x67 = emu.mem 0x67
  timer : if (stored.mem 0x160).getLsbD 2 then
      emu.mem 0x160 = stored.mem 0x160 &&& 0x0B ∧ emu.mem 0x161 = stored.mem 0x161 ∧
        emu.mem 0x170 = 0 ∧ emu.mem 0x171 = 0
    else ∀ a ∈ timerCells, stored.mem a = emu.mem a

/-- Listing `CALL.B @SP+` and executing it increments the stack pointer twice by one, which
the push takes back.  The machine is as it was when the return address on the stack shows
nowhere and the word behind its low byte is the address of the instruction. -/
def CallsItself (emu : Emulator) : Prop :=
  let w := (fetch emu).1
  let pushed := emu.store16 (getStackPtr emu) (emu.pc + 2)
  (formatId w = 1 ∧ opcodeII w = 5 ∧ bwFlag w = .byte ∧ asFlag w = 3 ∧ lowReg w = 1) ∧
    pushed.load16 (getAddrPtr (emu.sp + 1)) = emu.pc ∧ GoesAway emu pushed

/-- The mask of `TA0CTL` takes nothing of the high byte. -/
theorem highByte_mask_timer (high low : BitVec 8) :
    highByte (joinBytes high low &&& 0xFF0B) = high := by
  have hand (u v : BitVec 16) : highByte (u &&& v) = highByte u &&& highByte v := by
    simp [highByte, BitVec.ushiftRight_and_distrib]
  rw [hand, highByte_joinBytes]
  exact BitVec.and_allOnes

/-- **The handlers bring the memory back exactly when** what has been stored goes away. -/
theorem mem_handlePeripherals_eq_iff (emu stored : Emulator) :
    (handlePeripherals stored).mem = emu.mem ↔ GoesAway emu stored := by
  have hother {a : ℕ} (h67 : a ≠ 0x67) (ha : a ∉ timerCells) :
      (handlePeripherals stored).mem a = stored.mem a := by
    rw [mem_handlePeripherals_of_ne _ ha, if_neg fun h => h67 h.2]
  have hbuffer : (handlePeripherals stored).mem 0x67
      = if Sends stored then 0 else stored.mem 0x67 := by
    rw [mem_handlePeripherals_of_ne _ (by decide)]
    simp only [and_true]
  have htimer {a : ℕ} (ha : a ∈ timerCells) := mem_handlePeripherals_of_mem stored ha
  have hcells : (clearTimer stored).mem 0x160 = stored.mem 0x160 &&& 0x0B ∧
      (clearTimer stored).mem 0x161 = stored.mem 0x161 ∧
      (clearTimer stored).mem 0x170 = 0 ∧ (clearTimer stored).mem 0x171 = 0 := by
    simp [clearTimer, ta0ctl, ta0r, Emulator.store16, Emulator.load16, Emulator.setByte]
    exact ⟨highByte_mask_timer _ _, rfl⟩
  obtain ⟨h160, h161, h170, h171⟩ := hcells
  constructor
  · intro h
    refine ⟨fun a h67 ha => ?_, ?_, ?_⟩
    · rw [← h, hother h67 ha]
    · rw [h] at hbuffer
      split_ifs at hbuffer ⊢
      · exact hbuffer
      · exact hbuffer.symm
    · rw [h] at htimer
      split_ifs at htimer ⊢ with hclr
      · exact ⟨(htimer (by decide)).trans h160, (htimer (by decide)).trans h161,
          (htimer (by decide)).trans h170, (htimer (by decide)).trans h171⟩
      · exact fun a ha => (htimer ha).symm
  · rintro ⟨helse, hbuf, htim⟩
    funext a
    by_cases ha : a ∈ timerCells
    · rw [htimer ha]
      split_ifs at htim ⊢ with hclr
      · obtain ⟨e160, e161, e170, e171⟩ := htim
        have hcases : a = 0x160 ∨ a = 0x161 ∨ a = 0x170 ∨ a = 0x171 := by
          simpa [timerCells] using ha
        rcases hcases with rfl | rfl | rfl | rfl
        · exact h160.trans e160.symm
        · exact h161.trans e161.symm
        · exact h170.trans e170.symm
        · exact h171.trans e171.symm
      · exact htim a ha
    · by_cases h67 : a = 0x67
      · rw [h67, hbuffer]
        split_ifs at hbuf ⊢
        · exact hbuf.symm
        · exact hbuf
      · rw [hother h67 ha, helse a h67 ha]

/-- The state after a single-operand instruction has been listed at a breakpoint. -/
theorem listedAt_eq (emu : Emulator) (h1 : formatId (fetch emu).1 = 1) :
    ∃ regs bogusReg residue, regs 0 = emu.pc ∧
      (∀ n, n ≠ 0 → n ≠ 2 → regs n = blockReg (fetch emu).1 n (emu.regs n)) ∧
      listedAt emu = { emu with
        regs := regs
        bogusReg := bogusReg
        residue := residue
        running := false
        debugMode := true
        disassembleMode := false } := by
  obtain ⟨e, he⟩ : ∃ e, e = listingStart { emu with running := false, debugMode := true } emu.pc :=
    ⟨_, rfl⟩
  have hword : (fetch e).1 = (fetch emu).1 := by rw [he]; rfl
  have hline : disassembleLine e = (operandsII (fetch e).2 (fetch emu).1).emu := by
    rw [disassembleLine, hword, decode_formatII _ _ _ h1, decodeFormatII, if_pos rfl]
  have hreg (n : Fin 16) (h0 : n ≠ 0) : (fetch e).2.regs n = emu.regs n := by
    rw [regs_fetch e h0, he]
    simp [listingStart, h0]
  rw [listedAt, disassemble_eq, ← he]
  rw [show (1 : BitVec 8).toNat = 1 from rfl, Function.iterate_one, hline, operandsII_emu]
  refine ⟨_, _, _, ?_, ?_, by rw [he]; rfl⟩
  · exact if_pos rfl
  · intro n h0 h2
    exact (if_neg h0).trans ((regsII_eq_blockReg _ _ h0 h2).trans (by rw [← he, hreg n h0]))

/-- The stack pointer comes back for `CALL.B @SP+` alone. -/
theorem call_sp_iff (w v : BitVec 16) :
    blockReg w 1 (blockReg w 1 v) - 2 = v
      ↔ bwFlag w = .byte ∧ asFlag w = 3 ∧ lowReg w = 1 := by
  have htwo : v - 2 ≠ v := by bv_omega
  by_cases hl : lowReg w = 1
  · rw [blockReg_sp hl, blockReg_sp hl]
    -- only the increments of a byte make up for the push
    rcases asFlag_cases w with h | h | h | h <;> cases hbw : bwFlag w <;>
      simp [h, hl, increment]
    · rw [BitVec.and_assoc, BitVec.and_self]
      exact mask_sub_two_ne v
    · bv_omega
  · rw [blockReg_of_ne hl, blockReg_of_ne hl]
    exact iff_of_false htwo (fun hc => hl hc.2.2)

/-- The handlers keep alike states alike. -/
theorem Alike.handlePeripherals {emu emu' : Emulator} (h : Alike emu emu') :
    Alike (handlePeripherals emu) (handlePeripherals emu') :=
  h.handleBcm.handleTimerA.handlePort1.handleUsci

theorem Alike.same_iff {emu emu' : Emulator} (h : Alike emu emu') (e : Emulator) :
    SameMachine e emu' ↔ SameMachine e emu := by
  unfold SameMachine
  rw [h.sr, h.mem]
  refine and_congr ⟨fun hs n hn => ?_, fun hs n hn => ?_⟩ Iff.rfl
  · rw [← h.regs n hn, hs n hn]
  · rw [h.regs n hn, hs n hn]

/-- A register that is assigned again after a push. -/
theorem setReg_store16_setReg (emu : Emulator) (v u x : BitVec 16) :
    ((emu.setReg 0 x).store16 (getStackPtr emu) v).setReg 0 u
      = (emu.store16 (getStackPtr emu) v).setReg 0 u := by
  unfold Emulator.setReg getStackPtr
  simp only [Emulator.store16, Emulator.setByte]
  congr 1
  funext n
  split_ifs <;> rfl

/-- What the operand block makes of `CALL.B @SP+`: the stack pointer goes up by one, and the
source is the cell that it pointed to. -/
theorem operandsII_callSp {w : BitVec 16} (hbw : bwFlag w = .byte) (ha : asFlag w = 3)
    (hl : lowReg w = 1) (e : Emulator) :
    sourceCellII e w = getAddrPtr (e.regs 1) ∧ regsII e w 0 = e.pc ∧
      ∀ n v, blockReg w n v = if n = 1 then v + 1 else v := by
  have hc : constantII w = none := by simp [constantII, generatedConstant, hl]
  have hm : masksOperand w = false := by simp [masksOperand, ha]
  have hinc : autoIncrementsII w = true := by simp [autoIncrementsII, hc, ha, hl]
  have himm : immediateII w = false := by simp [immediateII, hl]
  refine ⟨?_, ?_, ?_⟩
  · rw [sourceCellII, if_neg (by simp [hc, himm]), ha]
    simp only [hl]
  · rw [regsII_pc, if_neg (by simp [hm])]
    simp [advanceII, extendedII, himm, ha]
  · intro n v
    simp [blockReg, hm, hinc, hl, hbw, increment]

section Call

variable {emu : Emulator} (h1 : formatId (fetch emu).1 = 1) (h5 : opcodeII (fetch emu).1 = 5)

include h1 h5

/-- The CALL that is executed at the breakpoint, on what the listing has left. -/
theorem cpuStep_listed_call :
    ∃ e, cpuStep (listedAt emu)
        = execCall (operandsII e (fetch emu).1).emu (sourceCellII e (fetch emu).1) ∧
      e.pc = emu.pc + 2 ∧
      (∀ n, n ≠ 0 → n ≠ 2 → e.regs n = blockReg (fetch emu).1 n (emu.regs n)) ∧
      Alike { e with regs := emu.regs } emu := by
  obtain ⟨regs, bogusReg, residue, hpc, hregs, hlisted⟩ := listedAt_eq emu h1
  obtain ⟨w, hw⟩ : ∃ w, w = (fetch emu).1 := ⟨_, rfl⟩
  have hword : (fetch (listedAt emu)).1 = w := by
    rw [hw, hlisted]
    simp only [fetch, Emulator.pc, hpc]
    rfl
  refine ⟨(fetch (listedAt emu)).2, ?_, ?_, ?_, ?_⟩
  · rw [← hw] at h1 h5 ⊢
    rw [cpuStep, hword, decode_formatII _ _ _ h1, decodeFormatII, if_neg (by decide), h5,
      (operandsII_source _ w).1]
    rfl
  · rw [hlisted]
    simp only [fetch, Emulator.pc, hpc]
    rfl
  · intro n h0 h2
    rw [regs_fetch _ h0, hlisted]
    exact hregs n h0 h2
  · rw [hlisted]
    exact { Alike.refl emu with }

/-- Only `CALL.B @SP+` brings the stack pointer back. -/
theorem call_of_same (h : SameMachine emu (machineStep (listedAt emu))) :
    bwFlag (fetch emu).1 = .byte ∧ asFlag (fetch emu).1 = 3 ∧ lowReg (fetch emu).1 = 1 := by
  obtain ⟨e, hstep, -, hregs, -⟩ := cpuStep_listed_call h1 h5
  have hsp := h.1 1 (by decide)
  rw [machineStep, (regs_handlePeripherals _).1, hstep, execCall_eq, operandsII_emu] at hsp
  have hblock : regsII e (fetch emu).1 1 - 2 = emu.regs 1 := by
    simpa [getAddrPtr, Emulator.sp] using hsp
  rw [regsII_eq_blockReg _ _ (by decide) (by decide), hregs 1 (by decide) (by decide)] at hblock
  exact (call_sp_iff _ _).mp hblock

/-- What `CALL.B @SP+` does at a breakpoint. -/
theorem cpuStep_listed_callSp (hbw : bwFlag (fetch emu).1 = .byte)
    (ha : asFlag (fetch emu).1 = 3) (hl : lowReg (fetch emu).1 = 1) :
    let pushed := emu.store16 (getStackPtr emu) (emu.pc + 2)
    Alike (pushed.setReg 0 (pushed.load16 (getAddrPtr (emu.sp + 1)))) (cpuStep (listedAt emu)) := by
  intro pushed
  obtain ⟨e, hstep, hpc, hregs, halike⟩ := cpuStep_listed_call h1 h5
  obtain ⟨w, hw⟩ : ∃ w, w = (fetch emu).1 := ⟨_, rfl⟩
  rw [← hw] at hbw ha hl hstep hregs
  obtain ⟨hcell, hblockPc, hreg⟩ := operandsII_callSp hbw ha hl e
  have hsp : e.regs 1 = emu.sp + 1 := by
    rw [hregs 1 (by decide) (by decide), hreg, if_pos rfl]
    rfl
  obtain ⟨X, hX⟩ : ∃ X, X = (operandsII e w).emu := ⟨_, rfl⟩
  have hXregs (n : Fin 16) : X.regs n = regsII e w n := by
    rw [hX, operandsII_emu]
  have hXpc : X.pc = emu.pc + 2 := (hXregs 0).trans (hblockPc.trans hpc)
  have hXsp : X.sp = emu.sp + 2 := by
    refine (hXregs 1).trans ?_
    rw [regsII_eq_blockReg _ _ (by decide) (by decide), hreg, if_pos rfl, hsp]
    bv_omega
  have htop : emu.sp + 2 - 2 = emu.sp := by bv_omega
  -- before the push the two states differ in the program counter alone
  have hbase : Alike (emu.setReg 0 (emu.pc + 2)) (X.setReg 1 emu.sp) := by
    have hfields : Alike { e with regs := emu.regs } { X with regs := emu.regs } := by
      rw [hX, operandsII_emu]
      exact { Alike.refl { e with regs := emu.regs } with }
    refine { halike.symm.trans hfields with regs := ?_ }
    intro n h2
    rw [Emulator.regs_setReg, Emulator.regs_setReg]
    by_cases hn1 : n = 1
    · rw [if_pos hn1, hn1]
      rfl
    · rw [if_neg hn1]
      by_cases hn0 : n = 0
      · rw [if_pos hn0, hn0]
        exact hXpc
      · rw [if_neg hn0, hXregs, regsII_eq_blockReg _ _ hn0 h2, hregs n hn0 h2, hreg, hreg,
          if_neg hn1, if_neg hn1]
  have hpush := hbase.store16 (getStackPtr emu) (emu.pc + 2)
  have hload : (X.setReg 1 emu.sp |>.store16 (getStackPtr emu) (emu.pc + 2)).load16
      (getAddrPtr (emu.sp + 1)) = pushed.load16 (getAddrPtr (emu.sp + 1)) :=
    hpush.load16 (emu.sp + 1)
  have hcall := hpush.setReg 0 (pushed.load16 (getAddrPtr (emu.sp + 1)))
  rw [setReg_store16_setReg] at hcall
  rw [hstep, ← hX, hcell, hsp, execCall_eq, hXsp, hXpc, htop]
  show Alike _ (((X.setReg 1 emu.sp).store16 (getStackPtr emu) (emu.pc + 2)).setReg 0 _)
  rw [show getAddrPtr emu.sp = getStackPtr emu from rfl, hload]
  exact hcall

/-- **The turn that stops at a CALL** leaves the machine as it was exactly when the call
comes back to itself. -/
theorem same_listed_call_iff :
    SameMachine emu (machineStep (listedAt emu)) ↔ CallsItself emu := by
  obtain ⟨pushed, hp⟩ : ∃ p, p = emu.store16 (getStackPtr emu) (emu.pc + 2) := ⟨_, rfl⟩
  obtain ⟨v, hv⟩ : ∃ v, v = pushed.load16 (getAddrPtr (emu.sp + 1)) := ⟨_, rfl⟩
  have hstate (hbw : bwFlag (fetch emu).1 = .byte) (ha : asFlag (fetch emu).1 = 3)
      (hl : lowReg (fetch emu).1 = 1) :
      SameMachine emu (machineStep (listedAt emu))
        ↔ SameMachine emu (handlePeripherals (pushed.setReg 0 v)) := by
    have halike := cpuStep_listed_callSp h1 h5 hbw ha hl
    simp only [← hp, ← hv] at halike
    exact halike.handlePeripherals.same_iff emu
  have hpushed : pushed.regs = emu.regs ∧ pushed.sr = emu.sr := by rw [hp]; exact ⟨rfl, rfl⟩
  -- with its own address in the program counter the state is the one after the push
  have hback (hpc : v = emu.pc) : Alike pushed (pushed.setReg 0 v) := by
    refine { Alike.refl pushed with regs := ?_ }
    intro n _
    rw [Emulator.regs_setReg, hpushed.1]
    split_ifs with h0
    · rw [hpc, h0]
      rfl
    · rfl
  unfold CallsItself
  simp only [← hp, ← hv]
  constructor
  · intro h
    obtain ⟨hbw, ha, hl⟩ := call_of_same h1 h5 h
    have hs := (hstate hbw ha hl).mp h
    have hpc : v = emu.pc := by
      have := hs.1 0 (by decide)
      rwa [(regs_handlePeripherals _).1] at this
    refine ⟨⟨h1, h5, hbw, ha, hl⟩, hpc, ?_⟩
    rw [← mem_handlePeripherals_eq_iff, ← (hback hpc).handlePeripherals.mem]
    exact hs.2.2
  · rintro ⟨⟨-, -, hbw, ha, hl⟩, hpc, haway⟩
    rw [hstate hbw ha hl, (hback hpc).handlePeripherals.same_iff emu]
    obtain ⟨hregs, hsr⟩ := regs_handlePeripherals pushed
    refine ⟨fun n _ => ?_, ?_, (mem_handlePeripherals_eq_iff _ _).mpr haway⟩
    · rw [hregs, hpushed.1]
    · rw [hsr, hpushed.2]

end Call

/-! ## The stop -/

/-- The instruction at the program counter, though executed, leaves no trace. -/
def StandsStill (emu : Emulator) : Prop :=
  (LoopsOnItself emu ∧ HandlersIdle emu) ∨ CallsItself emu

/-- The listing at a breakpoint keeps the program counter and the code. -/
theorem pc_listedAt (emu : Emulator) :
    (listedAt emu).pc = emu.pc ∧ (fetch (listedAt emu)).1 = (fetch emu).1 := by
  have hline (e : Emulator) : (disassembleLine e).mem = e.mem := mem_listed (fetch e).2 _
  have hpc : (listedAt emu).pc = emu.pc := rfl
  have hmem : (listedAt emu).mem = emu.mem := by
    rw [listedAt, disassemble_eq, show (1 : BitVec 8).toNat = 1 from rfl, Function.iterate_one]
    exact hline _
  refine ⟨hpc, ?_⟩
  rw [fetch, fetch, hpc]
  exact load16_congr_mem hmem emu.pc

/-- The machine at rest. -/
theorem running_listedAt (emu : Emulator) : (machineStep (listedAt emu)).running = false := by
  have hmodes := (keepsModes_disassemble { emu with running := false, debugMode := true }
    emu.pc 1).trans (keepsModes_machineStep _)
  exact congrArg Prod.fst (hmodes.elim id id)

/-- Where the instruction is none of Format II, or a shift of the program counter, its listing
does not show. -/
theorem alike_listedAt {emu : Emulator} (hshift : formatId (fetch emu).1 = 1 →
    opcodeII (fetch emu).1 ≤ 3 ∧ OnPc (fetch emu).1) : Alike emu (listedAt emu) := by
  have hdisturbs : ¬ Disturbs emu (fetch emu).1 := by
    rintro ⟨h1, hd⟩
    have hl : lowReg (fetch emu).1 = 0 := (hshift h1).2.1
    rcases hd with hinc | ⟨-, h0, -⟩
    · simp [autoIncrementsII, hl] at hinc
    · exact h0 hl
  have hlist := disassemble_alike { emu with running := false, debugMode := true } emu.pc 1
    fun i hi => ?_
  · exact { hlist with }
  · have hi0 : i = 0 := Nat.lt_one_iff.mp hi
    rw [hi0]
    exact hdisturbs

/-- **A stop at a breakpoint** comes before the instruction exactly when that stands still. -/
theorem stopsBefore_iff (emu : Emulator) :
    StopsBefore emu (machineStep (listedAt emu)) ↔ StandsStill emu := by
  have hrun := running_listedAt emu
  obtain ⟨hpc, hword⟩ := pc_listedAt emu
  rw [StopsBefore, and_iff_right hrun, StandsStill]
  by_cases hcall : formatId (fetch emu).1 = 1 ∧ opcodeII (fetch emu).1 = 5
  · have hloops : ¬ LoopsOnItself emu := by
      rw [loopsOnItself_iff_formatII hcall.1]
      intro hl
      exact absurd hl.2.2.le_three (by rw [hcall.2]; decide)
    rw [same_listed_call_iff hcall.1 hcall.2, or_iff_right (fun hc => hloops hc.1)]
  · rw [or_iff_left (fun hc => hcall ⟨hc.1.1, hc.1.2.1⟩)]
    by_cases hw : formatId (fetch emu).1 = 1 ∧ ¬ WritesPc (fetch emu).1
    · -- a single-operand instruction that moves on, whatever its listing has disturbed
      have hmoves : (cpuStep (listedAt emu)).pc ≠ emu.pc := by
        rw [← hpc]
        exact pc_cpuStep_ne _ (Or.inl (hword ▸ hw.1)) (hword ▸ hw.2)
      refine iff_of_false (fun hs => hmoves ?_) (fun hc => ?_)
      · have hreg := hs.1 0 (by decide)
        rwa [machineStep, (regs_handlePeripherals _).1] at hreg
      · exact hw.2 ((loopsOnItself_iff_formatII hw.1).mp hc.1).writesPc
    · -- the listing does not show, so that the instruction acts as without it
      have hshift (h1 : formatId (fetch emu).1 = 1) :
          opcodeII (fetch emu).1 ≤ 3 ∧ OnPc (fetch emu).1 := by
        have hwrites : WritesPc (fetch emu).1 := by
          by_contra hc
          exact hw ⟨h1, hc⟩
        rw [WritesPc, if_pos h1] at hwrites
        exact hwrites.resolve_left fun h5 => hcall ⟨h1, h5⟩
      have hpush : ¬ PushesSymbolic (fetch emu).1 := by
        rintro ⟨⟨h1, h4⟩, -⟩
        exact absurd (hshift h1).1 (by rw [h4]; decide)
      rw [((alike_listedAt hshift).machineStep hpush).same_iff emu, same_machineStep_iff emu hcall]

/-- The state in which a run has come to rest is the one before its wait. -/
theorem Stops.left {emu e e' : Emulator} (h : Stops emu e e') : e' = machineStep (listedAt e) := by
  obtain ⟨-, hat, hturn⟩ := h
  rw [mainLoop_of_running hat.1 hat.2.1, handleBreakpoints_atBreakpoint hat] at hturn
  split_ifs at hturn
  exact (Option.some.inj hturn).symm

/-- Two NOPs. -/
def nopsStart : Emulator := startState.setWords [(0xC000, 0x4303), (0xC002, 0x4303)]

/-- A jump to itself with a breakpoint at it. -/
def loopBreak : Emulator :=
  execBreak (startState.setWords [(0xC000, 0x3FFF)]) (CString.bytes "break C000")

end Msp430
