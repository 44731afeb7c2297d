/-
# Resetting the machine

`reset` is said to put the virtual machine back into its starting state, but it assigns to the
program counter alone: the stack pointer, the flags and the other registers stay as the last
program left them, and the listing of the first instruction may increment or mask one of them.
`reset_restarts_iff` says that the machine restarts exactly when they held their starting values
before.
-/
import Msp430.Lengths
import Msp430.Twins

namespace Msp430

open CString

/-! ## Restarting -/

/-- The registers and the flags.  Cell 2 is the copy of the status word and no register. -/
def registerFile (emu : Emulator) : (Fin 16 → BitVec 16) × StatusReg :=
  (fun n => if n = 2 then 0 else emu.regs n, emu.sr)

theorem registerFile_eq_iff {emu emu' : Emulator} :
    registerFile emu' = registerFile emu
      ↔ (∀ n, n ≠ 2 → emu'.regs n = emu.regs n) ∧ emu'.sr = emu.sr := by
  rw [registerFile, registerFile, Prod.mk.injEq, funext_iff]
  refine and_congr_left' (forall_congr' fun n => ?_)
  by_cases h2 : n = 2
  · simp [h2]
  · simp [h2]

/-- The machine initialised anew with the memory that it has. -/
def freshMachine (emu : Emulator) : Emulator := { setUp emu with mem := emu.mem }

/-- `reset` leaves the registers as `initialize_msp_registers` sets them, and whatever follows
finds them as on a fresh machine. -/
def Restarts (emu : Emulator) : Prop :=
  ∀ line emu', command line = .reset → execCmd emu line = some emu' →
    registerFile emu' = registerFile (initializeMspRegisters emu') ∧
      ∀ evs, (session emu' evs).map registerFile
        = (session (freshMachine emu') evs).map registerFile

/-- What the listing of a word leaves of a register that is not the program counter. -/
def listedReg (w : BitVec 16) (n : Fin 16) (v : BitVec 16) : BitVec 16 :=
  if formatId w = 1 then blockReg w n v else v

/-- The flags hold their starting values, and so do the registers behind the program counter
once the first instruction is listed. -/
def HoldsStartValues (emu : Emulator) : Prop :=
  emu.sr = (initializeMspRegisters emu).sr ∧
    ∀ n, n ≠ 0 → n ≠ 2 → listedReg (emu.load16 (getAddrPtr 0xC000)) n (emu.regs n)
      = (initializeMspRegisters emu).regs n

instance (emu : Emulator) : Decidable (HoldsStartValues emu) :=
  inferInstanceAs (Decidable (_ ∧ _))

/-! ## The listing at the end of the command -/

/-- The listing of one line. -/
theorem registers_disassemble_one (emu : Emulator) (start : BitVec 16) :
    (∀ n, n ≠ 0 → n ≠ 2 → (disassemble emu start 1).regs n
        = listedReg (emu.load16 (getAddrPtr start)) n (emu.regs n)) ∧
      (disassemble emu start 1).pc = emu.pc ∧ (disassemble emu start 1).sr = emu.sr := by
  obtain ⟨e, he⟩ : ∃ e, e = (fetch (listingStart emu start)).2 := ⟨_, rfl⟩
  obtain ⟨w, hw⟩ : ∃ w, w = emu.load16 (getAddrPtr start) := ⟨_, rfl⟩
  have hline : disassembleLine (listingStart emu start) = decode e w true := by
    rw [he, hw]
    rfl
  have hreg (n : Fin 16) (h0 : n ≠ 0) : e.regs n = emu.regs n := by
    rw [he]
    show (if n = 0 then _ else if n = 0 then _ else emu.regs n) = _
    rw [if_neg h0, if_neg h0]
  have hdecode : (∀ n, n ≠ 0 → n ≠ 2 → (decode e w true).regs n = listedReg w n (emu.regs n)) ∧
      (decode e w true).sr = emu.sr := by
    have hsr : e.sr = emu.sr := by rw [he]; rfl
    have hplain (h1 : formatId w ≠ 1) (n : Fin 16) (h0 : n ≠ 0) :
        e.regs n = listedReg w n (emu.regs n) := by
      rw [listedReg, if_neg h1, hreg n h0]
    rcases formatId_cases w with h0 | h1 | h3 | h4
    · rw [decode_invalid _ _ _ h0]
      exact ⟨fun n hn _ => hplain (by rw [h0]; decide) n hn, hsr⟩
    · rw [decode_formatII _ _ _ h1, decodeFormatII, if_pos rfl, operandsII_emu]
      refine ⟨fun n hn h2 => ?_, hsr⟩
      rw [listedReg, if_pos h1, ← hreg n hn]
      exact regsII_eq_blockReg e w hn h2
    · rw [decode_formatIII _ _ _ h3, decodeFormatIII, if_pos rfl]
      exact ⟨fun n hn _ => hplain (formatId_ne_one h3.1) n hn, hsr⟩
    · rw [decode_formatI _ _ _ h4, decodeFormatI, if_pos rfl, operandsI_emu]
      refine ⟨fun n hn h2 => ?_, hsr⟩
      rw [← hplain (formatId_ne_one (le_trans (by decide) h4)) n hn]
      exact (regsI_listed e w h2).trans (by rw [if_neg hn, add_zero])
  rw [disassemble_eq, show (1 : BitVec 8).toNat = 1 from rfl, Function.iterate_one, hline, ← hw]
  refine ⟨fun n hn h2 => ?_, rfl, hdecode.2⟩
  rw [Emulator.regs_setReg, if_neg hn]
  exact hdecode.1 n hn h2

/-! ## The command -/

section Reset

variable {emu : Emulator}

/-- The registers after the command. -/
theorem registers_execReset (emu : Emulator) :
    (∀ n, n ≠ 0 → n ≠ 2 → (execReset emu).regs n
        = listedReg (emu.load16 (getAddrPtr 0xC000)) n (emu.regs n)) ∧
      (execReset emu).pc = 0xC000 ∧ (execReset emu).sr = emu.sr := by
  obtain ⟨hregs, hpc, hsr⟩ := registers_disassemble_one (emu.setReg 0 0xC000) 0xC000
  refine ⟨fun n hn h2 => (hregs n hn h2).trans ?_, hpc, hsr⟩
  rw [Emulator.load16_setReg_getAddrPtr, Emulator.regs_setReg, if_neg hn]

/-- The registers are those of a start exactly when they were before, but for the listing. -/
theorem registerFile_execReset_iff (emu : Emulator) :
    registerFile (execReset emu) = registerFile (initializeMspRegisters (execReset emu))
      ↔ HoldsStartValues emu := by
  obtain ⟨hregs, hpc, hsr⟩ := registers_execReset emu
  have hstart (n : Fin 16) (h2 : n ≠ 2) : (initializeMspRegisters (execReset emu)).regs n
      = (initializeMspRegisters emu).regs n := by
    simp only [initializeMspRegisters, if_neg h2]
  rw [registerFile_eq_iff, HoldsStartValues, hsr, and_comm]
  refine and_congr_right fun _ => ⟨fun h n h0 h2 => ?_, fun h n h2 => ?_⟩
  · rw [← hregs n h0 h2, h n h2, hstart n h2]
  · by_cases h0 : n = 0
    · rw [h0]
      exact hpc
    · rw [hstart n h2, hregs n h0 h2, h n h0 h2]

/-- Initialising the machine touches no local of the decoders, and of the debugger the flag
`running` alone. -/
theorem freshMachine_eq (emu : Emulator) :
    (freshMachine emu).regs = (initializeMspRegisters emu).regs ∧
      (freshMachine emu).sr = (initializeMspRegisters emu).sr ∧
      (freshMachine emu).residue = emu.residue ∧
      (freshMachine emu).supervision
        = ((false, emu.debugMode), emu.quit, emu.numBps, emu.bpAddresses) := by
  cases emu
  exact ⟨rfl, rfl, rfl, rfl⟩

/-- The machine that stands in the debugger after a reset is a twin of the fresh one, if its
registers are those of a start. -/
theorem twin_freshMachine (hrun : emu.running = false)
    (h : registerFile emu = registerFile (initializeMspRegisters emu)) :
    Twin emu (freshMachine emu) := by
  obtain ⟨hregs, hsr⟩ := registerFile_eq_iff.mp h
  obtain ⟨hregs', hsr', hres, hsup⟩ := freshMachine_eq emu
  refine ⟨⟨fun n hn => ?_, ?_, rfl⟩, hres, ?_⟩
  · rw [hregs', hregs n hn]
  · rw [hsr', hsr]
  · rw [hsup, ← hrun]
    rfl

/-- **Resetting restarts the machine exactly when** the registers and the flags held their
starting values before. -/
theorem reset_restarts_iff (hrun : emu.running = false) :
    Restarts emu ↔ HoldsStartValues emu := by
  have hexec (line : Str) (hc : command line = .reset) :
      execCmd emu line = some (execReset emu) := by
    rw [execCmd_eq, hc]
    rfl
  have hstands : (execReset emu).running = false := by
    rcases keepsModes_disassemble (emu.setReg 0 0xC000) 0xC000 1 with hkeep | hkeep
    · exact (congrArg Prod.fst hkeep).trans hrun
    · exact congrArg Prod.fst hkeep
  rw [← registerFile_execReset_iff]
  constructor
  · intro h
    have hreset : command (bytes "reset") = .reset := by decide
    exact (h _ _ hreset (hexec _ hreset)).1
  · intro h line emu' hc hline
    obtain rfl := Option.some.inj ((hexec line hc).symm.trans hline)
    refine ⟨h, fun evs => ?_⟩
    -- the two machines are twins to the end of the session
    have htwins := (twin_freshMachine hstands h).session evs
    generalize session (execReset emu) evs = o, session (freshMachine (execReset emu)) evs = o'
      at htwins ⊢
    cases htwins with
    | none => rfl
    | some ht => exact congrArg some (registerFile_eq_iff.mpr ⟨ht.agree.regs, ht.agree.sr⟩).symm

end Reset

/-! ## A register that is forgotten -/

/-- `MOV #0x1234, R5`, loaded as firmware. -/
def movingStart : Emulator := firmwareStart [0x35, 0x40, 0x34, 0x12]

set_option maxRecDepth 4000 in
/-- The instruction is stepped over, and R5 is as it left it after the reset. -/
theorem reset_forgets :
    ¬ ∀ tmpBin host start evs emu, initialise tmpBin host = some start →
      session start evs = some emu → emu.running = false → Restarts emu := by
  intro hclaim
  have hinit : initialise [0x35, 0x40, 0x34, 0x12] allocated = some movingStart := rfl
  have hstep : session movingStart [.command (bytes "step")] = some (execStep movingStart 1) := rfl
  have hcommand : command (bytes "reset") = .reset := by decide
  have hreset : execCmd (execStep movingStart 1) (bytes "reset")
      = some (execReset (execStep movingStart 1)) := by
    rw [execCmd_eq, hcommand]
    rfl
  have hregs := (hclaim _ _ _ _ _ hinit hstep (by decide +kernel) _ _ hcommand hreset).1
  have hholds := (registerFile_execReset_iff _).mp hregs
  revert hholds
  decide +kernel

/-- `NOP` and `MOV #1, &0x0200`, stepped over. -/
def storedMachine : Emulator :=
  execStep (firmwareStart [0x03, 0x43, 0x92, 0x43, 0x00, 0x02]) 2

/-- The machine restarts once a word of its memory has changed, but none of its registers. -/
theorem reset_restarts_iff_stored :
    (storedMachine.pc = 0xC006 ∧ storedMachine.load16 (.mem 0x0200) = 1) ∧
      Restarts storedMachine := by
  have hrun : storedMachine.running = false := by decide +kernel
  have hholds : HoldsStartValues storedMachine := by decide +kernel
  exact ⟨by decide +kernel, (reset_restarts_iff hrun).mpr hholds⟩

end Msp430
