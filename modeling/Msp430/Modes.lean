/-
# The two flags of the run state

`cpu->running` and `debugger->debug_mode` as the program moves them: an invalid instruction
stops the machine and hands it to the debugger, every other instruction, listing or handler
leaves both flags alone.
-/
import Msp430.Console
import Msp430.Transparency

namespace Msp430

/-- `cpu->running` with `debugger->debug_mode`. -/
def Emulator.modes (emu : Emulator) : Bool × Bool := (emu.running, emu.debugMode)

/-- The flags of a machine that stands in the debugger. -/
def halted : Bool × Bool := (false, true)

theorem modes_store16 (emu : Emulator) (p : Ptr) (v : BitVec 16) :
    (emu.store16 p v).modes = emu.modes := by
  cases p <;> rfl

/-- **Decoding an instruction**, executing or listing it, leaves the flags unless the word is
none. -/
theorem modes_decode (emu : Emulator) (w : BitVec 16) (disassemble : Bool) :
    (decode emu w disassemble).modes = if formatId w = 0 then halted else emu.modes := by
  have hdecode := congrArg Prod.fst (supervision_decode emu w disassemble)
  rw [apply_ite Prod.fst] at hdecode
  exact hdecode

/-- The peripheral handlers leave the flags. -/
theorem modes_handlePeripherals (emu : Emulator) :
    (handlePeripherals emu).modes = emu.modes :=
  congrArg Prod.fst (supervision_handlePeripherals emu)

/-! ## Runs of instructions and listings -/

/-- The flags are as they were, or those of the debugger. -/
def KeepsModes (emu emu' : Emulator) : Prop := emu'.modes = emu.modes ∨ emu'.modes = halted

theorem KeepsModes.trans {emu emu' emu'' : Emulator} (h : KeepsModes emu emu')
    (h' : KeepsModes emu' emu'') : KeepsModes emu emu'' := by
  rcases h' with h' | h'
  · exact h.imp h'.trans h'.trans
  · exact Or.inr h'

theorem KeepsModes.of_eq {emu emu' : Emulator} (h : emu'.modes = emu.modes) :
    KeepsModes emu emu' := Or.inl h

theorem KeepsModes.iterate {f : Emulator → Emulator} (hf : ∀ e, KeepsModes e (f e)) (n : ℕ)
    (emu : Emulator) : KeepsModes emu (f^[n] emu) := by
  induction n generalizing emu with
  | zero => exact KeepsModes.of_eq rfl
  | succ n ih => exact (hf emu).trans (ih (f emu))

theorem keepsModes_decode (emu : Emulator) (w : BitVec 16) (disassemble : Bool) :
    KeepsModes emu (decode emu w disassemble) := by
  unfold KeepsModes
  rw [modes_decode]
  split_ifs
  · exact Or.inr rfl
  · exact Or.inl rfl

theorem keepsModes_cpuStep (emu : Emulator) : KeepsModes emu (cpuStep emu) :=
  (KeepsModes.of_eq rfl).trans (keepsModes_decode (fetch emu).2 _ _)

theorem keepsModes_machineStep (emu : Emulator) : KeepsModes emu (machineStep emu) :=
  (keepsModes_cpuStep emu).trans (KeepsModes.of_eq (modes_handlePeripherals _))

/-- A listing stops the machine when it meets a word that is no instruction. -/
theorem keepsModes_disassemble (emu : Emulator) (start : BitVec 16) (times : BitVec 8) :
    KeepsModes emu (disassemble emu start times) := by
  have hline (e : Emulator) : KeepsModes e (disassembleLine e) :=
    (KeepsModes.of_eq rfl).trans (keepsModes_decode (fetch e).2 _ _)
  have hrun := KeepsModes.iterate hline times.toNat (listingStart emu start)
  rw [disassemble_eq]
  exact hrun

end Msp430
