/-
# The flags of the logical instructions

BIT, AND and XOR against the instruction set: `logicalFlags` is the status register that
they are documented to leave, on operands of any width, and MOV, BIC and BIS leave the
status register as it is.  `logical_flags` says that the code agrees everywhere; the byte
forms do not see the high bytes of the words that hold their operands.
-/
import Msp430.Compare

namespace Msp430

/-! ## What the logical instructions promise -/

/-- The flags of a logical result: sign, zero, carry as "not zero". -/
def resultFlags {n : ℕ} (sr : StatusReg) (result : BitVec n) (overflow : Bool) : StatusReg :=
  { sr with
    negative := result.msb
    zero := result == 0
    carry := !(result == 0)
    overflow := overflow }

/-- The status register that BIT, AND and XOR are documented to leave; any other opcode
leaves the one it found. -/
def logicalFlags {n : ℕ} (opcode : Fin 16) (sr : StatusReg) (s d : BitVec n) : StatusReg :=
  match opcode with
  | 0xB => resultFlags sr (s &&& d) false
  | 0xE => resultFlags sr (d ^^^ s) (d.msb && s.msb)
  | 0xF => resultFlags sr (d &&& s) false
  | _ => sr

/-- BIT, AND and XOR, and the opcodes MOV, BIC and BIS that set no flag. -/
def Logical (opcode : Fin 16) : Prop := opcode ∈ [0xB, 0xE, 0xF, 0x4, 0xC, 0xD]

instance (opcode : Fin 16) : Decidable (Logical opcode) := by
  unfold Logical; infer_instance

/-! ## The flags of the code -/

/-- The top bit of a word, as the code tests it. -/
theorem shift_fifteen (v : BitVec 16) : (v >>> 15 != 0) = v.msb := by
  rw [← isNegative_word_eq, isNegative_word]

/-- The top bit of a byte, as the code tests it. -/
theorem shift_seven (b : BitVec 8) : (b >>> 7 != 0) = b.msb := by
  rw [shift_ne_zero, BitVec.msb_eq_decide]

/-- The flags of a logical opcode in word form. -/
theorem sr_executeI_logical_word (emu : Emulator) (opcode : Fin 16) (s : BitVec 16)
    (p : Ptr) (h : Logical opcode) :
    (executeI emu opcode .word s p).sr = logicalFlags opcode emu.sr s (emu.load16 p) := by
  unfold Logical at h
  fin_cases h <;>
    simp only [executeI, execBit, execXor, execAnd, execMov, execBic, execBis, logicalFlags,
      resultFlags, shift_fifteen, Emulator.load16_store16,
      Emulator.sr_store16] <;> rfl

/-- The flags of a logical opcode in byte form. -/
theorem sr_executeI_logical_byte (emu : Emulator) (opcode : Fin 16) (s : BitVec 16)
    (p : Ptr) (h : Logical opcode) :
    (executeI emu opcode .byte s p).sr
      = logicalFlags opcode emu.sr (s.setWidth 8) ((emu.load16 p).setWidth 8) := by
  rw [← Emulator.load8_eq]
  unfold Logical at h
  fin_cases h <;>
    simp only [executeI, execBit, execXor, execAnd, execMov, execBic, execBis, logicalFlags,
      resultFlags, shift_seven, Emulator.load8_store8,
      Emulator.sr_store8] <;> rfl

/-! ## The whole instruction -/

theorem four_le_of_logical {opcode : Fin 16} (h : Logical opcode) : 4 ≤ opcode := by
  revert opcode
  decide

/-- **The logical instructions leave the documented flags**, for every state, operand and
width: the operands are the ones that the operand block resolves, cut to the width. -/
theorem logical_flags (emu : Emulator) (w : BitVec 16) (h : Logical (formatId w)) :
    let o := operandsI emu w false
    let s := o.sourceValue
    let d := o.emu.load16 o.destinationAddr
    (bwFlag w = .word →
        (decode emu w false).sr = logicalFlags (formatId w) emu.sr s d) ∧
      (bwFlag w = .byte →
        (decode emu w false).sr
          = logicalFlags (formatId w) emu.sr (s.setWidth 8) (d.setWidth 8)) := by
  intro o s d
  rw [decode_formatI emu w false (four_le_of_logical h), ← sr_operandsI emu w false]
  simp only [decodeFormatI, Bool.false_eq_true, if_false]
  constructor
  · intro hbw
    rw [hbw]
    exact sr_executeI_logical_word o.emu (formatId w) s o.destinationAddr h
  · intro hbw
    rw [hbw]
    exact sr_executeI_logical_byte o.emu (formatId w) s o.destinationAddr h

/-- `XOR R4, R5` with both top bits set, and `MOV.B R4, R5`. -/
theorem logical_flags_xor :
    let emu := (startState.setReg 4 0x8001).setReg 5 0x8000
    (decode emu 0xE405 false).sr = logicalFlags 0xE emu.sr (0x8001 : BitVec 16) 0x8000 ∧
      (decode emu 0x4445 false).sr = emu.sr := by
  intro emu
  exact ⟨(logical_flags emu 0xE405 (by decide)).1 (by decide),
    (logical_flags emu 0x4445 (by decide)).2 (by decide)⟩

end Msp430
