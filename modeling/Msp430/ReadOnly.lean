/-
# Instructions that only read their operand

CMP and BIT compare two operands, PUSH copies one.  None of them should change what it
reads; but the byte mask of a register operand is applied while operands are resolved,
before the opcode is known, so that the byte forms clear the high byte of the register.
The two theorems say exactly when that shows.
-/
import Msp430.Decoder
import Msp430.Stack

namespace Msp430

/-! ## CMP and BIT -/

/-- The opcodes CMP and BIT. -/
def Compares (w : BitVec 16) : Prop := formatId w = 0x9 ∨ formatId w = 0xB

instance (w : BitVec 16) : Decidable (Compares w) :=
  inferInstanceAs (Decidable (_ ∨ _))

/-- Nothing has changed but the program counter, the flags and an auto-incremented
source register. -/
def KeepsOperands (emu emu' : Emulator) (w : BitVec 16) : Prop :=
  (∀ n, n ≠ 0 → n ≠ 2 → ¬ (autoIncrements w ∧ n = sourceReg w) →
      emu'.regs n = emu.regs n) ∧
    emu'.mem = emu.mem ∧ emu'.sr.clearFlags = emu.sr.clearFlags

/-- The byte mask of a register destination takes a high byte that is in use. -/
def MasksDestinationByte (emu : Emulator) (w : BitVec 16) : Prop :=
  masksDestination w = true ∧ lowReg w ≠ 0 ∧ lowReg w ≠ 2 ∧
    ¬ (autoIncrements w ∧ lowReg w = sourceReg w) ∧ highByte (emu.regs (lowReg w)) ≠ 0

/-- CMP and BIT assign to the status register alone. -/
theorem executeI_compares (emu : Emulator) (opcode : Fin 16) (bw : Width)
    (s : BitVec 16) (p : Ptr) (h : opcode = 0x9 ∨ opcode = 0xB) :
    executeI emu opcode bw s p = { emu with sr := (executeI emu opcode bw s p).sr } := by
  rcases h with rfl | rfl
  · rfl
  · cases bw <;> rfl

/-- The opcodes that neither write nor compare do nothing. -/
theorem executeI_of_not (emu : Emulator) (opcode : Fin 16) (bw : Width) (s : BitVec 16)
    (p : Ptr) (hw : ¬ Writes opcode) (hc : ¬ (opcode = 0x9 ∨ opcode = 0xB)) :
    executeI emu opcode bw s p = emu := by
  fin_cases opcode <;> first | rfl | exact absurd (by decide) hw | exact absurd (by decide) hc

theorem Compares.four_le {w : BitVec 16} (h : Compares w) : 4 ≤ formatId w := by
  rcases h with h | h <;> rw [h] <;> decide

/-- A compare is the operand block, with new flags. -/
theorem decode_compares (emu : Emulator) (w : BitVec 16) (h : Compares w) :
    decode emu w false
      = { emu with
          regs := regsI emu w false
          sr := (decode emu w false).sr } := by
  have hexec := executeI_compares (operandsI emu w false).emu (formatId w) (bwFlag w)
    (operandsI emu w false).sourceValue (operandsI emu w false).destinationAddr h
  rw [decode_formatI emu w false h.four_le]
  simp only [decodeFormatI]
  rw [if_neg (by decide), operandsI_emu] at *
  exact hexec

/-- A register that neither counts nor is auto-incremented is at most masked. -/
theorem regsI_of_ne (emu : Emulator) (w : BitVec 16) (n : Fin 16) (h0 : n ≠ 0)
    (h2 : n ≠ 2) (hinc : ¬ (autoIncrements w ∧ n = sourceReg w)) :
    regsI emu w false n
      = if masksDestination w ∧ n = lowReg w then emu.regs n &&& 0x00FF
        else emu.regs n := by
  have hlook := regs_lookupsI_of_ne emu w h2
  have hsrc : (autoIncrements w && n == sourceReg w) = false := by
    simpa using fun hm hn => hinc ⟨hm, hn⟩
  simp [regsI, unmaskedI, hlook, h0, hsrc]

/-- **CMP and BIT keep their operands, unless the byte mask takes a high byte.** -/
theorem compare_keeps_operands_iff (emu : Emulator) (w : BitVec 16) (h : Compares w) :
    KeepsOperands emu (decode emu w false) w ↔ ¬ MasksDestinationByte emu w := by
  have hemu' := decode_compares emu w h
  have hsr : (decode emu w false).sr.clearFlags = emu.sr.clearFlags := by
    rw [decode_formatI emu w false h.four_le]
    simp only [decodeFormatI, Bool.false_eq_true, if_false]
    rw [clearFlags_executeI, sr_operandsI]
  constructor
  · -- a masked register that is as before had no high byte
    rintro ⟨hregs, -, -⟩ ⟨hm, h0, h2, hinc, hhigh⟩
    apply hhigh
    have hreg : regsI emu w false (lowReg w) = emu.regs (lowReg w) := by
      have := hregs (lowReg w) h0 h2 hinc
      rwa [hemu'] at this
    rw [regsI_of_ne emu w _ h0 h2 hinc, if_pos ⟨hm, rfl⟩] at hreg
    exact (mask_eq_self_iff _).mp hreg
  · intro hmask
    refine ⟨?_, by rw [hemu'], hsr⟩
    intro n h0 h2 hinc
    rw [hemu']
    simp only [regsI_of_ne emu w n h0 h2 hinc]
    split_ifs with hm
    · obtain ⟨hm, rfl⟩ := hm
      rw [mask_eq_self_iff]
      by_contra hhigh
      exact hmask ⟨hm, h0, h2, hinc, hhigh⟩
    · rfl

/-! ## PUSH -/

/-- The opcode PUSH. -/
def Pushes (w : BitVec 16) : Prop := formatId w = 1 ∧ opcodeII w = 4

instance (w : BitVec 16) : Decidable (Pushes w) := inferInstanceAs (Decidable (_ ∧ _))

/-- Nothing has changed but the program counter, the stack pointer, an auto-incremented
source register and the word on top of the stack. -/
def KeepsPushed (emu emu' : Emulator) (w : BitVec 16) : Prop :=
  (∀ n, n ≠ 0 → n ≠ 1 → n ≠ 2 → ¬ (autoIncrementsII w ∧ n = lowReg w) →
      emu'.regs n = emu.regs n) ∧
    (∀ a, ¬ Touches (getStackPtr emu') .word a → emu'.mem a = emu.mem a) ∧
    emu'.sr = emu.sr

/-- The byte mask of a pushed register takes a high byte that is in use. -/
def MasksPushedByte (emu : Emulator) (w : BitVec 16) : Prop :=
  masksOperand w = true ∧ lowReg w ≠ 0 ∧ lowReg w ≠ 1 ∧ lowReg w ≠ 2 ∧
    highByte (emu.regs (lowReg w)) ≠ 0

/-- A PUSH is `execPush` after the operand block. -/
theorem decode_pushes (emu : Emulator) (w : BitVec 16) (h : Pushes w) :
    decode emu w false
      = execPush (operandsII emu w).emu (bwFlag w) (sourceValueII emu w) := by
  rw [decode_formatII emu w false h.1, decodeFormatII, if_neg (by decide), h.2,
    (operandsII_source emu w).2]
  rfl

/-- A register that neither counts nor is auto-incremented is at most masked. -/
theorem regsII_of_ne (emu : Emulator) (w : BitVec 16) (n : Fin 16) (h0 : n ≠ 0)
    (h2 : n ≠ 2) (hinc : ¬ (autoIncrementsII w ∧ n = lowReg w)) :
    regsII emu w n
      = if masksOperand w ∧ n = lowReg w then emu.regs n &&& 0x00FF else emu.regs n := by
  have hlook := regs_lookupII_of_ne emu w h2
  have hsrc : (autoIncrementsII w && n == lowReg w) = false := by
    simpa using fun hm hn => hinc ⟨hm, hn⟩
  simp [regsII, unmaskedII, hlook, h0, hsrc]

/-- Register mode and auto-increment exclude each other. -/
theorem not_autoIncrementsII_of_masksOperand {w : BitVec 16} (h : masksOperand w = true) :
    ¬ autoIncrementsII w = true := by
  simp only [masksOperand, Bool.and_eq_true, beq_iff_eq] at h
  simp [autoIncrementsII, h.2]

/-- **PUSH keeps its operand, unless the byte mask takes a high byte.** -/
theorem push_keeps_operand_iff (emu : Emulator) (w : BitVec 16) (h : Pushes w) :
    KeepsPushed emu (decode emu w false) w ↔ ¬ MasksPushedByte emu w := by
  have hregs (n : Fin 16) (h1 : n ≠ 1) :
      (decode emu w false).regs n = regsII emu w n := by
    rw [decode_pushes emu w h, regs_execPush, if_neg h1, operandsII_emu]
  constructor
  · rintro ⟨hkeep, -, -⟩ ⟨hm, h0, h1, h2, hhigh⟩
    have hinc : ¬ (autoIncrementsII w ∧ lowReg w = lowReg w) := fun hc =>
      not_autoIncrementsII_of_masksOperand hm hc.1
    apply hhigh
    have hreg := hkeep (lowReg w) h0 h1 h2 hinc
    rw [hregs _ h1, regsII_of_ne emu w _ h0 h2 hinc, if_pos ⟨hm, rfl⟩] at hreg
    exact (mask_eq_self_iff _).mp hreg
  · intro hmask
    refine ⟨?_, ?_, ?_⟩
    · intro n h0 h1 h2 hinc
      rw [hregs n h1, regsII_of_ne emu w n h0 h2 hinc]
      split_ifs with hm
      · obtain ⟨hm, rfl⟩ := hm
        rw [mask_eq_self_iff]
        by_contra hhigh
        exact hmask ⟨hm, h0, h1, h2, hhigh⟩
      · rfl
    · intro a ha
      rw [decode_pushes emu w h] at ha ⊢
      rw [getStackPtr_execPush] at ha
      rw [mem_execPush _ _ _ _ (fun hc => ha (hc.word)), operandsII_emu]
    · rw [decode_pushes emu w h, sr_execPush, operandsII_emu]

/-! ## Both -/

/-- **Instructions that only read keep what they read, unless the byte mask of a register
operand takes a high byte.** -/
theorem read_only_iff (emu : Emulator) (w : BitVec 16) :
    (Compares w →
        (KeepsOperands emu (decode emu w false) w ↔ ¬ MasksDestinationByte emu w)) ∧
      (Pushes w → (KeepsPushed emu (decode emu w false) w ↔ ¬ MasksPushedByte emu w)) :=
  ⟨compare_keeps_operands_iff emu w, push_keeps_operand_iff emu w⟩

/-- `CMP.B R4, R5` and `PUSH.B R5` with a high byte in `R5`. -/
theorem read_only_clears_high_byte :
    ¬ KeepsOperands (startState.setReg 5 0x1234)
        (decode (startState.setReg 5 0x1234) 0x9445 false) 0x9445 ∧
      ¬ KeepsPushed (startState.setReg 5 0x1234)
        (decode (startState.setReg 5 0x1234) 0x1245 false) 0x1245 := by
  constructor
  · rintro ⟨hregs, -, -⟩
    have h5 := hregs 5 (by decide) (by decide) (by decide)
    revert h5
    decide
  · rintro ⟨hregs, -, -⟩
    have h5 := hregs 5 (by decide) (by decide) (by decide) (by decide)
    revert h5
    decide

/-- `CMP R4, R5` and `PUSH R5` keep both registers. -/
theorem read_only_iff_word :
    KeepsOperands startState (decode startState 0x9405 false) 0x9405 ∧
      KeepsPushed startState (decode startState 0x1205 false) 0x1205 :=
  ⟨((read_only_iff startState 0x9405).1 (by decide)).mpr
      (fun hc => absurd hc.1 (by decide)),
    ((read_only_iff startState 0x1205).2 (by decide)).mpr
      (fun hc => absurd hc.1 (by decide))⟩

end Msp430
