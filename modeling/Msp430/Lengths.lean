/-
# The length of an instruction

How far `decode` moves the program counter over an instruction that does not write it,
executing and disassembling.  Operand resolution takes one extension word where the encoding
has one, in both modes; only the byte mask, which falls on the program counter like on any
other register, can spoil the count.  `length_iff` says when.
-/
import Msp430.ReadOnly
import Msp430.Shifts

namespace Msp430

/-! ## What the encoding says -/

/-- The operand field has an extension word: indexed, symbolic, absolute or immediate. -/
def fieldExtended (reg : Fin 16) (as : Fin 4) : Bool :=
  (as == 1 && reg != 3) || (as == 3 && reg == 0)

/-- The number of extension words of a Format I or Format II word. -/
def extensionWords (w : BitVec 16) : ℕ :=
  if formatId w = 1 then (fieldExtended (lowReg w) (asFlag w)).toNat
  else (fieldExtended (sourceReg w) (asFlag w)).toNat + (adFlag w).toNat

/-- The register operand of the instruction is the program counter. -/
def OnPc (w : BitVec 16) : Prop :=
  lowReg w = 0 ∧ if formatId w = 1 then asFlag w = 0 else adFlag w = false

/-- The instruction writes the program counter: CALL, a shift of it, or a writing
instruction with the program counter as register destination. -/
def WritesPc (w : BitVec 16) : Prop :=
  if formatId w = 1 then opcodeII w = 5 ∨ (opcodeII w ≤ 3 ∧ OnPc w)
  else Writes (formatId w) ∧ OnPc w

instance (w : BitVec 16) : Decidable (OnPc w) := inferInstanceAs (Decidable (_ ∧ _))

instance (w : BitVec 16) : Decidable (WritesPc w) := by
  unfold WritesPc
  infer_instance

/-- The word behind the instruction at the program counter, by its encoding. -/
def behind (emu : Emulator) : BitVec 16 :=
  emu.pc + 2 + BitVec.ofNat 16 (2 * extensionWords (fetch emu).1)

/-- Executing and disassembling both leave the program counter behind the instruction. -/
def LengthRight (emu : Emulator) : Prop :=
  ∀ disassemble, (decode (fetch emu).2 (fetch emu).1 disassemble).pc = behind emu

instance (emu : Emulator) : Decidable (LengthRight emu) :=
  inferInstanceAs (Decidable (∀ _, _))

/-- The byte mask falls on the program counter and takes a high byte that is in use. -/
def MasksPc (emu : Emulator) : Prop :=
  OnPc (fetch emu).1 ∧ bwFlag (fetch emu).1 = .byte ∧ highByte (behind emu) ≠ 0

instance (emu : Emulator) : Decidable (MasksPc emu) := inferInstanceAs (Decidable (_ ∧ _))

/-! ## The program counter after the operand block -/

/-- An operand that is no constant has an extension word when its field says so. -/
theorem fieldExtended_eq (reg : Fin 16) (as : Fin 4) :
    fieldExtended reg as
      = ((generatedConstant reg as).isNone && (as == 1 || (as == 3 && reg == 0))) := by
  revert reg as
  decide

theorem advanceI_eq {w : BitVec 16} (h : 4 ≤ formatId w) :
    advanceI w = BitVec.ofNat 16 (2 * extensionWords w) := by
  have hne : formatId w ≠ 1 := formatId_ne_one (le_trans (by decide) h)
  have hsrc : fieldExtended (sourceReg w) (asFlag w) = sourceExtended w :=
    fieldExtended_eq _ _
  rw [extensionWords, if_neg hne, hsrc, advanceI, sourceAdvance]
  cases sourceExtended w <;> cases adFlag w <;> rfl

theorem advanceII_eq {w : BitVec 16} (h : formatId w = 1) :
    advanceII w = BitVec.ofNat 16 (2 * extensionWords w) := by
  have hext : fieldExtended (lowReg w) (asFlag w) = extendedII w := by
    rw [fieldExtended_eq, extendedII, immediateII, constantII, Bool.and_or_distrib_left,
      Bool.or_comm, Bool.and_assoc]
  rw [extensionWords, if_pos h, hext, advanceII]
  cases extendedII w <;> rfl

/-- The program counter after the Format I operand block. -/
theorem regsI_pc (emu : Emulator) (w : BitVec 16) (disassemble : Bool) :
    regsI emu w disassemble 0
      = if disassemble = false ∧ masksDestination w = true ∧ lowReg w = 0 then
          (emu.pc + advanceI w) &&& 0x00FF
        else emu.pc + advanceI w := by
  have hpc : (lookupsI emu w).regs 0 = emu.pc := pc_lookupsI emu w
  have hinc : (!disassemble && autoIncrements w && (0 : Fin 16) == sourceReg w) = false := by
    by_cases h0 : sourceReg w = 0
    · simp [autoIncrements, h0]
    · simp [Ne.symm h0]
  have hunmasked : unmaskedI emu w disassemble 0 = emu.pc + advanceI w := by
    rw [unmaskedI, hpc, hinc]
    simp
  rw [regsI, hunmasked]
  congr 1
  simp only [Bool.and_eq_true, Bool.not_eq_true', beq_iff_eq, and_assoc,
    @eq_comm _ (0 : Fin 16)]

/-- The program counter after the Format II operand block. -/
theorem regsII_pc (emu : Emulator) (w : BitVec 16) :
    regsII emu w 0
      = if masksOperand w = true ∧ lowReg w = 0 then (emu.pc + advanceII w) &&& 0x00FF
        else emu.pc + advanceII w := by
  have hpc : (lookupII emu w).regs 0 = emu.pc := regs_lookupII_of_ne emu w (by decide)
  have hinc : (autoIncrementsII w && (0 : Fin 16) == lowReg w) = false := by
    by_cases h0 : lowReg w = 0
    · simp [autoIncrementsII, h0]
    · simp [Ne.symm h0]
  have hunmasked : unmaskedII emu w 0 = emu.pc + advanceII w := by
    rw [unmaskedII, hpc, hinc]
    simp
  rw [regsII, hunmasked]
  congr 1
  simp only [Bool.and_eq_true, beq_iff_eq, @eq_comm _ (0 : Fin 16)]

/-- A register other than the program counter after the operand block. -/
def blockReg (w : BitVec 16) (n : Fin 16) (v : BitVec 16) : BitVec 16 :=
  if masksOperand w ∧ n = lowReg w then v &&& 0x00FF
  else if autoIncrementsII w ∧ n = lowReg w then v + increment (bwFlag w) else v

theorem regsII_eq_blockReg (emu : Emulator) (w : BitVec 16) {n : Fin 16} (h0 : n ≠ 0)
    (h2 : n ≠ 2) : regsII emu w n = blockReg w n (emu.regs n) := by
  unfold blockReg
  by_cases hinc : autoIncrementsII w ∧ n = lowReg w
  · have hm : ¬ (masksOperand w ∧ n = lowReg w) := fun hc =>
      not_autoIncrementsII_of_masksOperand hc.1 hinc.1
    rw [if_neg hm, if_pos hinc, regsII, if_neg (by simpa using hm), unmaskedII,
      regs_lookupII_of_ne emu w h2, if_neg h0, add_zero, if_pos (by simpa using hinc)]
  · rw [regsII_of_ne emu w n h0 h2 hinc, if_neg hinc]

/-- A register that is not the operand's stays. -/
theorem blockReg_of_ne {w : BitVec 16} {n : Fin 16} (h : lowReg w ≠ n) (v : BitVec 16) :
    blockReg w n v = v := by
  rw [blockReg, if_neg (fun hc => h hc.2.symm), if_neg (fun hc => h hc.2.symm)]

/-- The stack pointer as an operand, mode by mode. -/
theorem blockReg_sp {w : BitVec 16} (h : lowReg w = 1) (v : BitVec 16) :
    blockReg w 1 v = if bwFlag w = .byte ∧ asFlag w = 0 then v &&& 0x00FF
      else if asFlag w = 3 then v + increment (bwFlag w) else v := by
  have hinc : autoIncrementsII w = true ↔ asFlag w = 3 := by
    simp [autoIncrementsII, constantII, generatedConstant, h]
  have hm : masksOperand w = true ↔ bwFlag w = .byte ∧ asFlag w = 0 := by
    simp [masksOperand]
  unfold blockReg
  simp only [hinc, hm, h, and_true]

/-- The byte mask as a remainder. -/
theorem toNat_mask (v : BitVec 16) : (v &&& 0x00FF).toNat = v.toNat % 2 ^ 8 := by
  rw [BitVec.toNat_and]
  exact Nat.and_two_pow_sub_one_eq_mod _ 8

/-- A push does not make up for a mask. -/
theorem mask_sub_two_ne (v : BitVec 16) : (v &&& 0x00FF) - 2 ≠ v := by
  intro h
  have hnat := congrArg BitVec.toNat h
  have hv := v.isLt
  rw [BitVec.toNat_sub, toNat_mask] at hnat
  simp at hnat
  omega

/-! ## The program counter after the instruction -/

/-- A Format I instruction that does not write the program counter leaves it where the
operand block does. -/
theorem pc_decodeFormatI (emu : Emulator) (w : BitVec 16) (disassemble : Bool)
    (h : 4 ≤ formatId w) (hw : ¬ WritesPc w) :
    (decode emu w disassemble).pc = regsI emu w disassemble 0 := by
  have hne : formatId w ≠ 1 := formatId_ne_one (le_trans (by decide) h)
  have hblock (d : Bool) : (operandsI emu w d).emu.regs 0 = regsI emu w d 0 := by
    rw [operandsI_emu]
  rw [decode_formatI emu w disassemble h]
  cases disassemble with
  | true => exact hblock true
  | false =>
    rw [← hblock, Emulator.pc, decodeFormatI, if_neg (by decide)]
    by_cases hwr : Writes (formatId w)
    · have hdst : (operandsI emu w false).destinationAddr ≠ .reg 0 := by
        rw [operandsI_destinationAddr, Ne, destinationI_eq_reg]
        rintro ⟨ha, hr⟩
        exact hw (by rw [WritesPc, if_neg hne, OnPc, if_neg hne]; exact ⟨hwr, hr, ha⟩)
      rw [executeI_eq_storeResult _ _ _ _ _ hwr]
      exact regs_storeResult _ _ _ _ _ _ hdst
    · by_cases hc : Compares w
      · rw [executeI_compares _ _ _ _ _ hc]
      · rw [executeI_of_not _ _ _ _ _ hwr hc]

/-- The cell of a Format II operand is the program counter in register mode only. -/
theorem sourceCellII_eq_pc {emu : Emulator} {w : BitVec 16} (h : sourceCellII emu w = .reg 0) :
    asFlag w = 0 ∧ lowReg w = 0 := by
  have hc : ¬ ((constantII w).isSome || immediateII w) = true := by
    intro hc
    rw [sourceCellII, if_pos hc] at h
    exact absurd h (by decide)
  have ha : asFlag w = 0 := by
    by_contra ha
    obtain ⟨a, hcell⟩ := exists_sourceCellII emu w hc ha
    rw [hcell] at h
    exact absurd h (by simp [getAddrPtr])
  rw [sourceCellII, if_neg hc, ha] at h
  exact ⟨ha, by simpa using h⟩

/-- A Format II instruction that does not write the program counter leaves it where the
operand block does. -/
theorem pc_decodeFormatII (emu : Emulator) (w : BitVec 16) (disassemble : Bool)
    (h : formatId w = 1) (hw : ¬ WritesPc w) :
    (decode emu w disassemble).pc = regsII emu w 0 := by
  have hblock : (operandsII emu w).emu.regs 0 = regsII emu w 0 := by rw [operandsII_emu]
  rw [WritesPc, if_pos h, OnPc, if_pos h, not_or] at hw
  obtain ⟨hcall, hshift⟩ := hw
  rw [decode_formatII emu w disassemble h, ← hblock, decodeFormatII]
  cases disassemble with
  | true => rfl
  | false =>
    rw [if_neg (by decide), (operandsII_source emu w).1, Emulator.pc]
    have hcases : opcodeII w ≤ 3 ∨ opcodeII w = 4 ∨ opcodeII w = 6 ∨ opcodeII w = 7 := by
      revert hcall
      generalize opcodeII w = o
      revert o
      decide
    rcases hcases with ho | ho | ho | ho
    · rw [executeII_shift _ _ _ _ ho]
      refine (Emulator.regs_store16 _ _ _ _).trans (if_neg ?_)
      intro hcell
      obtain ⟨ha, hr⟩ := sourceCellII_eq_pc hcell
      exact hshift ⟨ho, hr, ha⟩
    · rw [ho, executeII, regs_execPush, if_neg (by decide)]
    · rw [ho]
      rfl
    · rw [ho]
      rfl

/-! ## The length -/

/-- The program counter after an instruction that does not write it: the word behind the
instruction, masked where the byte mask falls on it. -/
theorem pc_decode (emu : Emulator) (disassemble : Bool)
    (hf : formatId (fetch emu).1 = 1 ∨ 4 ≤ formatId (fetch emu).1)
    (hw : ¬ WritesPc (fetch emu).1) :
    (decode (fetch emu).2 (fetch emu).1 disassemble).pc
      = if (formatId (fetch emu).1 = 1 ∨ disassemble = false) ∧ OnPc (fetch emu).1 ∧
            bwFlag (fetch emu).1 = .byte then
          behind emu &&& 0x00FF
        else behind emu := by
  obtain ⟨w, hword⟩ : ∃ w, w = (fetch emu).1 := ⟨_, rfl⟩
  have hpc : (fetch emu).2.pc = emu.pc + 2 := rfl
  rw [← hword] at hf hw ⊢
  rcases hf with h | h
  · rw [pc_decodeFormatII _ w disassemble h hw, regsII_pc, hpc, advanceII_eq h, behind, ← hword]
    congr 1
    simp [OnPc, h, masksOperand]
    tauto
  · have hne : formatId w ≠ 1 := formatId_ne_one (le_trans (by decide) h)
    rw [pc_decodeFormatI _ w disassemble h hw, regsI_pc, hpc, advanceI_eq h, behind, ← hword]
    congr 1
    simp [OnPc, hne, masksDestination]
    tauto

/-- **Executor and disassembler agree on the length of an instruction exactly when** the byte
mask does not take the high byte of the program counter. -/
theorem length_iff (emu : Emulator)
    (hf : formatId (fetch emu).1 = 1 ∨ 4 ≤ formatId (fetch emu).1)
    (hw : ¬ WritesPc (fetch emu).1) : LengthRight emu ↔ ¬ MasksPc emu := by
  unfold LengthRight MasksPc
  constructor
  · rintro hlen ⟨hon, hbw, hhigh⟩
    have hexec := hlen false
    rw [pc_decode emu false hf hw, if_pos ⟨Or.inr rfl, hon, hbw⟩] at hexec
    exact hhigh ((mask_eq_self_iff _).mp hexec)
  · intro hmask d
    rw [pc_decode emu d hf hw]
    split_ifs with h
    · rw [mask_eq_self_iff]
      by_contra hhigh
      exact hmask ⟨h.2.1, h.2.2, hhigh⟩
    · rfl

/-- Behind an instruction lies another address than its own. -/
theorem behind_ne (emu : Emulator) : behind emu ≠ emu.pc ∧ behind emu &&& 0x00FF ≠ emu.pc := by
  have hext : extensionWords (fetch emu).1 ≤ 2 := by
    have hb := fun b : Bool => Bool.toNat_le b
    unfold extensionWords
    split_ifs
    · exact le_trans (hb _) (by decide)
    · exact Nat.add_le_add (hb _) (hb _)
  have hpc := emu.pc.isLt
  have hbehind : (behind emu).toNat
      = (emu.pc.toNat + 2 + 2 * extensionWords (fetch emu).1) % 2 ^ 16 := by
    rw [behind, BitVec.toNat_add, BitVec.toNat_add, BitVec.toNat_ofNat]
    simp
  refine ⟨fun h => ?_, fun h => ?_⟩ <;> have hnat := congrArg BitVec.toNat h
  · omega
  · rw [toNat_mask] at hnat
    omega

/-- An instruction that does not write the program counter moves on. -/
theorem pc_cpuStep_ne (emu : Emulator)
    (hf : formatId (fetch emu).1 = 1 ∨ 4 ≤ formatId (fetch emu).1)
    (hw : ¬ WritesPc (fetch emu).1) : (cpuStep emu).pc ≠ emu.pc := by
  rw [cpuStep, pc_decode emu false hf hw]
  split_ifs
  · exact (behind_ne emu).2
  · exact (behind_ne emu).1

/-- `PUSH.B PC` at `0xC000`: executor and disassembler go on at `0x0002`. -/
theorem length_wrong : ¬ LengthRight (startState.setWords [(0xC000, 0x1240)]) := by
  decide

/-- `MOV #1234h, 2(R5)` is three words long. -/
theorem length_iff_three :
    LengthRight (startState.setWords [(0xC000, 0x40B5), (0xC002, 0x1234), (0xC004, 2)]) :=
  (length_iff (startState.setWords [(0xC000, 0x40B5), (0xC002, 0x1234), (0xC004, 2)])
    (by decide) (by decide)).mpr (by decide)

end Msp430
