/-
# The Format II operand block in closed form

`operandsII` said once, as `OperandsI` does for Format I.  The block is the same
whether the instruction executes or is listed, so that `operandsII_emu` is also what a
listing does to the machine.
-/
import Msp430.FormatII
import Msp430.OperandsI

namespace Msp430

/-! ## What an instruction word asks for -/

/-- The generated constant of a Format II operand, if it is one. -/
def constantII (w : BitVec 16) : Option (BitVec 16) :=
  generatedConstant (lowReg w) (asFlag w)

/-- The operand is immediate: the word behind the instruction. -/
def immediateII (w : BitVec 16) : Bool :=
  (constantII w).isNone && asFlag w == 3 && lowReg w == 0

/-- An operand that has a cell of its own is no constant. -/
theorem constantII_eq_none {w : BitVec 16}
    (h : ¬ ((constantII w).isSome || immediateII w) = true) : constantII w = none := by
  rw [← Option.not_isSome_iff_eq_none]
  intro hs
  exact h (by rw [hs, Bool.true_or])

/-- The operand has an extension word: symbolic, absolute, indexed or immediate. -/
def extendedII (w : BitVec 16) : Bool :=
  immediateII w || ((constantII w).isNone && asFlag w == 1)

/-- The operand register is auto-incremented. -/
def autoIncrementsII (w : BitVec 16) : Bool :=
  (constantII w).isNone && asFlag w == 3 && lowReg w != 0

/-- The operand register is masked to its low byte. -/
def masksOperand (w : BitVec 16) : Bool := bwFlag w == .byte && asFlag w == 0

/-- How far the operand block moves the program counter. -/
def advanceII (w : BitVec 16) : BitVec 16 := if extendedII w then 2 else 0

/-- The state once the register pointer has been looked up. -/
def lookupII (emu : Emulator) (w : BitVec 16) : Emulator := getRegPtr emu (lowReg w)

/-- A register cell before the byte mask. -/
def unmaskedII (emu : Emulator) (w : BitVec 16) (n : Fin 16) : BitVec 16 :=
  (lookupII emu w).regs n + (if n = 0 then advanceII w else 0)
    + (if autoIncrementsII w && n == lowReg w then increment (bwFlag w) else 0)

/-- The register cells after the operand block. -/
def regsII (emu : Emulator) (w : BitVec 16) (n : Fin 16) : BitVec 16 :=
  if masksOperand w && n == lowReg w then unmaskedII emu w n &&& 0x00FF
  else unmaskedII emu w n

/-- The word in the extension word. -/
def extensionII (emu : Emulator) : BitVec 16 := emu.load16 (getAddrPtr emu.pc)

/-- `bogus_reg` after the operand block. -/
def bogusII (emu : Emulator) (w : BitVec 16) : BitVec 16 :=
  match constantII w with
  | some c => c
  | none => if immediateII w then extensionII emu else emu.bogusReg

/-- `source_address`.  The symbolic address is formed past the extension word. -/
def sourceCellII (emu : Emulator) (w : BitVec 16) : Ptr :=
  if (constantII w).isSome || immediateII w then .bogus
  else match asFlag w with
    | 0 => .reg (lowReg w)
    | 1 =>
      if lowReg w = 0 then getAddrPtr (emu.pc + 2 + extensionII emu)
      else if lowReg w = 2 then getAddrPtr (extensionII emu)
      else getAddrPtr (emu.regs (lowReg w) + extensionII emu)
    | _ => getAddrPtr (emu.regs (lowReg w))

/-- `source_value`: read before the byte mask, and never assigned on the symbolic
path. -/
def sourceValueII (emu : Emulator) (w : BitVec 16) : BitVec 16 :=
  match constantII w with
  | some c => c
  | none =>
    if immediateII w then extensionII emu
    else if asFlag w = 0 then (lookupII emu w).regs (lowReg w)
    else if asFlag w = 1 ∧ lowReg w = 0 then emu.residue 0
    else emu.load16 (sourceCellII emu w)

theorem regs_lookupII (emu : Emulator) (w : BitVec 16) (n : Fin 16) :
    (lookupII emu w).regs n
      = if lowReg w = 2 ∧ n = 2 then srToValue emu.sr else emu.regs n := by
  simp [lookupII]

theorem regs_lookupII_of_ne (emu : Emulator) (w : BitVec 16) {n : Fin 16} (h : n ≠ 2) :
    (lookupII emu w).regs n = emu.regs n := by
  rw [regs_lookupII, if_neg (fun hc => h hc.2)]

/-! ## The four branches -/

/-- A register cell masked by a byte instruction. -/
theorem maskByte_eq (emu : Emulator) (r : Fin 16) (bw : Width) :
    maskByte emu r bw
      = { emu with regs := fun n =>
            if bw == .byte && n == r then emu.regs n &&& 0x00FF else emu.regs n } := by
  cases bw with
  | word => simp [maskByte]
  | byte =>
    simp only [maskByte, Emulator.setReg]
    congr 1
    funext n
    by_cases hn : n = r <;> simp [hn]

/-- A register cell auto-incremented. -/
theorem autoIncrement_eq (emu : Emulator) (r : Fin 16) (bw : Width) :
    autoIncrement emu r bw
      = { emu with regs := fun n => emu.regs n + if n = r then increment bw else 0 } := by
  cases bw <;>
  · simp only [autoIncrement, Emulator.setReg, increment]
    congr 1
    funext n
    by_cases hn : n = r <;> simp [hn]

/-- Mode 0. -/
theorem registerII_emu (emu : Emulator) (constant : Option (BitVec 16)) (r : Fin 16)
    (bw : Width) :
    (registerII emu constant r bw).emu
      = { emu with
          regs := fun n =>
            if bw == .byte && n == r then emu.regs n &&& 0x00FF else emu.regs n
          bogusReg := constant.getD emu.bogusReg } := by
  cases constant <;> simp [registerII, bogusOperand, operandAt, maskByte_eq]

/-- Mode 1. -/
theorem indexedII_emu (emu : Emulator) (constant : Option (BitVec 16)) (r : Fin 16)
    (v : BitVec 16) :
    (indexedII emu constant r v).emu
      = { emu with
          regs := fun n => emu.regs n + if n = 0 ∧ constant.isNone then 2 else 0
          bogusReg := constant.getD emu.bogusReg } := by
  cases constant with
  | some c => simp [indexedII, bogusOperand]
  | none =>
    simp only [indexedII]
    split_ifs <;> simp [operandAt, fetch_emu]

/-- Mode 2. -/
theorem indirectII_emu (emu : Emulator) (constant : Option (BitVec 16)) (r : Fin 16) :
    (indirectII emu constant r).emu
      = { emu with bogusReg := constant.getD emu.bogusReg } := by
  cases constant <;> simp [indirectII, bogusOperand, operandAt]

/-- Mode 3. -/
theorem autoIncII_emu (emu : Emulator) (constant : Option (BitVec 16)) (r : Fin 16)
    (bw : Width) :
    (autoIncII emu constant r bw).emu
      = { emu with
          regs := fun n =>
            emu.regs n + (if n = 0 ∧ constant.isNone ∧ r = 0 then 2 else 0)
              + (if constant.isNone && r != 0 && n == r then increment bw else 0)
          bogusReg := constant.getD
            (if r = 0 then emu.load16 (getAddrPtr emu.pc) else emu.bogusReg) } := by
  cases constant with
  | some c => simp [autoIncII, bogusOperand]
  | none =>
    by_cases h : r = 0
    · rw [if_pos h]
      have hword : (fetch emu).1 = emu.load16 (getAddrPtr emu.pc) := rfl
      simp [autoIncII, h, bogusOperand, fetch_emu, hword]
    · simp [autoIncII, h, operandAt, autoIncrement_eq]

/-! ## The block -/

/-- **The operand block changes register cells and host cells only.** -/
theorem operandsII_emu (emu : Emulator) (w : BitVec 16) :
    (operandsII emu w).emu
      = { emu with
          regs := regsII emu w
          bogusReg := bogusII emu w
          residue := fun k => emu.residue (k + 1) } := by
  simp only [operandsII]
  rw [← constantII]
  have hlook (n : Fin 16) : (lookupII emu w).regs n = _ := regs_lookupII emu w n
  rcases asFlag_cases w with h | h | h | h <;>
    simp only [h, registerII_emu, indexedII_emu, indirectII_emu, autoIncII_emu,
      getRegPtr_eq]
  all_goals
    congr 1
    · funext n
      simp only [regsII, unmaskedII, masksOperand, advanceII, extendedII, immediateII,
        autoIncrementsII, h, hlook]
      generalize constantII w = constant
      by_cases hn : n = 0 <;> by_cases hr : lowReg w = 0 <;> cases constant <;>
        simp [hn, hr]
    · simp only [bogusII, immediateII, h]
      cases hc : constantII w <;> simp [extensionII, Emulator.load16, getAddrPtr, Emulator.pc]

/-- The register of an operand in mode 2 or 3 that is no constant is not the status
register. -/
theorem lowReg_ne_two {w : BitVec 16} (hc : constantII w = none) (h : 1 < asFlag w) :
    lowReg w ≠ 2 := by
  intro hs
  simp [constantII, generatedConstant, hs, h] at hc

/-- In every mode but register mode the cell of an operand that is neither a constant nor
an immediate lies in memory. -/
theorem exists_sourceCellII (emu : Emulator) (w : BitVec 16)
    (hc : ¬ ((constantII w).isSome || immediateII w) = true) (h : asFlag w ≠ 0) :
    ∃ a, sourceCellII emu w = getAddrPtr a := by
  rw [sourceCellII, if_neg hc]
  rcases asFlag_cases w with h0 | h1 | h2 | h3
  · exact absurd h0 h
  · simp only [h1]
    split_ifs <;> exact ⟨_, rfl⟩
  · exact ⟨_, by simp only [h2]; rfl⟩
  · exact ⟨_, by simp only [h3]; rfl⟩

/-- **The operand of the block**: `source_address` and `source_value`. -/
theorem operandsII_source (emu : Emulator) (w : BitVec 16) :
    (operandsII emu w).sourceAddress = sourceCellII emu w ∧
      (operandsII emu w).sourceValue = sourceValueII emu w := by
  simp only [operandsII]
  rw [← constantII]
  obtain ⟨e, he⟩ : ∃ e, e = getRegPtr { emu with residue := fun k => emu.residue (k + 1) }
    (lowReg w) := ⟨_, rfl⟩
  have hword (a : BitVec 16) : e.load16 (getAddrPtr a) = emu.load16 (getAddrPtr a) := by
    rw [he, load16_getRegPtr_getAddrPtr]
    rfl
  have hpc : e.pc = emu.pc := by rw [he, pc_getRegPtr]; rfl
  have hregs (n : Fin 16) : e.regs n = (lookupII emu w).regs n := by
    rw [he, regs_lookupII, regs_getRegPtr]
  have hbase (h2 : lowReg w ≠ 2) : e.regs (lowReg w) = emu.regs (lowReg w) := by
    rw [hregs, regs_lookupII_of_ne emu w h2]
  rw [← he]
  cases hc : constantII w with
  | some c =>
    rcases asFlag_cases w with h | h | h | h <;>
      simp [h, hc, sourceCellII, sourceValueII, registerII, indexedII, indirectII, autoIncII,
        bogusOperand]
  | none =>
    have hindirect (h1 : 1 < asFlag w) := hbase (lowReg_ne_two hc h1)
    simp only [sourceCellII, sourceValueII, hc, immediateII, extensionII]
    rcases asFlag_cases w with h | h | h | h <;> simp only [h] at hindirect ⊢
    · simp [registerII, operandAt, Emulator.load16, hregs]
    · by_cases h0 : lowReg w = 0
      · simp [indexedII, fetch, h0, hpc, hword]
      · by_cases h2 : lowReg w = 2
        · simp [indexedII, fetch, operandAt, h2, hpc, hword]
        · simp [indexedII, fetch, operandAt, h0, h2, hpc, hword, hbase h2]
    · simp [indirectII, operandAt, hword, hindirect (by decide)]
    · by_cases h0 : lowReg w = 0
      · simp [autoIncII, bogusOperand, fetch, h0, hpc, hword]
      · simp [autoIncII, operandAt, h0, hword, hindirect (by decide)]

end Msp430
