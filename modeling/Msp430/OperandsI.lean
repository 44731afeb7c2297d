/-
# The Format I operand block in closed form

`operandsI` is eight hand-written branches.  This module says once what they all do:

* `operandsI_emu`: only register cells change, and each cell ends as `regsI` says
  (program counter past the extension words, source auto-incremented, destination
  masked);
* `operandsI_sourceAddr`, `operandsI_sourceValue`: the cell that `source_value` was
  loaded from, and the value;
* `operandsI_destinationAddr`: the destination location.

Everything later that concerns a two-operand instruction starts from these four facts
and never opens a branch again.
-/
import Msp430.FormatI

namespace Msp430

/-! ## What an instruction word asks for -/

/-- The generated constant of a Format I source, if it is one. -/
def constantI (w : BitVec 16) : Option (BitVec 16) :=
  generatedConstant (sourceReg w) (asFlag w)

/-- The source has an extension word: symbolic, absolute, indexed or immediate. -/
def sourceExtended (w : BitVec 16) : Bool :=
  (constantI w).isNone && (asFlag w == 1 || (asFlag w == 3 && sourceReg w == 0))

/-- The source register is auto-incremented. -/
def autoIncrements (w : BitVec 16) : Bool :=
  (constantI w).isNone && asFlag w == 3 && sourceReg w != 0

/-- The destination register is masked to its low byte. -/
def masksDestination (w : BitVec 16) : Bool := bwFlag w == .byte && !adFlag w

/-- How far the source operand moves the program counter. -/
def sourceAdvance (w : BitVec 16) : BitVec 16 := if sourceExtended w then 2 else 0

/-- How far the operand block moves the program counter. -/
def advanceI (w : BitVec 16) : BitVec 16 := sourceAdvance w + if adFlag w then 2 else 0

/-- The step of an auto-increment. -/
def increment : Width → BitVec 16
  | .word => 2
  | .byte => 1

/-- The state once both register pointers have been looked up. -/
def lookupsI (emu : Emulator) (w : BitVec 16) : Emulator :=
  getRegPtr (getRegPtr emu (sourceReg w)) (lowReg w)

/-- A register cell before the byte mask: looked up, advanced, auto-incremented. -/
def unmaskedI (emu : Emulator) (w : BitVec 16) (disassemble : Bool) (n : Fin 16) :
    BitVec 16 :=
  (lookupsI emu w).regs n + (if n = 0 then advanceI w else 0)
    + (if !disassemble && autoIncrements w && n == sourceReg w then increment (bwFlag w)
      else 0)

/-- The register cells after the operand block. -/
def regsI (emu : Emulator) (w : BitVec 16) (disassemble : Bool) (n : Fin 16) : BitVec 16 :=
  if !disassemble && masksDestination w && n == lowReg w then
    unmaskedI emu w disassemble n &&& 0x00FF
  else unmaskedI emu w disassemble n

/-- The word in the extension word of the source. -/
def sourceExtension (emu : Emulator) : BitVec 16 := emu.load16 (getAddrPtr emu.pc)

/-- The word in the extension word of the destination, behind that of the source. -/
def destinationExtension (emu : Emulator) (w : BitVec 16) : BitVec 16 :=
  emu.load16 (getAddrPtr (emu.pc + sourceAdvance w))

/-- The cell that `source_value` is loaded from.  In the symbolic case the branch with
an indexed destination corrects the program counter by two too much. -/
def sourceCellI (emu : Emulator) (w : BitVec 16) : Ptr :=
  match asFlag w with
  | 0 => .reg (sourceReg w)
  | 1 =>
    if sourceReg w = 0 then
      getAddrPtr (emu.pc + sourceExtension emu - if adFlag w then 2 else 0)
    else if sourceReg w = 2 then getAddrPtr (sourceExtension emu)
    else getAddrPtr (emu.regs (sourceReg w) + sourceExtension emu)
  | 2 =>
    getAddrPtr (emu.regs (sourceReg w) + if sourceReg w = 0 ∧ adFlag w then 2 else 0)
  | 3 => getAddrPtr (emu.regs (sourceReg w))

/-- The content of the cell `sourceCellI`, or the generated constant.  A register
source is read after the extension word of the destination, which shows only in the
program counter. -/
def sourceValueI (emu : Emulator) (w : BitVec 16) : BitVec 16 :=
  match constantI w with
  | some c => c
  | none =>
    if asFlag w = 0 then
      (lookupsI emu w).regs (sourceReg w)
        + if sourceReg w = 0 ∧ adFlag w then 2 else 0
    else emu.load16 (sourceCellI emu w)

/-- The destination location. -/
def destinationI (emu : Emulator) (w : BitVec 16) (disassemble : Bool) : Ptr :=
  if adFlag w then
    if lowReg w = 0 then
      getAddrPtr (emu.pc + sourceAdvance w + destinationExtension emu w)
    else if lowReg w = 2 then getAddrPtr (destinationExtension emu w)
    else getAddrPtr (regsI emu w disassemble (lowReg w) + destinationExtension emu w)
  else .reg (lowReg w)

/-- The four source modes. -/
theorem asFlag_cases (w : BitVec 16) :
    asFlag w = 0 ∨ asFlag w = 1 ∨ asFlag w = 2 ∨ asFlag w = 3 := by
  generalize asFlag w = a
  revert a
  decide

/-- `getRegPtr` as one assignment to the register file. -/
theorem getRegPtr_eq (emu : Emulator) (r : Fin 16) :
    getRegPtr emu r
      = { emu with regs := fun n => if r = 2 ∧ n = 2 then srToValue emu.sr else emu.regs n } := by
  unfold getRegPtr
  by_cases h : r = 2
  · simp [h, Emulator.setReg]
  · simp [h]

/-- Looking up the two register pointers touches the status copy only. -/
theorem lookupsI_eq (emu : Emulator) (w : BitVec 16) :
    lookupsI emu w = { emu with regs := (lookupsI emu w).regs } := by
  simp only [lookupsI, getRegPtr_eq]

/-- `fetch` moves the program counter by two and touches nothing else. -/
theorem fetch_emu (emu : Emulator) :
    (fetch emu).2 = { emu with regs := fun n => emu.regs n + if n = 0 then 2 else 0 } := by
  simp only [fetch, Emulator.setReg, Emulator.pc]
  congr 1
  funext n
  by_cases h : n = 0 <;> simp [h]

/-- Reading a constant, a register or an indirect source changes nothing. -/
@[simp] theorem sourceAt_emu (emu : Emulator) (constant : Option (BitVec 16)) (p : Ptr) :
    (sourceAt emu constant p).emu = emu := by
  cases constant <;> rfl

/-- An indexed source consumes one extension word, a constant none. -/
theorem sourceIndexed_emu (emu : Emulator) (constant : Option (BitVec 16)) (source : Fin 16)
    (correction : BitVec 16) :
    (sourceIndexed emu constant source correction).emu
      = { emu with regs := fun n =>
            emu.regs n + if n = 0 ∧ constant.isNone then 2 else 0 } := by
  cases constant with
  | some c => simp [sourceIndexed]
  | none => simp [sourceIndexed, fetch_emu]

/-- Mode 3: an immediate consumes one extension word, an indirect source increments
its register. -/
theorem sourceAutoInc_emu (emu : Emulator) (constant : Option (BitVec 16)) (source : Fin 16)
    (bw : Width) (disassemble : Bool) :
    (sourceAutoInc emu constant source bw disassemble).emu
      = { emu with regs := fun n =>
            emu.regs n + (if n = 0 ∧ constant.isNone ∧ source = 0 then 2 else 0)
              + (if !disassemble && constant.isNone && source != 0 && n == source then
                  increment bw else 0) } := by
  cases constant with
  | some c => simp [sourceAutoInc]
  | none =>
    by_cases h : source = 0
    · subst h
      simp [sourceAutoInc, fetch_emu]
    · cases disassemble
      · cases bw <;> simp [sourceAutoInc, h, autoIncrement, Emulator.setReg, increment] <;>
          (funext n; by_cases hn : n = source <;> simp [hn])
      · simp [sourceAutoInc, h]

/-- A register destination is masked by a byte instruction that executes. -/
theorem destinationRegister_emu (src : SourceI) (destination : Fin 16) (bw : Width)
    (disassemble : Bool) :
    (destinationRegister src destination bw disassemble).emu
      = { src.emu with regs := fun n =>
            if !disassemble && bw == .byte && n == destination then
              src.emu.regs n &&& 0x00FF
            else src.emu.regs n } := by
  cases disassemble <;> cases bw <;>
    simp [destinationRegister, maskByte, Emulator.setReg]
  funext n
  by_cases hn : n = destination <;> simp [hn]

/-- **The operand block changes register cells only**, and each ends as `regsI` says. -/
theorem operandsI_emu (emu : Emulator) (w : BitVec 16) (disassemble : Bool) :
    (operandsI emu w disassemble).emu = { emu with regs := regsI emu w disassemble } := by
  have hlook := lookupsI_eq emu w
  rcases asFlag_cases w with h | h | h | h <;> cases ha : adFlag w <;>
    simp only [operandsI, h, ha, destinationRegister_emu, sourceAt_emu, sourceIndexed_emu,
      sourceAutoInc_emu, fetch_emu]
  all_goals
    rw [← lookupsI, hlook]
    congr 1
    funext n
    simp only [regsI, unmaskedI, masksDestination, advanceI, sourceAdvance, sourceExtended,
      autoIncrements, constantI, h, ha]
    generalize generatedConstant (sourceReg w) _ = constant
    by_cases hn : n = 0 <;> by_cases hs : sourceReg w = 0 <;> cases constant <;>
      simp [hn, hs, BitVec.add_assoc]
  -- the auto-increment stands before the extension word of the destination
  exact BitVec.add_comm _ _

/-! ## The source operand -/

theorem regs_lookupsI (emu : Emulator) (w : BitVec 16) (n : Fin 16) :
    (lookupsI emu w).regs n
      = if (sourceReg w = 2 ∨ lowReg w = 2) ∧ n = 2 then srToValue emu.sr
        else emu.regs n := by
  by_cases hn : n = 2 <;> by_cases hs : sourceReg w = 2 <;> by_cases hd : lowReg w = 2 <;>
    simp [lookupsI, hn, hs, hd]

theorem regs_lookupsI_of_ne (emu : Emulator) (w : BitVec 16) {n : Fin 16} (h : n ≠ 2) :
    (lookupsI emu w).regs n = emu.regs n := by
  rw [regs_lookupsI, if_neg (fun hc => h hc.2)]

@[simp] theorem pc_lookupsI (emu : Emulator) (w : BitVec 16) :
    (lookupsI emu w).pc = emu.pc := by
  simp [lookupsI]

@[simp] theorem load16_lookupsI (emu : Emulator) (w a : BitVec 16) :
    (lookupsI emu w).load16 (getAddrPtr a) = emu.load16 (getAddrPtr a) := by
  simp [lookupsI]

/-- A pointer into memory reads the same from states with the same memory. -/
theorem load16_congr_mem {emu emu' : Emulator} (h : emu'.mem = emu.mem) (a : BitVec 16) :
    emu'.load16 (getAddrPtr a) = emu.load16 (getAddrPtr a) := by
  simp only [getAddrPtr, Emulator.load16, h]

/-- The register of a source in mode 2 or 3 that is no constant is not the status
register. -/
theorem sourceReg_ne_two {w : BitVec 16} (hc : constantI w = none) (h : 1 < asFlag w) :
    sourceReg w ≠ 2 := by
  intro hs
  simp [constantI, generatedConstant, hs, h] at hc

/-- An indexed source that is no constant: one extension word is consumed, and the
value is the word at the address formed. -/
theorem sourceIndexed_none (emu : Emulator) (source : Fin 16) (correction : BitVec 16) :
    ∃ p, p = (if source = 0 then getAddrPtr (emu.pc + 2 + sourceExtension emu - correction)
        else if source = 2 then getAddrPtr (sourceExtension emu)
        else getAddrPtr (emu.regs source + sourceExtension emu)) ∧
      sourceIndexed emu none source correction = ⟨(fetch emu).2, emu.load16 p, some p⟩ := by
  refine ⟨_, rfl, ?_⟩
  by_cases h0 : source = 0
  · simp [sourceIndexed, fetch, sourceExtension, h0]
  · by_cases h2 : source = 2
    · simp [sourceIndexed, fetch, sourceExtension, h2]
    · simp [sourceIndexed, fetch, sourceExtension, h0, h2]

/-- A source in mode 3 that is no constant is the word at its register: an immediate is
the word at the program counter. -/
theorem sourceAutoInc_none (emu : Emulator) (source : Fin 16) (bw : Width)
    (disassemble : Bool) :
    (sourceAutoInc emu none source bw disassemble).addr
        = some (getAddrPtr (emu.regs source)) ∧
      (sourceAutoInc emu none source bw disassemble).value
        = emu.load16 (getAddrPtr (emu.regs source)) := by
  by_cases h0 : source = 0
  · simp [sourceAutoInc, fetch, h0, Emulator.pc]
  · simp [sourceAutoInc, h0]

/-- In every mode but register mode the source cell lies in memory. -/
theorem exists_sourceCellI (emu : Emulator) (w : BitVec 16) (h : asFlag w ≠ 0) :
    ∃ a, sourceCellI emu w = getAddrPtr a := by
  rcases asFlag_cases w with h0 | h1 | h2 | h3
  · exact absurd h0 h
  · simp only [sourceCellI, h1]
    split_ifs <;> exact ⟨_, rfl⟩
  · exact ⟨_, by simp only [sourceCellI, h2]; rfl⟩
  · exact ⟨_, by simp only [sourceCellI, h3]; rfl⟩

/-- The extension word of a symbolic source counts from behind the instruction word; the
correction takes the extension words back, beside an indexed destination once too often. -/
theorem sourceIndexed_lookupsI (emu : Emulator) {w : BitVec 16} (h : asFlag w = 1) :
    sourceIndexed (lookupsI emu w) none (sourceReg w) (if adFlag w then 4 else 2)
      = ⟨(fetch (lookupsI emu w)).2, emu.load16 (sourceCellI emu w),
          some (sourceCellI emu w)⟩ := by
  obtain ⟨p, hp, hsrc⟩ := sourceIndexed_none (lookupsI emu w) (sourceReg w)
    (if adFlag w then 4 else 2)
  have hext : sourceExtension (lookupsI emu w) = sourceExtension emu := by simp [sourceExtension]
  have hoffset : emu.pc + 2 + sourceExtension emu - (if adFlag w then 4 else 2)
      = emu.pc + sourceExtension emu - (if adFlag w then 2 else 0) := by
    split_ifs
    · bv_omega
    · bv_omega
  have hcell : p = sourceCellI emu w := by
    rw [hp, hext, pc_lookupsI, hoffset]
    by_cases h2 : sourceReg w = 2
    · simp [sourceCellI, h, h2]
    · simp [sourceCellI, h, h2, regs_lookupsI_of_ne emu w h2]
  obtain ⟨a, ha⟩ := exists_sourceCellI emu w (by simp [h])
  rw [hsrc, hcell, ha, load16_lookupsI]

/-- The source operand of the block, both locals at once. -/
theorem operandsI_source (emu : Emulator) (w : BitVec 16) (disassemble : Bool) :
    (operandsI emu w disassemble).sourceAddr
        = (if (constantI w).isSome then none else some (sourceCellI emu w)) ∧
      (operandsI emu w disassemble).sourceValue = sourceValueI emu w := by
  simp only [operandsI, sourceValueI]
  rw [← lookupsI, ← constantI]
  cases hc : constantI w with
  | some c =>
    rcases asFlag_cases w with h | h | h | h <;> cases ha : adFlag w <;>
      simp [h, destinationRegister, sourceAt, sourceIndexed, sourceAutoInc]
  | none =>
    have hbase (h2 : sourceReg w ≠ 2) :
        (lookupsI emu w).regs (sourceReg w) = emu.regs (sourceReg w) :=
      regs_lookupsI_of_ne emu w h2
    have hindirect (h1 : 1 < asFlag w) := hbase (sourceReg_ne_two hc h1)
    rcases asFlag_cases w with h | h | h | h <;> cases ha : adFlag w <;>
      simp only [h] at hindirect ⊢
    · simp [destinationRegister, sourceAt, sourceCellI, h, Emulator.load16]
    · by_cases h0 : sourceReg w = 0
      · simp [sourceAt, sourceCellI, h, Emulator.load16, fetch, h0, Emulator.pc]
      · simp [sourceAt, sourceCellI, h, Emulator.load16, fetch, h0]
    · have hsrc := sourceIndexed_lookupsI emu h
      rw [ha, if_neg (by decide)] at hsrc
      rw [destinationRegister, hsrc]
      simp
    · have hsrc := sourceIndexed_lookupsI emu h
      rw [ha, if_pos rfl] at hsrc
      rw [hsrc]
      simp
    · simp [destinationRegister, sourceAt, sourceCellI, h, ha, hindirect (by decide)]
    · by_cases h0 : sourceReg w = 0
      · simp [sourceAt, sourceCellI, h, ha, fetch, h0, show emu.regs 0 = emu.pc from rfl]
      · simp [sourceAt, sourceCellI, h, fetch, h0, hindirect (by decide)]
    · simp [destinationRegister, sourceAutoInc_none, sourceCellI, h, hindirect (by decide)]
    · simp [sourceAutoInc_none, sourceCellI, h, hindirect (by decide)]

/-- **The cell that `source_value` comes from.** -/
theorem operandsI_sourceAddr (emu : Emulator) (w : BitVec 16) (disassemble : Bool) :
    (operandsI emu w disassemble).sourceAddr
      = if (constantI w).isSome then none else some (sourceCellI emu w) :=
  (operandsI_source emu w disassemble).1

/-- **The value of `source_value`.** -/
theorem operandsI_sourceValue (emu : Emulator) (w : BitVec 16) (disassemble : Bool) :
    (operandsI emu w disassemble).sourceValue = sourceValueI emu w :=
  (operandsI_source emu w disassemble).2

/-! ## The destination -/

/-- An indexed destination is formed in the state with which the block ends, from the
extension word behind that of the source. -/
theorem operandsI_destinationIndexed (emu : Emulator) (w : BitVec 16)
    (disassemble : Bool) (ha : adFlag w = true) :
    (operandsI emu w disassemble).destinationAddr
      = destinationIndexed (operandsI emu w disassemble).emu (lowReg w)
          (destinationExtension emu w) := by
  simp only [operandsI, destinationExtension, sourceAdvance, sourceExtended]
  rw [← lookupsI, ← constantI]
  -- in each branch the offset is the word at the program counter of its state
  have hword (emu' : Emulator) (hmem : emu'.mem = (lookupsI emu w).mem) (a : BitVec 16)
      (hpc : emu'.pc = a) : (fetch emu').1 = emu.load16 (getAddrPtr a) := by
    rw [fetch, hpc, load16_congr_mem hmem, load16_lookupsI]
  have hpc : (lookupsI emu w).regs 0 = emu.pc := pc_lookupsI emu w
  rcases asFlag_cases w with h | h | h | h <;> simp only [h, ha]
  · simp [hword _ rfl _ (pc_lookupsI emu w)]
  · congr 1
    apply hword
    · simp [sourceIndexed_emu]
    · simp [sourceIndexed_emu, Emulator.pc, hpc]
  · simp [hword _ rfl _ (pc_lookupsI emu w)]
  · congr 1
    apply hword
    · simp [sourceAutoInc_emu]
    · by_cases h0 : sourceReg w = 0
      · simp [sourceAutoInc_emu, Emulator.pc, hpc, h0]
      · simp [sourceAutoInc_emu, Emulator.pc, hpc, h0, Ne.symm h0]

/-- The program counter with which the block ends: an auto-increment never moves it,
and only a byte instruction with register destination masks it. -/
theorem regsI_zero (emu : Emulator) (w : BitVec 16) (disassemble : Bool)
    (ha : adFlag w = true) :
    regsI emu w disassemble 0 = emu.pc + sourceAdvance w + 2 := by
  have hpc : (lookupsI emu w).regs 0 = emu.pc := pc_lookupsI emu w
  have hinc : (autoIncrements w && (0 : Fin 16) == sourceReg w) = false := by
    by_cases h0 : sourceReg w = 0
    · simp [autoIncrements, h0]
    · simp [Ne.symm h0]
  simp [regsI, unmaskedI, masksDestination, ha, hpc, advanceI, Bool.and_assoc, hinc,
    BitVec.add_assoc]

/-- **The destination location.** -/
theorem operandsI_destinationAddr (emu : Emulator) (w : BitVec 16) (disassemble : Bool) :
    (operandsI emu w disassemble).destinationAddr = destinationI emu w disassemble := by
  cases ha : adFlag w with
  | false =>
    rcases asFlag_cases w with h | h | h | h <;>
      simp [operandsI, destinationI, h, ha, destinationRegister]
  | true =>
    rw [operandsI_destinationIndexed emu w disassemble ha, operandsI_emu]
    simp only [destinationIndexed, destinationI, ha, if_true]
    by_cases h0 : lowReg w = 0
    · rw [if_pos h0, if_pos h0, Emulator.pc]
      simp only [regsI_zero emu w disassemble ha]
      congr 1
      bv_omega
    · rw [if_neg h0, if_neg h0]

/-- The destination is a register cell in register mode only. -/
theorem destinationI_eq_reg (emu : Emulator) (w : BitVec 16) (disassemble : Bool)
    (n : Fin 16) :
    destinationI emu w disassemble = .reg n ↔ adFlag w = false ∧ lowReg w = n := by
  unfold destinationI
  cases ha : adFlag w with
  | false => simp
  | true =>
    rw [if_pos rfl]
    split_ifs <;> simp [getAddrPtr]

end Msp430
