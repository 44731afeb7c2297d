/-
# States that agree

Two states agree when registers, status register and memory are the same, whatever the copy
of the status word, `bogus_reg`, the locals of the decoders, the flags of the debugger and the
peripherals hold.  An instruction refreshes the copy before it uses it and assigns to
`bogus_reg` before it reads there, so that decoding keeps the agreement.  The exception is PUSH
with a symbolic operand, which stores an unassigned local.
-/
import Msp430.ReadOnly
import Msp430.Run
import Msp430.Shifts
import Msp430.Symbolic

namespace Msp430

/-! ## Agreement -/

/-- The registers, the status register and the memory are the same.  Cell 2 is the copy of the
status word and no register. -/
structure Agree (emu emu' : Emulator) : Prop where
  regs : ∀ n, n ≠ 2 → emu'.regs n = emu.regs n
  sr : emu'.sr = emu.sr
  mem : emu'.mem = emu.mem

namespace Agree

variable {emu emu' : Emulator}

theorem pc (h : Agree emu emu') : emu'.pc = emu.pc := h.regs 0 (by decide)

theorem sp (h : Agree emu emu') : emu'.sp = emu.sp := h.regs 1 (by decide)

theorem load16_mem (h : Agree emu emu') (a : ℕ) :
    emu'.load16 (.mem a) = emu.load16 (.mem a) := by
  simp only [Emulator.load16, h.mem]

theorem load8_mem (h : Agree emu emu') (a : ℕ) :
    emu'.load8 (.mem a) = emu.load8 (.mem a) := by
  simp only [Emulator.load8, h.mem]

theorem load16 (h : Agree emu emu') (a : BitVec 16) :
    emu'.load16 (getAddrPtr a) = emu.load16 (getAddrPtr a) := h.load16_mem a.toNat

theorem setReg (h : Agree emu emu') (n : Fin 16) (v : BitVec 16) :
    Agree (emu.setReg n v) (emu'.setReg n v) := by
  refine { h with regs := ?_ }
  intro m hm
  rw [Emulator.regs_setReg, Emulator.regs_setReg, h.regs m hm]

theorem setByte (h : Agree emu emu') (a : ℕ) (b : BitVec 8) :
    Agree (emu.setByte a b) (emu'.setByte a b) := by
  refine { h with mem := ?_ }
  simp only [Emulator.setByte, h.mem]

theorem with_sr (h : Agree emu emu') (sr : StatusReg) :
    Agree { emu with sr := sr } { emu' with sr := sr } := { h with sr := rfl }

theorem store16 (h : Agree emu emu') (p : Ptr) (v : BitVec 16) :
    Agree (emu.store16 p v) (emu'.store16 p v) := by
  cases p with
  | reg n => exact h.setReg n v
  | mem a => exact (h.setByte a _).setByte (a + 1) _
  | bogus => exact { h with }

theorem store8 (h : Agree emu emu') (p : Ptr) (b : BitVec 8) :
    Agree (emu.store8 p b) (emu'.store8 p b) := by
  cases p with
  | reg n =>
    refine { h with regs := ?_ }
    intro m hm
    rw [Emulator.regs_store8, Emulator.regs_store8, h.regs m hm]
  | mem a => exact h.setByte a b
  | bogus => exact { h with }

/-- Agreeing states fetch the same instruction. -/
theorem fetch_fst (h : Agree emu emu') : (fetch emu').1 = (fetch emu).1 := by
  rw [fetch, fetch, h.pc, h.load16]

theorem fetch_snd (h : Agree emu emu') : Agree (fetch emu).2 (fetch emu').2 := by
  rw [fetch, fetch, h.pc]
  exact h.setReg 0 _

end Agree

/-! ## Format I -/

section FormatI

variable {emu emu' : Emulator}

/-- The register cells once looked up: the copy of the status word too, when it is. -/
theorem Agree.lookupsI (h : Agree emu emu') (w : BitVec 16) {n : Fin 16}
    (hn : n ≠ 2 ∨ sourceReg w = 2 ∨ lowReg w = 2) :
    (lookupsI emu' w).regs n = (lookupsI emu w).regs n := by
  rw [regs_lookupsI, regs_lookupsI, h.sr]
  by_cases h2 : n = 2
  · have hl : sourceReg w = 2 ∨ lowReg w = 2 := hn.resolve_left fun hne => hne h2
    rw [if_pos ⟨hl, h2⟩, if_pos ⟨hl, h2⟩]
  · rw [h.regs n h2]

theorem Agree.regsI (h : Agree emu emu') (w : BitVec 16) (disassemble : Bool) {n : Fin 16}
    (hn : n ≠ 2 ∨ sourceReg w = 2 ∨ lowReg w = 2) :
    regsI emu' w disassemble n = regsI emu w disassemble n := by
  simp only [Msp430.regsI, unmaskedI, h.lookupsI w hn]

theorem Agree.sourceCellI (h : Agree emu emu') {w : BitVec 16} (hc : constantI w = none) :
    sourceCellI emu' w = sourceCellI emu w := by
  have hext : sourceExtension emu' = sourceExtension emu := by
    rw [sourceExtension, sourceExtension, h.pc, h.load16]
  simp only [Msp430.sourceCellI, hext, h.pc]
  -- register 2 is the base in mode 1 only, where it stands for zero
  rcases asFlag_cases w with ha | ha | ha | ha <;> simp only [ha]
  · by_cases h2 : sourceReg w = 2
    · simp [h2]
    · rw [h.regs _ h2]
  · rw [h.regs _ (sourceReg_ne_two hc (by rw [ha]; decide))]
  · rw [h.regs _ (sourceReg_ne_two hc (by rw [ha]; decide))]

theorem Agree.sourceValueI (h : Agree emu emu') (w : BitVec 16) :
    sourceValueI emu' w = sourceValueI emu w := by
  unfold Msp430.sourceValueI
  cases hc : constantI w with
  | some c => rfl
  | none =>
    by_cases ha : asFlag w = 0
    · have hn : sourceReg w ≠ 2 ∨ sourceReg w = 2 ∨ lowReg w = 2 := by tauto
      simp only [ha, if_true, h.lookupsI w hn]
    · obtain ⟨a, hcell⟩ := exists_sourceCellI emu w ha
      simp only [ha, if_false, h.sourceCellI hc, hcell, h.load16]

theorem Agree.destinationI (h : Agree emu emu') (w : BitVec 16) :
    destinationI emu' w false = destinationI emu w false := by
  have hext : destinationExtension emu' w = destinationExtension emu w := by
    rw [destinationExtension, destinationExtension, h.pc, h.load16]
  rw [Msp430.destinationI, Msp430.destinationI, hext, h.pc]
  by_cases h2 : lowReg w = 2
  · simp [h2]
  · rw [h.regsI w false (Or.inl h2)]

/-- A destination reads the same after the operand block. -/
theorem Agree.load16_destinationI (h : Agree emu emu') (w : BitVec 16) :
    { emu' with regs := Msp430.regsI emu' w false }.load16 (Msp430.destinationI emu w false)
      = { emu with regs := Msp430.regsI emu w false }.load16
          (Msp430.destinationI emu w false) := by
  unfold Msp430.destinationI
  split_ifs with ha h0 h2
  · exact h.load16 _
  · exact h.load16 _
  · exact h.load16 _
  · have hn : lowReg w ≠ 2 ∨ sourceReg w = 2 ∨ lowReg w = 2 := by tauto
    exact h.regsI w false hn

/-- The flags after the execution of an opcode depend on its operands only. -/
theorem Agree.sr_executeI (h : Agree emu emu') (opcode : Fin 16) (bw : Width) (s : BitVec 16)
    (p : Ptr) (hp : emu'.load16 p = emu.load16 p) :
    (executeI emu' opcode bw s p).sr = (executeI emu opcode bw s p).sr := by
  by_cases hw : Writes opcode
  · have hresult : (executeI emu' opcode bw s p).load16 p
        = (executeI emu opcode bw s p).load16 p := by
      rw [load16_executeI emu opcode bw s p hw, load16_executeI emu' opcode bw s p hw, hp,
        h.sr]
    rw [sr_executeI_eq emu opcode bw s p hw, sr_executeI_eq emu' opcode bw s p hw, hresult,
      hp, h.sr]
  · by_cases hc : opcode = 0x9 ∨ opcode = 0xB
    · rcases hc with rfl | rfl
      · simp only [executeI, execCmp, Emulator.load8_eq, hp, h.sr]
      · cases bw <;> simp only [executeI, execBit, Emulator.load8_eq, hp, h.sr]
    · rw [executeI_of_not _ _ _ _ _ hw hc, executeI_of_not _ _ _ _ _ hw hc, h.sr]

theorem Agree.storeResult (h : Agree emu emu') (opcode : Fin 16) (bw : Width)
    (s : BitVec 16) (p : Ptr) (hp : emu'.load16 p = emu.load16 p) :
    Agree (storeResult emu opcode bw s p) (storeResult emu' opcode bw s p) := by
  cases bw with
  | word =>
    simp only [Msp430.storeResult, hp, h.sr]
    exact h.store16 p _
  | byte =>
    simp only [Msp430.storeResult, Emulator.load8_eq, hp, h.sr]
    exact h.store8 p _

/-- **The execution of a Format I opcode keeps agreeing states in agreement.** -/
theorem Agree.executeI (h : Agree emu emu') (opcode : Fin 16) (bw : Width) (s : BitVec 16)
    (p : Ptr) (hp : emu'.load16 p = emu.load16 p) :
    Agree (executeI emu opcode bw s p) (executeI emu' opcode bw s p) := by
  have hsr := h.sr_executeI opcode bw s p hp
  by_cases hw : Writes opcode
  · rw [executeI_eq_storeResult emu opcode bw s p hw,
      executeI_eq_storeResult emu' opcode bw s p hw, hsr]
    exact (h.storeResult opcode bw s p hp).with_sr _
  · by_cases hc : opcode = 0x9 ∨ opcode = 0xB
    · rw [executeI_compares emu opcode bw s p hc, executeI_compares emu' opcode bw s p hc,
        hsr]
      exact h.with_sr _
    · rw [executeI_of_not _ _ _ _ _ hw hc, executeI_of_not _ _ _ _ _ hw hc]
      exact h

/-- A Format I instruction, executed or listed, keeps agreeing states in agreement. -/
theorem Agree.decodeFormatI (h : Agree emu emu') (w : BitVec 16) (disassemble : Bool) :
    Agree (decodeFormatI emu w disassemble) (decodeFormatI emu' w disassemble) := by
  have hblock : Agree { emu with regs := Msp430.regsI emu w disassemble }
      { emu' with regs := Msp430.regsI emu' w disassemble } :=
    { h with regs := fun n hn => h.regsI w disassemble (Or.inl hn) }
  cases disassemble with
  | true =>
    simp only [Msp430.decodeFormatI, if_true, operandsI_emu]
    exact hblock
  | false =>
    simp only [Msp430.decodeFormatI, Bool.false_eq_true, if_false, operandsI_emu,
      operandsI_sourceValue, operandsI_destinationAddr, h.sourceValueI, h.destinationI]
    exact hblock.executeI _ _ _ _ (h.load16_destinationI w)

end FormatI

/-! ## Format II -/

section FormatII

variable {emu emu' : Emulator}

theorem Agree.lookupII (h : Agree emu emu') (w : BitVec 16) {n : Fin 16}
    (hn : n ≠ 2 ∨ lowReg w = 2) : (lookupII emu' w).regs n = (lookupII emu w).regs n := by
  rw [regs_lookupII, regs_lookupII, h.sr]
  by_cases h2 : n = 2
  · have hl : lowReg w = 2 := hn.resolve_left fun hne => hne h2
    rw [if_pos ⟨hl, h2⟩, if_pos ⟨hl, h2⟩]
  · rw [h.regs n h2]

theorem Agree.regsII (h : Agree emu emu') (w : BitVec 16) {n : Fin 16}
    (hn : n ≠ 2 ∨ lowReg w = 2) : regsII emu' w n = regsII emu w n := by
  simp only [Msp430.regsII, unmaskedII, h.lookupII w hn]

theorem Agree.extensionII (h : Agree emu emu') : extensionII emu' = extensionII emu := by
  rw [Msp430.extensionII, Msp430.extensionII, h.pc, h.load16]

theorem Agree.sourceCellII (h : Agree emu emu') (w : BitVec 16) :
    sourceCellII emu' w = sourceCellII emu w := by
  rw [Msp430.sourceCellII, Msp430.sourceCellII, h.extensionII, h.pc]
  by_cases hc : ((constantII w).isSome || immediateII w) = true
  · rw [if_pos hc, if_pos hc]
  · rw [if_neg hc, if_neg hc]
    have hnone := constantII_eq_none hc
    rcases asFlag_cases w with ha | ha | ha | ha <;> simp only [ha]
    · by_cases h2 : lowReg w = 2
      · simp [h2]
      · rw [h.regs _ h2]
    · rw [h.regs _ (lowReg_ne_two hnone (by rw [ha]; decide))]
    · rw [h.regs _ (lowReg_ne_two hnone (by rw [ha]; decide))]

/-- The value of an operand, if it is assigned at all or the local holds the same. -/
theorem Agree.sourceValueII (h : Agree emu emu') {w : BitVec 16}
    (hs : SymbolicOperand w → emu'.residue 0 = emu.residue 0) :
    sourceValueII emu' w = sourceValueII emu w := by
  rw [Msp430.sourceValueII, Msp430.sourceValueII, h.extensionII]
  cases hc : constantII w with
  | some c => rfl
  | none =>
    by_cases himm : immediateII w = true
    · simp only [if_pos himm]
    · by_cases ha : asFlag w = 0
      · have hn : lowReg w ≠ 2 ∨ lowReg w = 2 := by tauto
        simp only [ha, if_true, h.lookupII w hn]
      · obtain ⟨a, hcell⟩ := exists_sourceCellII emu w (by simp [hc, himm]) ha
        by_cases hsym : asFlag w = 1 ∧ lowReg w = 0
        · simp only [if_neg himm, if_neg ha, if_pos hsym]
          exact hs hsym
        · simp only [if_neg himm, if_neg ha, if_neg hsym, h.sourceCellII, hcell, h.load16]

/-- The states after the operand block. -/
theorem Agree.operandsII (h : Agree emu emu') (w : BitVec 16) :
    Agree (operandsII emu w).emu (operandsII emu' w).emu := by
  rw [operandsII_emu, operandsII_emu]
  exact { h with regs := fun n hn => h.regsII w (Or.inl hn) }

/-- The operand cell reads the same after the operand block. -/
theorem Agree.load16_sourceCellII (h : Agree emu emu') (w : BitVec 16) :
    (Msp430.operandsII emu' w).emu.load16 (Msp430.sourceCellII emu w)
      = (Msp430.operandsII emu w).emu.load16 (Msp430.sourceCellII emu w) := by
  have hblock := h.operandsII w
  by_cases hc : ((constantII w).isSome || immediateII w) = true
  · -- `bogus_reg` has just been assigned
    have hcell : Msp430.sourceCellII emu w = .bogus := by
      rw [Msp430.sourceCellII, if_pos hc]
    rw [hcell, operandsII_emu, operandsII_emu]
    show bogusII emu' w = bogusII emu w
    rw [bogusII, bogusII, h.extensionII]
    cases hcon : constantII w with
    | some c => rfl
    | none =>
      have himm : immediateII w = true := by simpa [hcon] using hc
      simp only [if_pos himm]
  · by_cases ha : asFlag w = 0
    · have hcell : Msp430.sourceCellII emu w = .reg (lowReg w) := by
        simp only [Msp430.sourceCellII, if_neg hc, ha]
      have hn : lowReg w ≠ 2 ∨ lowReg w = 2 := by tauto
      rw [hcell, operandsII_emu, operandsII_emu]
      exact h.regsII w hn
    · obtain ⟨a, hcell⟩ := exists_sourceCellII emu w hc ha
      rw [hcell]
      exact hblock.load16 a

/-- A cell reads the same behind a register assignment. -/
theorem Agree.load16_setReg (h : Agree emu emu') {p : Ptr} (hp : emu'.load16 p = emu.load16 p)
    (n : Fin 16) (v : BitVec 16) : (emu'.setReg n v).load16 p = (emu.setReg n v).load16 p := by
  cases p with
  | reg m =>
    show (emu'.setReg n v).regs m = (emu.setReg n v).regs m
    rw [Emulator.regs_setReg, Emulator.regs_setReg, show emu'.regs m = emu.regs m from hp]
  | mem a =>
    simp only [Emulator.load16, Emulator.mem_setReg, h.mem]
  | bogus => exact hp

/-- A cell reads the same behind a store to memory. -/
theorem Agree.load16_store16 (h : Agree emu emu') {p : Ptr}
    (hp : emu'.load16 p = emu.load16 p) (a : BitVec 16) (v : BitVec 16) :
    (emu'.store16 (getAddrPtr a) v).load16 p = (emu.store16 (getAddrPtr a) v).load16 p := by
  cases p with
  | reg m => exact hp
  | mem b => simp only [Emulator.load16, (h.store16 (getAddrPtr a) v).mem]
  | bogus => exact hp

theorem Agree.execPush (h : Agree emu emu') (bw : Width) (v : BitVec 16) :
    Agree (execPush emu bw v) (execPush emu' bw v) := by
  rw [execPush_eq, execPush_eq, h.sp]
  cases bw with
  | word => exact (h.setReg 1 _).store16 _ _
  | byte => exact (h.setReg 1 _).store8 _ _

theorem Agree.execCall (h : Agree emu emu') (p : Ptr) (hp : emu'.load16 p = emu.load16 p) :
    Agree (execCall emu p) (execCall emu' p) := by
  have hset := h.setReg 1 (emu.sp - 2)
  have hload := hset.load16_store16 (h.load16_setReg hp 1 (emu.sp - 2))
    (emu.sp - 2) emu.pc
  rw [execCall_eq, execCall_eq, h.sp, h.pc]
  simp only [hload]
  exact (hset.store16 _ _).setReg 0 _

/-- **The execution of a Format II opcode keeps agreeing states in agreement.** -/
theorem Agree.executeII (h : Agree emu emu') (opcode : Fin 8) (bw : Width)
    {v v' : BitVec 16} (p : Ptr) (hp : emu'.load16 p = emu.load16 p)
    (hv : opcode = 4 → v' = v) :
    Agree (executeII emu opcode bw v p) (executeII emu' opcode bw v' p) := by
  fin_cases opcode
  · show Agree (execRrc emu bw p) (execRrc emu' bw p)
    rw [execRrc_eq, execRrc_eq, h.sr, hp]
    exact (h.store16 p _).with_sr _
  · show Agree (execSwpb emu p) (execSwpb emu' p)
    rw [execSwpb_eq, execSwpb_eq, hp]
    exact h.store16 p _
  · show Agree (execRra emu bw p) (execRra emu' bw p)
    rw [execRra_eq, execRra_eq, h.sr, hp]
    exact (h.store16 p _).with_sr _
  · show Agree (execSxt emu p) (execSxt emu' p)
    rw [execSxt_eq, execSxt_eq, h.sr, hp]
    exact (h.store16 p _).with_sr _
  · show Agree (Msp430.execPush emu bw v) (Msp430.execPush emu' bw v')
    rw [hv rfl]
    exact h.execPush bw v
  · exact h.execCall p hp
  · exact h
  · exact h

/-- PUSH with a symbolic operand, which stores an unassigned local. -/
def PushesSymbolic (w : BitVec 16) : Prop := Pushes w ∧ SymbolicOperand w

/-- A Format II instruction, executed or listed, keeps agreeing states in agreement. -/
theorem Agree.decodeFormatII (h : Agree emu emu') {w : BitVec 16} (hf : formatId w = 1)
    (disassemble : Bool) (hw : PushesSymbolic w → emu'.residue 0 = emu.residue 0) :
    Agree (decodeFormatII emu w disassemble) (decodeFormatII emu' w disassemble) := by
  cases disassemble with
  | true =>
    simp only [Msp430.decodeFormatII, if_true]
    exact h.operandsII w
  | false =>
    simp only [Msp430.decodeFormatII, Bool.false_eq_true, if_false, (operandsII_source _ w).1,
      (operandsII_source _ w).2, h.sourceCellII]
    refine (h.operandsII w).executeII _ _ _ (h.load16_sourceCellII w) fun h4 => ?_
    exact h.sourceValueII fun hs => hw ⟨⟨hf, h4⟩, hs⟩

end FormatII

/-! ## Decoding -/

section Decoding

variable {emu emu' : Emulator}

/-- **Decoding keeps agreeing states in agreement**, unless a PUSH stores an unassigned local
that is not the same. -/
theorem Agree.decode (h : Agree emu emu') (w : BitVec 16) (disassemble : Bool)
    (hw : PushesSymbolic w → emu'.residue 0 = emu.residue 0) :
    Agree (decode emu w disassemble) (decode emu' w disassemble) := by
  rcases formatId_cases w with h0 | h1 | h3 | h4
  · rw [decode_invalid _ _ _ h0, decode_invalid _ _ _ h0]
    exact { h with }
  · rw [decode_formatII _ _ _ h1, decode_formatII _ _ _ h1]
    exact h.decodeFormatII h1 disassemble hw
  · rw [decode_formatIII _ _ _ h3, decode_formatIII _ _ _ h3]
    simp only [decodeFormatIII, jump, h.sr, h.pc]
    split_ifs
    · exact h
    · exact h.setReg 0 _
    · exact h
  · rw [decode_formatI _ _ _ h4, decode_formatI _ _ _ h4]
    exact h.decodeFormatI w disassemble

/-- **So does an instruction.** -/
theorem Agree.cpuStep (h : Agree emu emu')
    (hw : PushesSymbolic (fetch emu).1 → emu'.residue 0 = emu.residue 0) :
    Agree (cpuStep emu) (cpuStep emu') := by
  rw [Msp430.cpuStep, Msp430.cpuStep, h.fetch_fst]
  exact h.fetch_snd.decode _ false hw

end Decoding

end Msp430
