/-
# Words that are no documented instruction

`decode` stops the CPU at a word whose top four bits are zero.  The other undocumented words,
those of Format II with a bit set above the opcode or with opcode 7, are not rejected: the
mask of the opcode drops the two bits, and the default of the execute switch is reached after
the operand block.  `rejected_iff` says exactly where that makes no difference.
-/
import Msp430.Lengths
import Msp430.Modes
import Msp430.ShiftOperands

namespace Msp430

/-! ## What should happen to an undocumented word -/

/-- A word of no documented format: no format at all, or a Format II word that does not fit
`[0001][00CC][CBAA][SSSS]` or has the opcode 7. -/
def Undocumented (w : BitVec 16) : Prop :=
  formatId w = 0 ∨ (formatId w = 1 ∧ (w.extractLsb' 10 2 ≠ 0 ∨ opcodeII w = 7))

instance (w : BitVec 16) : Decidable (Undocumented w) := inferInstanceAs (Decidable (_ ∨ _))

/-- Executing the word, once it is fetched, stops the CPU and changes nothing else. -/
def Rejected (emu : Emulator) (w : BitVec 16) : Prop :=
  SameMachine (fetch emu).2 (decode (fetch emu).2 w false) ∧
    (decode (fetch emu).2 w false).modes = halted

/-! ## Words without effect -/

/-- The byte mask takes nothing from the operand register. -/
def MaskIdle (emu : Emulator) (w : BitVec 16) : Prop :=
  masksOperand w = true → lowReg w ≠ 2 → highByte (emu.regs (lowReg w)) = 0

/-- The cell of the operand keeps its word under the shift. -/
def CellFixed (emu : Emulator) (w : BitVec 16) : Prop :=
  match sourceCellII emu w with
  | .reg n => n ≠ 2 → FixedBy (opcodeII w) (bwFlag w) emu.sr.carry (emu.regs n) ∧
      (bwFlag w = .byte → opcodeII w ≠ 3 → highByte (emu.regs n) = 0)
  | .mem a => FixedBy (opcodeII w) (bwFlag w) emu.sr.carry (emu.load16 (.mem a))
  | .bogus => MaskIdle emu w

/-- The operand that a shift reads. -/
def shiftOperand (emu : Emulator) (w : BitVec 16) : BitVec 16 :=
  (operandsII emu w).emu.load16 (sourceCellII emu w)

/-- A shift that keeps its operand, whose flags are set already. -/
def ShiftIdle (emu : Emulator) (w : BitVec 16) : Prop :=
  CellFixed emu w ∧ FlagsSet (opcodeII w) (bwFlag w) emu.sr (shiftOperand emu w)

/-- `PUSH @SP+`, which puts back what it has popped, or `CALL @SP+` to the word behind it. -/
def StackIdle (emu : Emulator) (w : BitVec 16) : Prop :=
  (bwFlag w = .word ∧ asFlag w = 3 ∧ lowReg w = 1) ∧
    (opcodeII w = 5 → emu.load16 (getStackPtr emu) = emu.pc)

/-- A Format II word whose execution leaves the machine as it is, the program counter being
past the word. -/
def Idle (emu : Emulator) (w : BitVec 16) : Prop :=
  if opcodeII w = 4 ∨ opcodeII w = 5 then StackIdle emu w
  else extendedII w = false ∧ autoIncrementsII w = false ∧
    if opcodeII w ≤ 3 then ShiftIdle emu w else MaskIdle emu w

/-- A register after an operand block without extension word. -/
theorem regsII_eq_blockReg_of_not_extended (emu : Emulator) {w : BitVec 16}
    (h : extendedII w = false) {n : Fin 16} (h2 : n ≠ 2) :
    regsII emu w n = blockReg w n (emu.regs n) := by
  by_cases h0 : n = 0
  · have hinc : ¬ (autoIncrementsII w = true ∧ 0 = lowReg w) := by
      rintro ⟨hinc, hl⟩
      simp [autoIncrementsII, ← hl] at hinc
    have hpc : emu.pc + advanceII w = emu.regs 0 := by simp [advanceII, h, Emulator.pc]
    rw [h0, regsII_pc, hpc, blockReg, if_neg hinc]
    simp only [@eq_comm _ (0 : Fin 16)]
  · exact regsII_eq_blockReg emu w h0 h2

/-- **The operand block leaves the registers exactly when** it takes no extension word,
increments nothing and masks nothing away. -/
theorem block_iff (emu : Emulator) (w : BitVec 16) :
    (∀ n, n ≠ 2 → regsII emu w n = emu.regs n)
      ↔ extendedII w = false ∧ autoIncrementsII w = false ∧ MaskIdle emu w := by
  by_cases hext : extendedII w = true
  · have hmask : ¬ (masksOperand w = true ∧ lowReg w = 0) := by
      rintro ⟨hm, -⟩
      simp only [masksOperand, Bool.and_eq_true, beq_iff_eq] at hm
      simp [extendedII, immediateII, hm.2] at hext
    refine iff_of_false (fun h => ?_) (fun h => by simp [hext] at h)
    have hpc := h 0 (by decide)
    rw [regsII_pc, if_neg hmask, advanceII, if_pos hext, show emu.regs 0 = emu.pc from rfl] at hpc
    bv_omega
  · have hext : extendedII w = false := by simpa using hext
    have hreg {n : Fin 16} (h2 : n ≠ 2) := regsII_eq_blockReg_of_not_extended emu hext h2
    constructor
    · intro h
      have hinc : autoIncrementsII w = false := by
        by_contra hinc
        have hinc : autoIncrementsII w = true := by simpa using hinc
        have hcond := hinc
        simp only [autoIncrementsII, Bool.and_eq_true, Option.isNone_iff_eq_none, beq_iff_eq]
          at hcond
        have h2 := lowReg_ne_two hcond.1.1 (by rw [hcond.1.2]; decide)
        have hm : ¬ (masksOperand w = true ∧ lowReg w = lowReg w) := fun hc =>
          not_autoIncrementsII_of_masksOperand hc.1 hinc
        have hv := h _ h2
        rw [hreg h2, blockReg, if_neg hm, if_pos ⟨hinc, rfl⟩] at hv
        cases hbw : bwFlag w <;> rw [hbw, increment] at hv <;> bv_omega
      refine ⟨hext, hinc, fun hm h2 => ?_⟩
      have hv := h _ h2
      rw [hreg h2, blockReg, if_pos ⟨hm, rfl⟩] at hv
      exact (mask_eq_self_iff _).mp hv
    · rintro ⟨-, hinc, hidle⟩ n h2
      rw [hreg h2, blockReg]
      split_ifs with hm hc
      · rw [hm.2] at h2 ⊢
        exact (mask_eq_self_iff _).mpr (hidle hm.1 h2)
      · exact absurd hc.1 (by simp [hinc])
      · rfl

/-- A word store leaves the memory exactly when the word is there already. -/
theorem mem_store16_eq_iff (emu : Emulator) (a : ℕ) (v : BitVec 16) :
    (emu.store16 (.mem a) v).mem = emu.mem ↔ emu.load16 (.mem a) = v := by
  have hload (e : Emulator) (h : e.mem = emu.mem) : e.load16 (.mem a) = emu.load16 (.mem a) := by
    simp only [Emulator.load16, h]
  constructor
  · intro h
    rw [← hload _ h, Emulator.load16_store16]
  · rintro rfl
    funext b
    by_cases hb : Touches (.mem a) .word b
    · rcases hb with rfl | rfl
      · simp [Emulator.store16, Emulator.setByte, Emulator.load16]
      · simp [Emulator.store16, Emulator.setByte, Emulator.load16]
    · exact Emulator.mem_store16 _ _ _ _ hb

/-! ## PUSH and CALL -/

/-- The stack pointer comes back for the word form of `@SP+` alone. -/
theorem push_sp_iff (w v : BitVec 16) :
    blockReg w 1 v - 2 = v ↔ bwFlag w = .word ∧ asFlag w = 3 ∧ lowReg w = 1 := by
  have htwo : v - 2 ≠ v := by bv_omega
  by_cases hl : lowReg w = 1
  · rw [blockReg_sp hl]
    rcases asFlag_cases w with h | h | h | h <;> cases hbw : bwFlag w <;>
      simp [h, hl, increment]
    · exact mask_sub_two_ne v
    · bv_omega
  · rw [blockReg_of_ne hl]
    exact iff_of_false htwo (fun hc => hl hc.2.2)

section StackPointer

variable {w : BitVec 16} (h : bwFlag w = .word ∧ asFlag w = 3 ∧ lowReg w = 1) (emu : Emulator)

include h

/-- The operand block of `@SP+`. -/
theorem regsII_stackPointer {n : Fin 16} (h2 : n ≠ 2) :
    regsII emu w n = if n = 1 then emu.sp + 2 else emu.regs n := by
  obtain ⟨hbw, ha, hl⟩ := h
  have hext : extendedII w = false := by simp [extendedII, immediateII, ha, hl]
  have hm : masksOperand w = false := by simp [masksOperand, hbw]
  have hinc : autoIncrementsII w = true := by
    simp [autoIncrementsII, constantII, generatedConstant, ha, hl]
  rw [regsII_eq_blockReg_of_not_extended emu hext h2, blockReg, hm, hinc, hl, hbw]
  by_cases h1 : n = 1
  · simp [h1, increment, Emulator.sp]
  · simp [h1]

/-- Its operand. -/
theorem source_stackPointer :
    sourceCellII emu w = getStackPtr emu ∧ sourceValueII emu w = emu.load16 (getStackPtr emu) := by
  obtain ⟨-, ha, hl⟩ := h
  have hc : constantII w = none := by simp [constantII, generatedConstant, ha, hl]
  have himm : immediateII w = false := by simp [immediateII, hl]
  have hcell : sourceCellII emu w = getStackPtr emu := by
    rw [sourceCellII, if_neg (by simp [hc, himm]), ha]
    simp only [hl]
    rfl
  refine ⟨hcell, ?_⟩
  rw [sourceValueII, hc, hcell]
  simp [himm, ha]

end StackPointer

/-- PUSH. -/
theorem same_push_iff (emu : Emulator) (w : BitVec 16) (h1 : formatId w = 1)
    (h4 : opcodeII w = 4) : SameMachine emu (decode emu w false) ↔ StackIdle emu w := by
  have hne : ¬ opcodeII w = 5 := by
    rw [h4]
    decide
  have hstep := decode_pushes emu w ⟨h1, h4⟩
  have hregs (n : Fin 16) : (decode emu w false).regs n
      = if n = 1 then regsII emu w 1 - 2 else regsII emu w n := by
    rw [hstep, regs_execPush, operandsII_emu]
    rfl
  rw [StackIdle, and_iff_left fun hc => absurd hc hne]
  constructor
  · intro hs
    have hsp := hs.1 1 (by decide)
    rw [hregs, if_pos rfl, regsII_eq_blockReg emu w (by decide) (by decide)] at hsp
    exact (push_sp_iff _ _).mp hsp
  · intro hsp
    have hreg {n : Fin 16} (h2 : n ≠ 2) := regsII_stackPointer hsp emu h2
    refine ⟨fun n hn => ?_, ?_, ?_⟩
    · rw [hregs]
      split_ifs with hn1
      · rw [hreg (by decide), if_pos rfl, hn1, Emulator.sp]
        bv_omega
      · rw [hreg hn, if_neg hn1]
    · rw [hstep, sr_execPush, operandsII_emu]
    · obtain ⟨X, hX⟩ : ∃ X, X = (operandsII emu w).emu := ⟨_, rfl⟩
      have hXsp : X.sp - 2 = emu.sp := by
        rw [hX, operandsII_emu]
        show regsII emu w 1 - 2 = emu.sp
        rw [hreg (by decide), if_pos rfl]
        bv_omega
      have hXmem : (X.setReg 1 emu.sp).mem = emu.mem := by rw [hX, operandsII_emu]; rfl
      -- what is pushed has just been popped
      rw [hstep, ← hX, execPush_eq, hsp.1, (source_stackPointer hsp emu).2]
      simp only [hXsp]
      rw [← hXmem]
      refine (mem_store16_eq_iff _ _ _).mpr ?_
      simp only [Emulator.load16, hXmem, getStackPtr]

/-- CALL. -/
theorem same_call_iff (emu : Emulator) (w : BitVec 16) (h1 : formatId w = 1)
    (h5 : opcodeII w = 5) : SameMachine emu (decode emu w false) ↔ StackIdle emu w := by
  obtain ⟨X, hX⟩ : ∃ X, X = (operandsII emu w).emu := ⟨_, rfl⟩
  have hXregs : X.regs = regsII emu w := by rw [hX, operandsII_emu]
  have hXmem : (X.setReg 1 emu.sp).mem = emu.mem := by rw [hX, operandsII_emu]; rfl
  have hXsr : X.sr = emu.sr := by rw [hX, operandsII_emu]
  have hstep : decode emu w false = execCall X (sourceCellII emu w) := by
    rw [decode_formatII _ _ _ h1, decodeFormatII, if_neg (by decide), h5,
      (operandsII_source emu w).1, hX]
    rfl
  have hat (hs : SameMachine emu (decode emu w false)) :
      bwFlag w = .word ∧ asFlag w = 3 ∧ lowReg w = 1 := by
    have hsp := hs.1 1 (by decide)
    rw [hstep, execCall_eq] at hsp
    have hblock : regsII emu w 1 - 2 = emu.regs 1 := by
      rw [← hXregs]
      simpa [getAddrPtr, Emulator.sp] using hsp
    rw [regsII_eq_blockReg emu w (by decide) (by decide)] at hblock
    exact (push_sp_iff _ _).mp hblock
  rw [StackIdle, ← and_iff_right_of_imp hat]
  refine and_congr_right fun hsp => ?_
  have hreg {n : Fin 16} (h2 : n ≠ 2) := regsII_stackPointer hsp emu h2
  have htop : X.sp - 2 = emu.sp := by
    rw [Emulator.sp, hXregs, hreg (by decide), if_pos rfl]
    bv_omega
  have hpc : X.pc = emu.pc := by
    rw [Emulator.pc, hXregs, hreg (by decide), if_neg (by decide)]
    rfl
  -- the return address is stored where the operand is then read
  rw [hstep, (source_stackPointer hsp emu).1, execCall_eq, htop, hpc]
  simp only [show getStackPtr emu = getAddrPtr emu.sp from rfl, Emulator.load16_store16]
  have hmem := mem_store16_eq_iff (X.setReg 1 emu.sp) emu.sp.toNat emu.pc
  have hload : (X.setReg 1 emu.sp).load16 (getAddrPtr emu.sp)
      = emu.load16 (getAddrPtr emu.sp) := load16_congr_mem hXmem emu.sp
  rw [hXmem, show Ptr.mem emu.sp.toNat = getAddrPtr emu.sp from rfl, hload] at hmem
  constructor
  · intro hs _
    exact hmem.mp hs.2.2
  · intro hc
    refine ⟨fun n hn => ?_, ?_, hmem.mpr (hc h5)⟩
    · have hcell : getAddrPtr emu.sp ≠ .reg n := by simp [getAddrPtr]
      rw [Emulator.regs_setReg, Emulator.regs_store16, if_neg hcell, Emulator.regs_setReg, hXregs,
        hreg hn]
      split_ifs with hn0 hn1
      · rw [hn0, Emulator.pc]
      · rw [hn1, Emulator.sp]
      · rfl
    · rw [Emulator.sr_setReg, Emulator.sr_store16, Emulator.sr_setReg, hXsr]

/-! ## The other opcodes -/

/-- The operand block is all that an instruction without operation does. -/
theorem same_block_iff (emu : Emulator) (w : BitVec 16) :
    SameMachine emu (operandsII emu w).emu
      ↔ extendedII w = false ∧ autoIncrementsII w = false ∧ MaskIdle emu w := by
  rw [← block_iff, operandsII_emu, SameMachine]
  exact and_iff_left ⟨rfl, rfl⟩

/-- A register operand is used in mode 0. -/
theorem asFlag_of_sourceCellII {emu : Emulator} {w : BitVec 16} {n : Fin 16}
    (h : sourceCellII emu w = .reg n) :
    n = lowReg w ∧ asFlag w = 0 ∧ constantII w = none ∧ immediateII w = false := by
  have hc : ¬ ((constantII w).isSome || immediateII w) = true := by
    intro hc
    rw [sourceCellII, if_pos hc] at h
    exact absurd h (by simp)
  have ha : asFlag w = 0 := by
    by_contra ha
    obtain ⟨a, hcell⟩ := exists_sourceCellII emu w hc ha
    exact absurd (hcell.symm.trans h) (by simp [getAddrPtr])
  have hnone := constantII_eq_none hc
  simp only [sourceCellII, if_neg hc, ha] at h
  exact ⟨(Ptr.reg.inj h).symm, ha, hnone, by simpa [hnone] using hc⟩

/-- The store of a shift. -/
def shiftStore (emu : Emulator) (w : BitVec 16) : Emulator :=
  (operandsII emu w).emu.store16 (sourceCellII emu w)
    (shiftValue (opcodeII w) (bwFlag w) emu.sr.carry (shiftOperand emu w))

/-- The store leaves the registers and the memory as they are. -/
def StoresNothing (emu : Emulator) (w : BitVec 16) : Prop :=
  (∀ n, n ≠ 2 → (shiftStore emu w).regs n = emu.regs n) ∧ (shiftStore emu w).mem = emu.mem

section Stores

variable {emu : Emulator} {w : BitVec 16}

/-- What a register operand holds when it is shifted. -/
theorem regsII_of_sourceCellII {n : Fin 16} (hc : sourceCellII emu w = .reg n) {k : Fin 16}
    (h2 : k ≠ 2) : regsII emu w k
      = if bwFlag w = .byte ∧ k = n then emu.regs k &&& 0x00FF else emu.regs k := by
  obtain ⟨hn, ha, -, himm⟩ := asFlag_of_sourceCellII hc
  have hext : extendedII w = false := by simp [extendedII, himm, ha]
  have hinc : autoIncrementsII w = false := by simp [autoIncrementsII, ha]
  have hm : masksOperand w = true ↔ bwFlag w = .byte := by simp [masksOperand, ha]
  rw [regsII_eq_blockReg_of_not_extended emu hext h2, blockReg, hn]
  simp [hm, hinc]

/-- A shifted register. -/
theorem storesNothing_reg_iff (h3 : opcodeII w ≤ 3) {n : Fin 16}
    (hc : sourceCellII emu w = .reg n) :
    StoresNothing emu w
      ↔ extendedII w = false ∧ autoIncrementsII w = false ∧ CellFixed emu w := by
  obtain ⟨-, ha, -, himm⟩ := asFlag_of_sourceCellII hc
  have hext : extendedII w = false := by simp [extendedII, himm, ha]
  have hinc : autoIncrementsII w = false := by simp [autoIncrementsII, ha]
  have hop : shiftOperand emu w = regsII emu w n := by
    rw [shiftOperand, hc, operandsII_emu]
    rfl
  obtain ⟨r, hr⟩ : ∃ r, r = shiftValue (opcodeII w) (bwFlag w) emu.sr.carry (shiftOperand emu w) :=
    ⟨_, rfl⟩
  have hregs (k : Fin 16) : (shiftStore emu w).regs k = if k = n then r else regsII emu w k := by
    rw [shiftStore, hc, ← hr, Emulator.regs_store16, operandsII_emu]
    simp only [Ptr.reg.injEq, eq_comm]
  -- only the cell that is shifted can change
  have hcell : (∀ k, k ≠ 2 → (shiftStore emu w).regs k = emu.regs k)
      ↔ (n ≠ 2 → r = emu.regs n) := by
    constructor
    · intro h h2
      have := h n h2
      rwa [hregs, if_pos rfl] at this
    · intro h k h2
      rw [hregs]
      split_ifs with hk
      · rw [hk] at h2 ⊢
        exact h h2
      · rw [regsII_of_sourceCellII hc h2, if_neg fun hb => hk hb.2]
  have hmem : (shiftStore emu w).mem = emu.mem := by
    rw [shiftStore, hc, operandsII_emu]
    rfl
  rw [StoresNothing, hcell, and_iff_left hmem, and_iff_right hext, and_iff_right hinc, CellFixed,
    hc]
  apply imp_congr_right
  intro h2
  rw [hr, hop, regsII_of_sourceCellII hc h2]
  cases hbw : bwFlag w with
  | word =>
    rw [if_neg (by simp), shiftValue_eq_iff h3, and_iff_left (by simp)]
  | byte =>
    rw [if_pos ⟨rfl, rfl⟩, shiftValue_mask_eq_iff h3]
    simp

/-- A shifted word of the memory. -/
theorem storesNothing_mem_iff (h3 : opcodeII w ≤ 3) {a : ℕ} (hc : sourceCellII emu w = .mem a) :
    StoresNothing emu w
      ↔ extendedII w = false ∧ autoIncrementsII w = false ∧ CellFixed emu w := by
  have hm : masksOperand w = false := by
    by_contra hm
    have hm : masksOperand w = true := by simpa using hm
    simp only [masksOperand, Bool.and_eq_true, beq_iff_eq] at hm
    simp only [sourceCellII, hm.2] at hc
    split_ifs at hc
  have hidle : MaskIdle emu w := fun h => absurd h (by simp [hm])
  have hXmem : (operandsII emu w).emu.mem = emu.mem := by rw [operandsII_emu]
  have hload : (operandsII emu w).emu.load16 (.mem a) = emu.load16 (.mem a) := by
    simp only [Emulator.load16, hXmem]
  have hop : shiftOperand emu w = emu.load16 (.mem a) := by rw [shiftOperand, hc, hload]
  have hregs : (∀ n, n ≠ 2 → (shiftStore emu w).regs n = emu.regs n)
      ↔ extendedII w = false ∧ autoIncrementsII w = false := by
    rw [← and_iff_left (a := autoIncrementsII w = false) hidle, ← block_iff, shiftStore, hc,
      operandsII_emu]
    rfl
  have hfixed : CellFixed emu w
      ↔ FixedBy (opcodeII w) (bwFlag w) emu.sr.carry (emu.load16 (.mem a)) := by
    rw [CellFixed, hc]
  rw [StoresNothing, hregs, and_assoc, shiftStore, hc, ← hXmem, mem_store16_eq_iff, hload, hfixed,
    ← shiftValue_eq_iff h3, hop, @eq_comm _ (emu.load16 (.mem a))]

/-- A shift of `bogus_reg`. -/
theorem storesNothing_bogus_iff (hc : sourceCellII emu w = .bogus) :
    StoresNothing emu w
      ↔ extendedII w = false ∧ autoIncrementsII w = false ∧ CellFixed emu w := by
  have hmem : (shiftStore emu w).mem = emu.mem := by
    rw [shiftStore, hc, operandsII_emu]
    rfl
  rw [StoresNothing, and_iff_left hmem, CellFixed, hc, ← block_iff, shiftStore, hc, operandsII_emu]
  rfl

end Stores

/-- A shift. -/
theorem same_shift_iff (emu : Emulator) (w : BitVec 16) (h1 : formatId w = 1)
    (h3 : opcodeII w ≤ 3) :
    SameMachine emu (decode emu w false)
      ↔ extendedII w = false ∧ autoIncrementsII w = false ∧ ShiftIdle emu w := by
  have hsr : (operandsII emu w).emu.sr = emu.sr := by rw [operandsII_emu]
  have hstep : decode emu w false = { shiftStore emu w with
      sr := shiftFlags (opcodeII w) (bwFlag w) emu.sr (shiftOperand emu w) } := by
    rw [decode_formatII _ _ _ h1, decodeFormatII, if_neg (by decide),
      (operandsII_source emu w).1, executeII_shift _ _ _ _ h3, hsr, shiftStore, shiftOperand]
  have hstore : StoresNothing emu w
      ↔ extendedII w = false ∧ autoIncrementsII w = false ∧ CellFixed emu w := by
    cases hc : sourceCellII emu w with
    | reg n => exact storesNothing_reg_iff h3 hc
    | mem a => exact storesNothing_mem_iff h3 hc
    | bogus => exact storesNothing_bogus_iff hc
  -- the flags apart, what is left is the store
  rw [StoresNothing] at hstore
  rw [hstep, SameMachine, ShiftIdle, ← shiftFlags_eq_iff h3]
  show (∀ n, n ≠ 2 → (shiftStore emu w).regs n = emu.regs n) ∧
    _ = emu.sr ∧ (shiftStore emu w).mem = emu.mem ↔ _
  rw [and_left_comm, hstore]
  tauto

/-- **A Format II word leaves the machine as it is exactly when it is idle.** -/
theorem same_decodeII_iff (emu : Emulator) (w : BitVec 16) (h1 : formatId w = 1) :
    SameMachine emu (decode emu w false) ↔ Idle emu w := by
  unfold Idle
  have hcases : opcodeII w ≤ 3 ∨ opcodeII w = 4 ∨ opcodeII w = 5 ∨ opcodeII w = 6 ∨
      opcodeII w = 7 := by
    generalize opcodeII w = o
    revert o
    decide
  have hnone (v : Fin 8) (hv : opcodeII w = v) (h : ∀ emu bw x p, executeII emu v bw x p = emu) :
      SameMachine emu (decode emu w false)
        ↔ extendedII w = false ∧ autoIncrementsII w = false ∧ MaskIdle emu w := by
    rw [decode_formatII _ _ _ h1, decodeFormatII, if_neg (by decide), hv, h, same_block_iff]
  rcases hcases with h3 | h4 | h5 | h6 | h7
  · have hne : ¬ (opcodeII w = 4 ∨ opcodeII w = 5) := by
      rintro (h | h) <;> rw [h] at h3 <;> exact absurd h3 (by decide)
    rw [if_neg hne, if_pos h3]
    exact same_shift_iff emu w h1 h3
  · rw [if_pos (Or.inl h4)]
    exact same_push_iff emu w h1 h4
  · rw [if_pos (Or.inr h5)]
    exact same_call_iff emu w h1 h5
  · rw [hnone 6 h6 fun _ _ _ _ => rfl, h6]
    rfl
  · rw [hnone 7 h7 fun _ _ _ _ => rfl, h7]
    rfl

/-! ## Rejection -/

end Msp430
