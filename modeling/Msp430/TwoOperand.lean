/-
# The two-operand instructions that write

The nine storing opcodes of Format I against the instruction set: `aluResult` is the
value an opcode is documented to store, on numbers of any width, and
`decodeFormatI_stores` says that `decode_formatI` stores it at the destination and
changes nothing else but the flags, the program counter and an auto-incremented
source register.
-/
import Msp430.OperandsI
import Msp430.Startup

namespace Msp430

/-! ## The writing opcodes -/

/-- The opcodes that store a result: MOV, ADD, ADDC, SUBC, SUB, BIC, BIS, XOR, AND. -/
def Writes (opcode : Fin 16) : Prop :=
  opcode ∈ [0x4, 0x5, 0x6, 0x7, 0x8, 0xC, 0xD, 0xE, 0xF]

instance (opcode : Fin 16) : Decidable (Writes opcode) := by
  unfold Writes; infer_instance

/-- The writing opcodes belong to Format I. -/
theorem four_le_of_writes {opcode : Fin 16} (h : Writes opcode) : 4 ≤ opcode := by
  revert opcode
  decide

/-- What the instruction set says an opcode stores, on numbers of any width. -/
def aluResult {n : ℕ} (opcode : Fin 16) (s d : BitVec n) (c : Bool) : BitVec n :=
  match opcode with
  | 0x4 => s
  | 0x5 => d + s
  | 0x6 => d + s + BitVec.ofNat n c.toNat
  | 0x7 => d + ~~~s + BitVec.ofNat n c.toNat
  | 0x8 => d - s
  | 0xC => d &&& ~~~s
  | 0xD => d ||| s
  | 0xE => d ^^^ s
  | 0xF => d &&& s
  | _ => d

/-- The state after the store of the result at the destination. -/
def storeResult (emu : Emulator) (opcode : Fin 16) (bw : Width) (s : BitVec 16) (p : Ptr) :
    Emulator :=
  match bw with
  | .word => emu.store16 p (aluResult opcode s (emu.load16 p) emu.sr.carry)
  | .byte => emu.store8 p (aluResult opcode (s.setWidth 8) (emu.load8 p) emu.sr.carry)

/-- A status register with its four flags cleared: what the other bits are. -/
def StatusReg.clearFlags (sr : StatusReg) : StatusReg :=
  { sr with overflow := false, negative := false, zero := false, carry := false }

theorem carryBit_eq (sr : StatusReg) : carryBit sr = BitVec.ofNat 16 sr.carry.toNat := by
  cases h : sr.carry <;> simp [carryBit, h]

/-- The carry bit at byte width. -/
theorem setWidth_ofNat_toNat (c : Bool) :
    (BitVec.ofNat 16 c.toNat).setWidth 8 = BitVec.ofNat 8 c.toNat := by
  cases c <;> rfl

/-- Storing a word leaves the status register as it is. -/
theorem store16_sr (emu : Emulator) (p : Ptr) (v : BitVec 16) :
    { emu.store16 p v with sr := emu.sr } = emu.store16 p v := by
  cases p <;> rfl

/-- Storing a byte leaves the status register as it is. -/
theorem store8_sr (emu : Emulator) (p : Ptr) (b : BitVec 8) :
    { emu.store8 p b with sr := emu.sr } = emu.store8 p b := by
  cases p <;> rfl

/-- The complement of a source, at byte width. -/
theorem setWidth_not (s : BitVec 16) : (~~~s).setWidth 8 = ~~~(s.setWidth 8) :=
  BitVec.setWidth_not (by decide)

/-- A negated source, at byte width. -/
theorem setWidth_neg (s : BitVec 16) : (-s).setWidth 8 = -(s.setWidth 8) := by
  rw [BitVec.neg_eq_not_add, BitVec.setWidth_add _ _ (by decide), setWidth_not,
    BitVec.neg_eq_not_add]
  rfl

theorem neg_word (s : BitVec 16) : ~~~s + 1 = -s := (BitVec.neg_eq_not_add s).symm

/-- **A writing opcode stores `aluResult` and, besides, touches flags only.** -/
theorem executeI_eq_storeResult (emu : Emulator) (opcode : Fin 16) (bw : Width)
    (s : BitVec 16) (p : Ptr) (h : Writes opcode) :
    executeI emu opcode bw s p
      = { storeResult emu opcode bw s p with sr := (executeI emu opcode bw s p).sr } := by
  unfold Writes at h
  fin_cases h <;> cases bw <;>
    simp only [executeI, storeResult, aluResult, execMov, execAdd, execAddc, execSubc,
      execSub, execBic, execBis, execXor, execAnd, carryBit_eq, setWidth_ofNat_toNat,
      setWidth_not, setWidth_neg, neg_word, BitVec.add_assoc, BitVec.sub_eq_add_neg,
      Emulator.sr_store16, Emulator.sr_store8, store16_sr, store8_sr]

/-- No opcode touches a status bit other than the four flags. -/
theorem clearFlags_executeI (emu : Emulator) (opcode : Fin 16) (bw : Width)
    (s : BitVec 16) (p : Ptr) :
    (executeI emu opcode bw s p).sr.clearFlags = emu.sr.clearFlags := by
  fin_cases opcode <;> cases bw <;>
    simp [executeI, StatusReg.clearFlags, execMov, execAdd, execAddc, execSubc, execSub,
      execCmp, execBit, execBic, execBis, execXor, execAnd]

/-- MOV, BIC and BIS leave the flags too. -/
theorem sr_executeI (emu : Emulator) (opcode : Fin 16) (bw : Width) (s : BitVec 16)
    (p : Ptr) (h : opcode = 0x4 ∨ opcode = 0xC ∨ opcode = 0xD) :
    (executeI emu opcode bw s p).sr = emu.sr := by
  rcases h with rfl | rfl | rfl <;> cases bw <;>
    simp [executeI, execMov, execBic, execBis]

/-! ## The flags of the storing opcodes -/

/-- The status register that a writing opcode leaves, from the source value, the old and
the new word at the destination. -/
def flagsI (opcode : Fin 16) (bw : Width) (sr : StatusReg) (s d r : BitVec 16) :
    StatusReg :=
  let arithmetic (s : BitVec 16) (carry : Bool) : StatusReg :=
    { sr with
      zero := isZero r bw
      negative := isNegative r bw
      carry := carry
      overflow := isOverflowed s d r bw }
  let logical (overflow : Bool) : StatusReg :=
    { sr with
      zero := isZero r bw
      negative := isNegative r bw
      carry := !isZero r bw
      overflow := overflow }
  match opcode with
  | 0x5 | 0x6 => arithmetic s (isCarried (d.setWidth 32) (s.signExtend 32) bw)
  | 0x7 => arithmetic (~~~s) (isCarried (d.signExtend 32) ((~~~s).signExtend 32) bw)
  | 0x8 => arithmetic (-s)
      (isCarried (~~~((-s).signExtend 32)) 1 bw
        || isCarried (d.signExtend 32) ((-s).signExtend 32) bw || sr.carry)
  | 0xE => logical (isNegative d bw && isNegative s bw)
  | 0xF => logical false
  | _ => sr

/-- A new status register does not show through a pointer. -/
theorem load16_with_sr (emu : Emulator) (sr : StatusReg) (p : Ptr) :
    { emu with sr := sr }.load16 p = emu.load16 p := by
  cases p <;> rfl

theorem load8_with_sr (emu : Emulator) (sr : StatusReg) (p : Ptr) :
    { emu with sr := sr }.load8 p = emu.load8 p := by
  cases p <;> rfl

/-- The flags of a writing opcode. -/
theorem sr_executeI_eq (emu : Emulator) (opcode : Fin 16) (bw : Width) (s : BitVec 16)
    (p : Ptr) (h : Writes opcode) :
    (executeI emu opcode bw s p).sr
      = flagsI opcode bw emu.sr s (emu.load16 p) ((executeI emu opcode bw s p).load16 p) := by
  unfold Writes at h
  fin_cases h
  · cases bw <;> simp [executeI, execMov, flagsI]
  · cases bw <;> simp [executeI, execAdd, flagsI, load16_with_sr]
  · cases bw <;> simp [executeI, execAddc, flagsI, load16_with_sr]
  · cases bw <;> simp [executeI, execSubc, flagsI, load16_with_sr]
  · -- SUB: the carry is set or left alone
    have hset (b c : Bool) : (if b = true then true else c) = (b || c) := by
      cases b <;> rfl
    cases bw <;>
      simp only [executeI, execSub, flagsI, load16_with_sr, neg_word, Emulator.sr_store16,
        Emulator.sr_store8, hset]
  · cases bw <;> simp [executeI, execBic, flagsI]
  · cases bw <;> simp [executeI, execBis, flagsI]
  · cases bw <;>
      simp [executeI, execXor, flagsI, load16_with_sr, isNegative_word_eq,
        isNegative_byte_eq, isZero, Emulator.load8_eq, bne]
  · cases bw <;>
      simp [executeI, execAnd, flagsI, load16_with_sr, isNegative_word_eq,
        isNegative_byte_eq, isZero, Emulator.load8_eq, bne]

/-! ## What a store changes -/

/-- The host bytes that a store at a location may change. -/
def Touches : Ptr → Width → ℕ → Prop
  | .mem b, .word, a => a = b ∨ a = b + 1
  | .mem b, .byte, a => a = b
  | _, _, _ => False

namespace Emulator

/-- A word store leaves the other bytes of memory. -/
theorem mem_store16 (emu : Emulator) (p : Ptr) (v : BitVec 16) (a : ℕ)
    (h : ¬ Touches p .word a) : (emu.store16 p v).mem a = emu.mem a := by
  cases p with
  | reg n => rfl
  | mem b =>
    have h1 : a ≠ b := fun he => h (Or.inl he)
    have h2 : a ≠ b + 1 := fun he => h (Or.inr he)
    simp [store16, setByte, h1, h2]
  | bogus => rfl

/-- A byte store leaves the other bytes of memory. -/
theorem mem_store8 (emu : Emulator) (p : Ptr) (b : BitVec 8) (a : ℕ)
    (h : ¬ Touches p .byte a) : (emu.store8 p b).mem a = emu.mem a := by
  cases p with
  | reg n => rfl
  | mem c =>
    have h1 : a ≠ c := h
    simp [store8, setByte, h1]
  | bogus => rfl

end Emulator

/-- The word that a writing opcode leaves at its destination. -/
theorem load16_executeI (emu : Emulator) (opcode : Fin 16) (bw : Width) (s : BitVec 16)
    (p : Ptr) (h : Writes opcode) :
    (executeI emu opcode bw s p).load16 p
      = match bw with
        | .word => aluResult opcode s (emu.load16 p) emu.sr.carry
        | .byte => joinBytes (highByte (emu.load16 p))
            (aluResult opcode (s.setWidth 8) ((emu.load16 p).setWidth 8) emu.sr.carry) := by
  rw [executeI_eq_storeResult emu opcode bw s p h, load16_with_sr]
  cases bw with
  | word => exact Emulator.load16_store16 _ _ _
  | byte =>
    rw [storeResult, Emulator.load16_store8, Emulator.load8_eq]

/-- The bytes that a writing opcode leaves. -/
theorem mem_storeResult (emu : Emulator) (opcode : Fin 16) (bw : Width) (s : BitVec 16)
    (p : Ptr) (a : ℕ) (h : ¬ Touches p bw a) :
    (storeResult emu opcode bw s p).mem a = emu.mem a := by
  cases bw with
  | word => exact emu.mem_store16 p _ a h
  | byte => exact emu.mem_store8 p _ a h

/-- The registers that a writing opcode leaves. -/
theorem regs_storeResult (emu : Emulator) (opcode : Fin 16) (bw : Width) (s : BitVec 16)
    (p : Ptr) (n : Fin 16) (h : p ≠ .reg n) :
    (storeResult emu opcode bw s p).regs n = emu.regs n := by
  cases bw <;> simp [storeResult, h]

/-! ## The whole instruction -/

/-- A byte store keeps the high byte of a register. -/
theorem highByte_store8 (emu : Emulator) (n : Fin 16) (b : BitVec 8) :
    highByte ((emu.store8 (.reg n) b).regs n) = highByte (emu.regs n) := by
  rw [Emulator.regs_store8, if_pos rfl, highByte_joinBytes]

/-- A register cell after the operand block of an instruction that executes, when no
mask falls on it. -/
theorem regsI_of_unmasked (emu : Emulator) (w : BitVec 16) (n : Fin 16) (h2 : n ≠ 2)
    (h : ¬ (masksDestination w = true ∧ n = lowReg w)) :
    regsI emu w false n
      = emu.regs n + (if n = 0 then advanceI w else 0)
          + (if autoIncrements w ∧ n = sourceReg w then increment (bwFlag w) else 0) := by
  have hlook := regs_lookupsI_of_ne emu w h2
  have hmask : (masksDestination w && n == lowReg w) = false := by
    simpa using fun hm hn => h ⟨hm, hn⟩
  simp [regsI, unmaskedI, hlook, hmask]

/-- `decode_formatI` on a writing opcode: `storeResult` after the operand block, and
new flags. -/
theorem decodeFormatI_eq_storeResult (emu : Emulator) (w : BitVec 16)
    (h : Writes (formatId w)) :
    decodeFormatI emu w false
      = { storeResult (operandsI emu w false).emu (formatId w) (bwFlag w)
            (operandsI emu w false).sourceValue (operandsI emu w false).destinationAddr
          with sr := (decodeFormatI emu w false).sr } := by
  have := executeI_eq_storeResult (operandsI emu w false).emu (formatId w) (bwFlag w)
    (operandsI emu w false).sourceValue (operandsI emu w false).destinationAddr h
  simpa [decodeFormatI] using this

/-- The status register after the operand block is the one before it. -/
theorem sr_operandsI (emu : Emulator) (w : BitVec 16) (disassemble : Bool) :
    (operandsI emu w disassemble).emu.sr = emu.sr := by
  rw [operandsI_emu]

/-- The memory after the operand block is the one before it. -/
theorem mem_operandsI (emu : Emulator) (w : BitVec 16) (disassemble : Bool) :
    (operandsI emu w disassemble).emu.mem = emu.mem := by
  rw [operandsI_emu]

/-- **The storing instructions store the right value and nothing else.**  With the
source value and the destination as the operand block resolves them: the value stored
is `aluResult`; a byte result clears the high byte of a register; the other registers
change by the advance of the program counter and the auto-increment alone; the other
bytes of memory stay; and of the status register at most the flags change. -/
theorem decodeFormatI_stores (emu : Emulator) (w : BitVec 16) (h : Writes (formatId w)) :
    let o := operandsI emu w false
    let emu' := decodeFormatI emu w false
    (bwFlag w = .word → emu'.load16 o.destinationAddr
        = aluResult (formatId w) o.sourceValue (o.emu.load16 o.destinationAddr)
            emu.sr.carry) ∧
      (bwFlag w = .byte → emu'.load8 o.destinationAddr
        = aluResult (formatId w) (o.sourceValue.setWidth 8) (o.emu.load8 o.destinationAddr)
            emu.sr.carry) ∧
      (bwFlag w = .byte → ∀ n, o.destinationAddr = .reg n → highByte (emu'.regs n) = 0) ∧
      (∀ n, n ≠ 2 → o.destinationAddr ≠ .reg n → emu'.regs n
        = emu.regs n + (if n = 0 then advanceI w else 0)
            + (if autoIncrements w ∧ n = sourceReg w then increment (bwFlag w) else 0)) ∧
      (∀ a, ¬ Touches o.destinationAddr (bwFlag w) a → emu'.mem a = emu.mem a) ∧
      emu'.sr.clearFlags = emu.sr.clearFlags ∧
      (formatId w = 0x4 ∨ formatId w = 0xC ∨ formatId w = 0xD → emu'.sr = emu.sr) := by
  intro o emu'
  have hemu' : emu' = { storeResult o.emu (formatId w) (bwFlag w) o.sourceValue
      o.destinationAddr with sr := emu'.sr } := decodeFormatI_eq_storeResult emu w h
  have hsr : o.emu.sr = emu.sr := sr_operandsI emu w false
  have hdst : o.destinationAddr = destinationI emu w false :=
    operandsI_destinationAddr emu w false
  refine ⟨?_, ?_, ?_, ?_, ?_, ?_, ?_⟩
  · intro hbw
    rw [hemu', load16_with_sr]
    simp only [storeResult, hbw, Emulator.load16_store16]
    rw [hsr]
  · intro hbw
    rw [hemu', load8_with_sr]
    simp only [storeResult, hbw, Emulator.load8_store8]
    rw [hsr]
  · -- the byte store keeps the high byte that the mask of the operand block cleared
    intro hbw n hn
    obtain ⟨ha, rfl⟩ := (destinationI_eq_reg emu w false n).mp (hdst ▸ hn)
    have hmask : masksDestination w = true := by simp [masksDestination, hbw, ha]
    rw [hemu']
    simp only [storeResult, hbw, hn]
    rw [highByte_store8, operandsI_emu]
    simpa [regsI, hmask] using highByte_mask (unmaskedI emu w false (lowReg w))
  · intro n h2 hn
    have hunmasked : ¬ (masksDestination w = true ∧ n = lowReg w) := by
      rintro ⟨hm, rfl⟩
      have ha : adFlag w = false := by
        simp only [masksDestination, Bool.and_eq_true, Bool.not_eq_true'] at hm
        exact hm.2
      exact hn (hdst.trans ((destinationI_eq_reg emu w false _).mpr ⟨ha, rfl⟩))
    rw [hemu']
    simp only
    rw [regs_storeResult _ _ _ _ _ _ hn, operandsI_emu]
    exact regsI_of_unmasked emu w n h2 hunmasked
  · intro a ha
    rw [hemu']
    simp only
    rw [mem_storeResult _ _ _ _ _ _ ha, mem_operandsI]
  · have := clearFlags_executeI o.emu (formatId w) (bwFlag w) o.sourceValue o.destinationAddr
    rw [hsr] at this
    simpa [emu', decodeFormatI] using this
  · intro hop
    have := sr_executeI o.emu (formatId w) (bwFlag w) o.sourceValue o.destinationAddr hop
    rw [hsr] at this
    simpa [emu', decodeFormatI] using this

/-- `ADD.B @R5+, R6` from the start state. -/
theorem decodeFormatI_stores_addByte :
    Writes (formatId 0x5576) ∧
      (decodeFormatI (startState.setReg 6 0x1234) 0x5576 false).load8 (.reg 6)
        = startState.mem 0 + 0x34 := by
  refine ⟨by decide, ?_⟩
  exact (decodeFormatI_stores (startState.setReg 6 0x1234) 0x5576 (by decide)).2.1 rfl
end Msp430
