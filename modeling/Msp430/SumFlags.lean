/-
# The flags by the operands

What a two-operand instruction leaves in the flags, said of the two words that hold its operands
and of the flags before.  The carry of a sum is a table: the tests of the code see what the
promotion to 32 bits puts above the operands, so that it has an entry of its own for each opcode
and width.  The other flags are those of the documented operation.
-/
import Msp430.AddFlags
import Msp430.LogicalFlags
import Msp430.Overflow

namespace Msp430

/-! ## The table -/

/-- The carry that the code sets for an opcode that adds, the source word being `s` and the
destination word `d`. -/
def SumCarries (opcode : Fin 16) (bw : Width) (carry : Bool) (s d : BitVec 16) : Prop :=
  match opcode, bw with
  | 0x7, .word => s.toNat < 0x8000 ∨ 0x8000 ≤ d.toNat
  | 0x7, .byte => (s.setWidth 8).toNat < (d.setWidth 8).toNat ∨ d.toInt ≤ s.toInt ∨
      s.toInt + 257 ≤ d.toInt
  | 0x8, .word => True
  | 0x8, .byte => ¬ (highByte s = 0 ∧ highByte d = 1 ∧ d.setWidth 8 < s.setWidth 8) ∨
      carry = true
  | 0x9, .word => s.toNat ≤ d.toNat ∨ 0x8000 ≤ d.toNat
  | 0x9, .byte => s.toNat ≤ 0xFF00 ∨ (s.setWidth 8).toNat ≤ (d.setWidth 8).toNat ∨
      highByte d ≠ 0
  | _, .word => 0x8000 ≤ s.toNat ∨ 2 ^ 16 ≤ d.toNat + s.toNat
  | _, .byte => 2 ^ 8 ≤ (d.setWidth 8).toNat + (s.setWidth 8).toNat ∨
      (highByte d).toNat + (highByte s).toInt ≠ 0

instance (opcode : Fin 16) (bw : Width) (carry : Bool) (s d : BitVec 16) :
    Decidable (SumCarries opcode bw carry s d) := by
  unfold SumCarries
  split <;> infer_instance

/-- The number that an opcode that adds is documented to arrive at. -/
def sumOf {n : ℕ} (opcode : Fin 16) (carry : Bool) (s d : BitVec n) : BitVec n :=
  d + (addend opcode s carry).1 + BitVec.ofNat n (addend opcode s carry).2.toNat

/-- The status register that an opcode leaves on the words `s` and `d`. -/
def operandFlags (opcode : Fin 16) (bw : Width) (sr : StatusReg) (s d : BitVec 16) : StatusReg :=
  if Adds opcode then
    let r := sumOf opcode sr.carry (s.setWidth bw.bits) (d.setWidth bw.bits)
    { sr with
      zero := r == 0
      negative := r.msb
      carry := decide (SumCarries opcode bw sr.carry s d)
      overflow := decide (SumOverflows bw d (addend opcode s sr.carry).1
        (addend opcode s sr.carry).2) }
  else logicalFlags opcode sr (s.setWidth bw.bits) (d.setWidth bw.bits)

/-! ## The carry tests of the code -/

section Carry

variable (d s : BitVec 16)

/-- SUBC in word form. -/
theorem isCarried_subc_word :
    isCarried (d.signExtend 32) ((~~~s).signExtend 32) .word
      = decide (s.toNat < 0x8000 ∨ 0x8000 ≤ d.toNat) := by
  have hs := s.isLt
  rw [isCarried_sign_sign, decide_eq_decide, BitVec.toNat_not]
  omega

/-- SUBC in byte form: the difference of the words as signed numbers does not fit the byte, or
the low bytes carry. -/
theorem isCarried_subc_byte :
    isCarried (d.signExtend 32) ((~~~s).signExtend 32) .byte
      = decide ((s.setWidth 8).toNat < (d.setWidth 8).toNat ∨ d.toInt ≤ s.toInt ∨
          s.toInt + 257 ≤ d.toInt) := by
  have hs := s.isLt
  have hd := d.isLt
  rw [isCarried_byte, decide_eq_decide, toNat_signExtend_word, toNat_signExtend_word,
    BitVec.toNat_not, BitVec.toNat_setWidth, BitVec.toNat_setWidth, BitVec.toInt_eq_toNat_cond,
    BitVec.toInt_eq_toNat_cond]
  split_ifs <;> omega

end Carry

/-- **The carry flag of every addition that stores.** -/
theorem carry_flagsI {opcode : Fin 16} (h : Adds opcode) (h9 : opcode ≠ 0x9) (bw : Width)
    (sr : StatusReg) (s d r : BitVec 16) :
    (flagsI opcode bw sr s d r).carry = decide (SumCarries opcode bw sr.carry s d) := by
  unfold Adds at h
  fin_cases h
  · cases bw with
    | word => exact isCarried_zero_sign d s
    | byte => exact isCarried_zero_sign_byte d s
  · cases bw with
    | word => exact isCarried_zero_sign d s
    | byte => exact isCarried_zero_sign_byte d s
  · cases bw with
    | word => exact isCarried_subc_word d s
    | byte => exact isCarried_subc_byte d s
  · cases bw with
    | word => exact (congrArg (· || sr.carry) (subCarry_word d s)).trans (Bool.true_or _)
    | byte =>
      refine (congrArg (· || sr.carry) (subCarry_byte d s)).trans ?_
      cases sr.carry <;> simp [SumCarries]
  · exact absurd rfl h9

/-! ## The flags -/

/-- The low bits of the sum that is stored. -/
theorem setWidth_executeI (emu : Emulator) {opcode : Fin 16} (h : Adds opcode)
    (h9 : opcode ≠ 0x9) (bw : Width) (s : BitVec 16) (p : Ptr) :
    ((executeI emu opcode bw s p).load16 p).setWidth bw.bits
      = sumOf opcode emu.sr.carry (s.setWidth bw.bits) ((emu.load16 p).setWidth bw.bits) := by
  rw [load16_executeI _ _ _ _ _ (writes_of_adds h h9)]
  cases bw with
  | word =>
    dsimp only [Width.bits]
    rw [BitVec.setWidth_eq, BitVec.setWidth_eq, BitVec.setWidth_eq, aluResult_eq h h9]
    rfl
  | byte =>
    dsimp only [Width.bits]
    rw [setWidth_joinBytes, aluResult_eq h h9]
    rfl

/-- Zero and sign of a word that holds a result, as the code tests them. -/
theorem isZero_eq (bw : Width) (r : BitVec 16) : isZero r bw = (r.setWidth bw.bits == 0) := by
  cases bw with
  | word => exact congrArg (· == 0) (BitVec.setWidth_eq r).symm
  | byte => rfl

theorem isNegative_eq (bw : Width) (r : BitVec 16) :
    isNegative r bw = (r.setWidth bw.bits).msb := by
  cases bw with
  | word => exact (isNegative_word r).trans (congrArg BitVec.msb (BitVec.setWidth_eq r).symm)
  | byte => exact isNegative_byte r

/-- An addition sets the four flags. -/
theorem flagsI_adds {opcode : Fin 16} (h : Adds opcode) (h9 : opcode ≠ 0x9) (bw : Width)
    (sr : StatusReg) (s d r : BitVec 16) :
    flagsI opcode bw sr s d r
      = { sr with
          zero := isZero r bw
          negative := isNegative r bw
          carry := (flagsI opcode bw sr s d r).carry
          overflow := (flagsI opcode bw sr s d r).overflow } := by
  unfold Adds at h
  fin_cases h
  · rfl
  · rfl
  · rfl
  · rfl
  · exact absurd rfl h9

/-- CMP leaves the flags of the difference, its carry by the table. -/
theorem sr_execCmp_operands (emu : Emulator) (bw : Width) (s : BitVec 16) (p : Ptr) :
    (execCmp emu bw s p).sr = operandFlags 0x9 bw emu.sr s (emu.load16 p) := by
  have hoverflow := overflow_executeI emu (show Adds 0x9 by decide) bw s p
  change (execCmp emu bw s p).sr.overflow = _ at hoverflow
  rw [operandFlags, if_pos (by decide), ← hoverflow]
  have hsum {n : ℕ} (x y : BitVec n) : sumOf 0x9 emu.sr.carry x y = y - x := by
    rw [BitVec.sub_eq_add_neg]
    exact BitVec.add_zero _
  cases bw with
  | word =>
    have hsr := sr_execCmp_word_eq emu s p
    simp only [Width.bits, BitVec.setWidth_eq, hsum]
    rw [hsr]
    rfl
  | byte =>
    have hsr := sr_execCmp_byte_eq emu s p
    simp only [Width.bits, hsum]
    rw [hsr]
    rfl

/-- **The flags of every opcode, by its operands.** -/
theorem sr_executeI_operands (emu : Emulator) (opcode : Fin 16) (bw : Width) (s : BitVec 16)
    (p : Ptr) :
    (executeI emu opcode bw s p).sr = operandFlags opcode bw emu.sr s (emu.load16 p) := by
  by_cases h : Adds opcode
  · by_cases h9 : opcode = 0x9
    · subst h9
      exact sr_execCmp_operands emu bw s p
    · have hflags := sr_executeI_eq emu opcode bw s p (writes_of_adds h h9)
      have hoverflow := overflow_executeI emu h bw s p
      rw [hflags] at hoverflow
      rw [hflags, flagsI_adds h h9, hoverflow, carry_flagsI h h9, isZero_eq, isNegative_eq,
        setWidth_executeI emu h h9, operandFlags, if_pos h]
  · rw [operandFlags, if_neg h]
    by_cases hl : Logical opcode
    · cases bw with
      | word =>
        rw [sr_executeI_logical_word emu opcode s p hl]
        exact congrArg₂ (logicalFlags opcode emu.sr) (BitVec.setWidth_eq s).symm
          (BitVec.setWidth_eq _).symm
      | byte => exact sr_executeI_logical_byte emu opcode s p hl
    · -- the opcodes that are left do nothing
      revert h hl
      fin_cases opcode <;> intro h hl <;> first | rfl | exact absurd (by decide) h |
        exact absurd (by decide) hl

end Msp430
