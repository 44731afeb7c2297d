/-
# The overflow flag

`is_overflowed` sees the operands and the result of an addition, and not the carry that went
into it.  `overflowed_iff` says that this is enough, at both widths and whatever stands above
the byte.  ADD, ADDC, SUBC, SUB and CMP hand it what they add, so that the overflow flag is the
one flag that all five leave as their sum has it.
-/
import Msp430.SubCmp

namespace Msp430

/-! ## Sums and their range -/

/-- The number of bits. -/
def Width.bits : Width → ℕ
  | .word => 16
  | .byte => 8

/-- The low bits of a word, read as a signed number. -/
def signedLow (bw : Width) (v : BitVec 16) : ℤ := (v.setWidth bw.bits).toInt

/-- The low bits of `r` are those of the sum of `d`, `s` and the carry. -/
def IsSum (bw : Width) (d s : BitVec 16) (c : Bool) (r : BitVec 16) : Prop :=
  r.toNat % 2 ^ bw.bits = (d.toNat + s.toNat + c.toNat) % 2 ^ bw.bits

instance (bw : Width) (d s : BitVec 16) (c : Bool) (r : BitVec 16) :
    Decidable (IsSum bw d s c r) := inferInstanceAs (Decidable (_ = _))

/-- The signed sum is out of the range of the width. -/
def SumOverflows (bw : Width) (d s : BitVec 16) (c : Bool) : Prop :=
  2 ^ (bw.bits - 1) ≤ signedLow bw d + signedLow bw s + c.toNat ∨
    signedLow bw d + signedLow bw s + c.toNat < -2 ^ (bw.bits - 1)

instance (bw : Width) (d s : BitVec 16) (c : Bool) : Decidable (SumOverflows bw d s c) :=
  inferInstanceAs (Decidable (_ ∨ _))

theorem isSum_word (d s : BitVec 16) (c : Bool) (r : BitVec 16) :
    IsSum .word d s c r ↔ r.toNat = (d.toNat + s.toNat + c.toNat) % 2 ^ 16 := by
  rw [← Nat.mod_eq_of_lt r.isLt]
  rfl

theorem isSum_byte (d s : BitVec 16) (c : Bool) (r : BitVec 16) :
    IsSum .byte d s c r ↔
      (r.setWidth 8).toNat
        = ((d.setWidth 8).toNat + (s.setWidth 8).toNat + c.toNat) % 2 ^ 8 := by
  have hmod : (d.toNat % 2 ^ 8 + s.toNat % 2 ^ 8 + c.toNat) % 2 ^ 8
      = (d.toNat + s.toNat + c.toNat) % 2 ^ 8 := by omega
  rw [BitVec.toNat_setWidth, BitVec.toNat_setWidth, BitVec.toNat_setWidth, hmod]
  rfl

/-- The signs of the operands and the sum decide. -/
theorem isOverflowed_of_isSum {bw : Width} {d s r : BitVec 16} {c : Bool}
    (h : IsSum bw d s c r) : isOverflowed s d r bw = decide (SumOverflows bw d s c) := by
  cases bw with
  | word =>
    rw [isOverflowed_word, Subtraction.addOverflow_carry d s r c ((isSum_word d s c r).mp h)]
    simp only [SumOverflows, signedLow, Width.bits, BitVec.setWidth_eq]
  | byte =>
    rw [isOverflowed_byte, Subtraction.addOverflow_carry _ _ _ c ((isSum_byte d s c r).mp h)]
    rfl

/-- **`is_overflowed` finds the overflow of a sum**, the carry into which it does not see. -/
theorem overflowed_iff (bw : Width) (s d result : BitVec 16) (c : Bool)
    (h : IsSum bw d s c result) :
    isOverflowed s d result bw = true ↔ SumOverflows bw d s c := by
  rw [isOverflowed_of_isSum h, decide_eq_true_iff]

/-- `0x7FFF + 0 + 1`, and `0x80 + 0xFF + 1` in the low bytes of words. -/
theorem overflowed_iff_carry :
    (isOverflowed 0 0x7FFF 0x8000 .word = true ↔ SumOverflows .word 0x7FFF 0 true) ∧
      (isOverflowed 0x12FF 0x3480 0x5680 .byte = true ↔ SumOverflows .byte 0x3480 0x12FF true) :=
  ⟨overflowed_iff .word 0 0x7FFF 0x8000 true (by decide),
    overflowed_iff .byte 0x12FF 0x3480 0x5680 true (by decide)⟩

/-! ## The opcodes that add -/

/-- ADD, ADDC, SUBC, SUB and CMP. -/
def Adds (opcode : Fin 16) : Prop := opcode ∈ [0x5, 0x6, 0x7, 0x8, 0x9]

instance (opcode : Fin 16) : Decidable (Adds opcode) := by
  unfold Adds; infer_instance

/-- What such an opcode adds to the destination, with the carry into the sum. -/
def addend {n : ℕ} (opcode : Fin 16) (s : BitVec n) (carry : Bool) : BitVec n × Bool :=
  match opcode with
  | 0x5 => (s, false)
  | 0x6 => (s, carry)
  | 0x7 => (~~~s, carry)
  | _ => (-s, false)

/-- A sum of words, and one of bytes. -/
theorem isSum_add_word (d s : BitVec 16) (c : Bool) :
    IsSum .word d s c (d + s + BitVec.ofNat 16 c.toNat) := by
  rw [isSum_word, BitVec.toNat_add, BitVec.toNat_add, BitVec.toNat_ofNat]
  omega

theorem isSum_add_byte {d s r : BitVec 16} {c : Bool}
    (h : r.setWidth 8 = d.setWidth 8 + s.setWidth 8 + BitVec.ofNat 8 c.toNat) :
    IsSum .byte d s c r := by
  rw [isSum_byte, h, BitVec.toNat_add, BitVec.toNat_add, BitVec.toNat_ofNat]
  omega

theorem setWidth_addend {opcode : Fin 16} (h : Adds opcode) (s : BitVec 16) (carry : Bool) :
    (addend opcode s carry).1.setWidth 8 = (addend opcode (s.setWidth 8) carry).1 ∧
      (addend opcode s carry).2 = (addend opcode (s.setWidth 8) carry).2 := by
  unfold Adds at h
  fin_cases h
  · exact ⟨rfl, rfl⟩
  · exact ⟨rfl, rfl⟩
  · exact ⟨setWidth_not s, rfl⟩
  · exact ⟨setWidth_neg s, rfl⟩
  · exact ⟨setWidth_neg s, rfl⟩

theorem writes_of_adds {opcode : Fin 16} (h : Adds opcode) (h9 : opcode ≠ 0x9) :
    Writes opcode := by
  revert opcode
  decide

/-- The documented result is the sum. -/
theorem aluResult_eq {n : ℕ} {opcode : Fin 16} (h : Adds opcode) (h9 : opcode ≠ 0x9)
    (s d : BitVec n) (carry : Bool) :
    aluResult opcode s d carry
      = d + (addend opcode s carry).1 + BitVec.ofNat n (addend opcode s carry).2.toNat := by
  unfold Adds at h
  fin_cases h <;> simp [aluResult, addend, BitVec.sub_eq_add_neg] at h9 ⊢

/-- An opcode that stores leaves the sum at the destination. -/
theorem isSum_executeI (emu : Emulator) {opcode : Fin 16} (h : Adds opcode) (h9 : opcode ≠ 0x9)
    (bw : Width) (s : BitVec 16) (p : Ptr) :
    IsSum bw (emu.load16 p) (addend opcode s emu.sr.carry).1 (addend opcode s emu.sr.carry).2
      ((executeI emu opcode bw s p).load16 p) := by
  rw [load16_executeI _ _ _ _ _ (writes_of_adds h h9)]
  cases bw with
  | word =>
    dsimp only
    rw [aluResult_eq h h9]
    exact isSum_add_word _ _ _
  | byte =>
    obtain ⟨hlow, hcarry⟩ := setWidth_addend h s emu.sr.carry
    apply isSum_add_byte
    rw [setWidth_joinBytes, aluResult_eq h h9, hlow, hcarry]

/-- The function is called on what is added. -/
theorem overflow_flagsI {opcode : Fin 16} (h : Adds opcode) (h9 : opcode ≠ 0x9) (bw : Width)
    (sr : StatusReg) (s d r : BitVec 16) :
    (flagsI opcode bw sr s d r).overflow = isOverflowed (addend opcode s sr.carry).1 d r bw := by
  unfold Adds at h
  fin_cases h
  · rfl
  · rfl
  · rfl
  · rfl
  · exact absurd rfl h9

/-- CMP adds the negative of its source and leaves the sum alone. -/
theorem overflow_execCmp (emu : Emulator) (bw : Width) (s : BitVec 16) (p : Ptr) :
    (execCmp emu bw s p).sr.overflow
      = decide (SumOverflows bw (emu.load16 p) (-s) false) := by
  rw [← neg_word]
  cases bw with
  | word =>
    show isOverflowed (~~~s + 1) (emu.load16 p) (emu.load16 p + (~~~s + 1)) .word = _
    apply isOverflowed_of_isSum
    have hsum := isSum_add_word (emu.load16 p) (~~~s + 1) false
    rwa [show BitVec.ofNat 16 false.toNat = 0#16 from rfl, BitVec.add_zero] at hsum
  | byte =>
    refine isOverflowed_of_isSum (isSum_add_byte ?_)
    rw [setWidth_add_setWidth, Emulator.load8_eq]
    exact (BitVec.add_zero _).symm

/-- **The overflow flag of every addition** is that of its sum. -/
theorem overflow_executeI (emu : Emulator) {opcode : Fin 16} (h : Adds opcode) (bw : Width)
    (s : BitVec 16) (p : Ptr) :
    (executeI emu opcode bw s p).sr.overflow
      = decide (SumOverflows bw (emu.load16 p) (addend opcode s emu.sr.carry).1
          (addend opcode s emu.sr.carry).2) := by
  by_cases h9 : opcode = 0x9
  · rw [h9]
    exact overflow_execCmp emu bw s p
  · rw [sr_executeI_eq _ _ _ _ _ (writes_of_adds h h9), overflow_flagsI h h9,
      isOverflowed_of_isSum (isSum_executeI emu h h9 bw s p)]

/-- The flag after an instruction, whatever its operands. -/
theorem overflow_decode (emu : Emulator) {w : BitVec 16} (h : Adds (formatId w)) :
    let o := operandsI emu w false
    let a := addend (formatId w) o.sourceValue emu.sr.carry
    (decode emu w false).sr.overflow
      = decide (SumOverflows (bwFlag w) (o.emu.load16 o.destinationAddr) a.1 a.2) := by
  intro o a
  have hformat : 4 ≤ formatId w := by
    revert h
    generalize formatId w = opcode
    revert opcode
    decide
  rw [decode_formatI emu w false hformat]
  simp only [decodeFormatI, Bool.false_eq_true, if_false]
  rw [overflow_executeI _ h, sr_operandsI]

end Msp430
