/-
# The flag handler (`devices/cpu/flag_handler.c`)

The four predicates that the decoders use to set `N`, `Z`, `C` and `V`.  The
functions of the source that take a pointer to the result take here the word that
the pointer points at; the byte forms read its low half.

`isCarried` takes its arguments as `uint32_t`: the callers pass 16-bit values that
C promotes, zero-extended or sign-extended according to the declared type, and the
second test sees the extension bits.
-/
import Msp430.Machine
import Msp430.Arith.Subtraction

namespace Msp430

/-- `is_zero`. -/
def isZero (result : BitVec 16) : Width → Bool
  | .word => result == 0
  | .byte => result.setWidth 8 == 0

/-- `is_negative`. -/
def isNegative (result : BitVec 16) : Width → Bool
  | .word => result.toInt < 0
  | .byte => (result.setWidth 8).toInt < 0

/-- `is_carried`. -/
def isCarried (originalDstValue sourceValue : BitVec 32) : Width → Bool
  | .word =>
    65535 - (sourceValue.setWidth 16).toNat < (originalDstValue.setWidth 16).toNat
      || (originalDstValue + sourceValue) >>> 16 != 0
  | .byte =>
    255 - (sourceValue.setWidth 8).toNat < (originalDstValue.setWidth 8).toNat
      || (originalDstValue + sourceValue) >>> 8 != 0

/-- `is_overflowed`. -/
def isOverflowed (sourceValue destinationValue result : BitVec 16) : Width → Bool
  | .word =>
    sourceValue >>> 15 == destinationValue >>> 15
      && result >>> 15 != destinationValue >>> 15
  | .byte =>
    let dstPrevValue := destinationValue.setWidth 8
    let srcValue := sourceValue.setWidth 8
    srcValue >>> 7 == dstPrevValue >>> 7
      && result.setWidth 8 >>> 7 != dstPrevValue >>> 7

/-! ## The carry test as arithmetic -/

/-- A shifted word is non-zero when the word reaches the weight shifted out. -/
theorem shift_ne_zero {m : ℕ} (x : BitVec m) (n : ℕ) :
    (x >>> n != 0) = decide (2 ^ n ≤ x.toNat) := by
  rw [Bool.eq_iff_iff, bne_iff_ne, decide_eq_true_iff, ne_eq, ← BitVec.toNat_inj,
    BitVec.toNat_ushiftRight, Nat.shiftRight_eq_div_pow]
  simp [Nat.div_eq_zero_iff]

/-- The word carry: a carry out of the low halves, or a sum that does not fit them. -/
theorem isCarried_word (a b : BitVec 32) :
    isCarried a b .word
      = decide (2 ^ 16 ≤ a.toNat % 2 ^ 16 + b.toNat % 2 ^ 16
          ∨ 2 ^ 16 ≤ (a.toNat + b.toNat) % 2 ^ 32) := by
  simp only [isCarried]
  rw [shift_ne_zero, ← Bool.decide_or, decide_eq_decide]
  simp only [BitVec.toNat_setWidth, BitVec.toNat_add]
  omega

/-- The byte carry, likewise. -/
theorem isCarried_byte (a b : BitVec 32) :
    isCarried a b .byte
      = decide (2 ^ 8 ≤ a.toNat % 2 ^ 8 + b.toNat % 2 ^ 8
          ∨ 2 ^ 8 ≤ (a.toNat + b.toNat) % 2 ^ 32) := by
  simp only [isCarried]
  rw [shift_ne_zero, ← Bool.decide_or, decide_eq_decide]
  simp only [BitVec.toNat_setWidth, BitVec.toNat_add]
  omega

/-- The value of a sign-extended argument. -/
theorem toNat_signExtend_word (x : BitVec 16) :
    (x.signExtend 32).toNat = x.toNat + if 0x8000 ≤ x.toNat then 0xFFFF0000 else 0 := by
  rw [BitVec.toNat_signExtend, BitVec.toNat_setWidth, Nat.mod_eq_of_lt (by omega),
    BitVec.msb_eq_decide]
  simp

/-- The value of a zero-extended argument. -/
theorem toNat_zeroExtend_word (x : BitVec 16) : (x.setWidth 32).toNat = x.toNat := by
  rw [BitVec.toNat_setWidth, Nat.mod_eq_of_lt (by omega)]

/-- A sign-extended source: ADD and ADDC. -/
theorem isCarried_zero_sign (d s : BitVec 16) :
    isCarried (d.setWidth 32) (s.signExtend 32) .word
      = decide (0x8000 ≤ s.toNat ∨ 2 ^ 16 ≤ d.toNat + s.toNat) := by
  rw [isCarried_word, toNat_zeroExtend_word, toNat_signExtend_word, decide_eq_decide]
  split_ifs <;> omega

/-- A sign-extended destination: CMP. -/
theorem isCarried_sign_zero (d s : BitVec 16) :
    isCarried (d.signExtend 32) (s.setWidth 32) .word
      = decide (0x8000 ≤ d.toNat ∨ 2 ^ 16 ≤ d.toNat + s.toNat) := by
  rw [isCarried_word, toNat_zeroExtend_word, toNat_signExtend_word, decide_eq_decide]
  split_ifs <;> omega

/-- Both sign-extended: SUB and SUBC. -/
theorem isCarried_sign_sign (d s : BitVec 16) :
    isCarried (d.signExtend 32) (s.signExtend 32) .word
      = decide (0x8000 ≤ d.toNat ∨ 0x8000 ≤ s.toNat) := by
  rw [isCarried_word, toNat_signExtend_word, toNat_signExtend_word, decide_eq_decide]
  split_ifs <;> omega

/-! ## Sign and overflow -/

/-- The sign test reads the top bit. -/
theorem isNegative_word (r : BitVec 16) : isNegative r .word = r.msb := by
  rw [isNegative, BitVec.msb_eq_toInt]

theorem isNegative_byte (r : BitVec 16) : isNegative r .byte = (r.setWidth 8).msb := by
  rw [isNegative, BitVec.msb_eq_toInt]

/-- The sign of a word, as C tests it. -/
theorem isNegative_word_eq (r : BitVec 16) : isNegative r .word = (r >>> 15 != 0) := by
  rw [isNegative_word, shift_ne_zero, BitVec.msb_eq_decide]

/-- The sign of a byte, as C tests it. -/
theorem isNegative_byte_eq (r : BitVec 16) :
    isNegative r .byte = (r.setWidth 8 >>> 7 != 0) := by
  rw [isNegative_byte, shift_ne_zero, BitVec.msb_eq_decide]

/-- The overflow test reads the three signs. -/
theorem isOverflowed_word (s d r : BitVec 16) :
    isOverflowed s d r .word = Subtraction.addOverflow s d r := by
  simp only [isOverflowed, bne, Subtraction.addOverflow]
  rw [Subtraction.shift_beq, Subtraction.shift_beq]

theorem isOverflowed_byte (s d r : BitVec 16) :
    isOverflowed s d r .byte
      = Subtraction.addOverflow (s.setWidth 8) (d.setWidth 8) (r.setWidth 8) := by
  simp only [isOverflowed, bne, Subtraction.addOverflow]
  rw [Subtraction.shift_beq, Subtraction.shift_beq]

end Msp430
