/-
# The flags of ADD

ADD against the instruction set: `addFlags` is the status register that an addition of
two numbers of any width is documented to leave.  Zero, sign and overflow are always
right.  The carry test also looks at what the promotion to 32 bits puts above the
operands: a sign-extended source in word form, the high bytes of the two words in byte
form.
-/
import Msp430.Compare

namespace Msp430

/-! ## What the addition promises -/

/-- The status register that the sum of `d` and `s` is documented to leave: carry out of
the width, signed sum out of range, sum zero, top bit of the sum. -/
def addFlags {n : ℕ} (sr : StatusReg) (d s : BitVec n) : StatusReg :=
  { sr with
    carry := decide (2 ^ n ≤ d.toNat + s.toNat)
    overflow := decide (2 ^ (n - 1) ≤ d.toInt + s.toInt ∨ d.toInt + s.toInt < -2 ^ (n - 1))
    zero := decide ((d.toNat + s.toNat) % 2 ^ n = 0)
    negative := (d + s).msb }

/-- A sum is zero when its value is, up to the width. -/
theorem add_beq_zero {n : ℕ} (d s : BitVec n) :
    (d + s == 0) = decide ((d.toNat + s.toNat) % 2 ^ n = 0) := by
  rw [Bool.eq_iff_iff, beq_iff_eq, decide_eq_true_iff, ← BitVec.toNat_inj, BitVec.toNat_add]
  simp

/-! ## The flags of the code -/

/-- A word sum: all flags but the carry are right. -/
theorem flagsI_add_word (sr : StatusReg) (d s : BitVec 16) :
    flagsI 0x5 .word sr s d (d + s)
      = { addFlags sr d s with
          carry := decide (0x8000 ≤ s.toNat ∨ 2 ^ 16 ≤ d.toNat + s.toNat) } := by
  simp only [flagsI, addFlags, isZero]
  rw [isCarried_zero_sign, isOverflowed_word, isNegative_word, Subtraction.addOverflow_add,
    add_beq_zero]

/-- The carry of the byte form: a carry out of the low bytes, or high bytes that do not
cancel. -/
theorem isCarried_zero_sign_byte (d s : BitVec 16) :
    isCarried (d.setWidth 32) (s.signExtend 32) .byte
      = decide (2 ^ 8 ≤ (d.setWidth 8).toNat + (s.setWidth 8).toNat
          ∨ (highByte d).toNat + (highByte s).toInt ≠ 0) := by
  have hd := d.isLt
  have hs := s.isLt
  have hhigh : (highByte s).toInt
      = (s.toNat / 256 : ℕ) - if 0x8000 ≤ s.toNat then 256 else 0 := by
    rw [BitVec.toInt_eq_toNat_cond, toNat_highByte]
    split_ifs <;> omega
  rw [isCarried_byte, toNat_zeroExtend_word, toNat_signExtend_word, decide_eq_decide, hhigh,
    toNat_highByte, BitVec.toNat_setWidth, BitVec.toNat_setWidth]
  split_ifs <;> omega

/-- A byte sum in a word: all flags but the carry are right. -/
theorem flagsI_add_byte (sr : StatusReg) (d s : BitVec 16) :
    flagsI 0x5 .byte sr s d (joinBytes (highByte d) (d.setWidth 8 + s.setWidth 8))
      = { addFlags sr (d.setWidth 8) (s.setWidth 8) with
          carry := decide (2 ^ 8 ≤ (d.setWidth 8).toNat + (s.setWidth 8).toNat
            ∨ (highByte d).toNat + (highByte s).toInt ≠ 0) } := by
  simp only [flagsI, addFlags, isZero]
  rw [isCarried_zero_sign_byte, isOverflowed_byte, isNegative_byte, setWidth_joinBytes,
    Subtraction.addOverflow_add, add_beq_zero]

/-- The flags that ADD leaves. -/
theorem sr_decode_add (emu : Emulator) (w : BitVec 16) (h : formatId w = 0x5) :
    let o := operandsI emu w false
    let d := o.emu.load16 o.destinationAddr
    (decode emu w false).sr
      = match bwFlag w with
        | .word => flagsI 0x5 .word emu.sr o.sourceValue d (d + o.sourceValue)
        | .byte => flagsI 0x5 .byte emu.sr o.sourceValue d
            (joinBytes (highByte d) (d.setWidth 8 + o.sourceValue.setWidth 8)) := by
  intro o d
  rw [decode_formatI emu w false (by rw [h]; decide)]
  simp only [decodeFormatI, Bool.false_eq_true, if_false, h]
  rw [sr_executeI_eq _ _ _ _ _ (by decide), load16_executeI _ _ _ _ _ (by decide),
    sr_operandsI]
  cases bwFlag w <;> rfl

/-- The flags are right when the carry is. -/
theorem with_carry_eq_iff (sr : StatusReg) (c : Bool) :
    { sr with carry := c } = sr ↔ c = sr.carry := by
  constructor
  · intro h
    rw [← h]
  · rintro rfl
    rfl

/-- **ADD leaves the documented flags exactly when** a source with its top bit set carries,
in word form, and, in byte form, the low bytes carry or the high bytes, the source's read
as signed, cancel. -/
theorem add_flags_iff (emu : Emulator) (w : BitVec 16) (h : formatId w = 0x5) :
    let o := operandsI emu w false
    let s := o.sourceValue
    let d := o.emu.load16 o.destinationAddr
    (bwFlag w = .word →
        ((decode emu w false).sr = addFlags emu.sr d s
          ↔ s < 0x8000 ∨ 2 ^ 16 ≤ d.toNat + s.toNat)) ∧
      (bwFlag w = .byte →
        ((decode emu w false).sr = addFlags emu.sr (d.setWidth 8) (s.setWidth 8)
          ↔ 2 ^ 8 ≤ (d.setWidth 8).toNat + (s.setWidth 8).toNat
            ∨ (highByte d).toNat + (highByte s).toInt = 0)) := by
  intro o s d
  have hsr := sr_decode_add emu w h
  constructor
  · intro hbw
    simp only [hbw] at hsr
    rw [hsr, flagsI_add_word, with_carry_eq_iff]
    simp only [addFlags, decide_eq_decide]
    show (0x8000 ≤ s.toNat ∨ 2 ^ 16 ≤ d.toNat + s.toNat ↔ 2 ^ 16 ≤ d.toNat + s.toNat) ↔
      s.toNat < 0x8000 ∨ 2 ^ 16 ≤ d.toNat + s.toNat
    omega
  · intro hbw
    simp only [hbw] at hsr
    rw [hsr, flagsI_add_byte, with_carry_eq_iff]
    simp only [addFlags, decide_eq_decide]
    tauto

/-- `ADD R4, R5` with `R4 = 0x8000` and `R5 = 0` sets the carry although the sum is
`0x8000`. -/
theorem add_flags_wrong :
    let emu := (startState.setReg 4 0x8000).setReg 5 0
    let o := operandsI emu 0x5405 false
    o.sourceValue = 0x8000 ∧ o.emu.load16 o.destinationAddr = 0 ∧
      (decode emu 0x5405 false).sr.carry = true ∧
      (decode emu 0x5405 false).sr
        ≠ addFlags emu.sr (o.emu.load16 o.destinationAddr) o.sourceValue := by
  decide

/-- `ADD R4, R5` with `R4 = 1` and `R5 = 0xFFFF`, and `ADD.B R4, R5` with `R4 = 0x80` and
`R5 = 0x80`. -/
theorem add_flags_iff_carry :
    let emu := (startState.setReg 4 1).setReg 5 0xFFFF
    let emu' := (startState.setReg 4 0x80).setReg 5 0x80
    (decode emu 0x5405 false).sr = addFlags emu.sr (0xFFFF : BitVec 16) 1 ∧
      (decode emu' 0x5445 false).sr
        = addFlags emu'.sr ((0x80 : BitVec 16).setWidth 8) ((0x80 : BitVec 16).setWidth 8) := by
  intro emu emu'
  have hword := (add_flags_iff emu 0x5405 (by decide)).1 (by decide)
  have hbyte := (add_flags_iff emu' 0x5445 (by decide)).2 (by decide)
  have hd : (operandsI emu' 0x5445 false).emu.load16
      (operandsI emu' 0x5445 false).destinationAddr = 0x80 := by decide
  rw [hd] at hbyte
  exact ⟨hword.mpr (by decide), hbyte.mpr (by decide)⟩

end Msp430
